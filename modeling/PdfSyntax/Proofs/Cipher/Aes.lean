import PdfSyntax.Cipher.Aes

/-!
# AES can be undone

Each step of a round has an inverse. The replacement of bytes is checked byte by byte. Combining the
bytes of a column is linear, and so is undoing it, so it is enough to follow each byte of the column on
its own, which leaves a check for each single byte. Rounds are then undone one after another, and so are
the blocks of a chain, each with the enciphered block before it.
-/

set_option autoImplicit false

namespace PdfSyntax.Aes

section Linear
variable (a b : UInt8)

theorem highest_bit : b &&& 0x80 = 0 ∨ b &&& 0x80 = 0x80 :=
  Byte.forall_of_fin (fun b => b &&& 0x80 = 0 ∨ b &&& 0x80 = 0x80) (by decide +kernel) b

theorem highest_bit_xor : (a ^^^ b) &&& 0x80 = (a &&& 0x80) ^^^ (b &&& 0x80) := by
  apply UInt8.toBitVec_inj.mp
  exact BitVec.eq_of_getElem_eq (by simp [Bool.and_xor_distrib_right])

/-- What doubling takes off, which depends on the highest bit only. -/
def reduction (bit : UInt8) : UInt8 :=
  if bit = 0 then 0 else 0x1b

theorem double_eq : double b = (b <<< 1) ^^^ reduction (b &&& 0x80) := by
  simp only [double, reduction]
  split
  · rw [UInt8.xor_zero]
  · rfl

theorem double_xor : double (a ^^^ b) = double a ^^^ double b := by
  have hreduction : reduction ((a &&& 0x80) ^^^ (b &&& 0x80)) =
      reduction (a &&& 0x80) ^^^ reduction (b &&& 0x80) := by
    rcases highest_bit a with ha | ha <;> rcases highest_bit b with hb | hb <;> rw [ha, hb] <;> decide
  rw [double_eq, double_eq, double_eq, UInt8.shiftLeft_xor, highest_bit_xor, hreduction]
  ac_rfl

theorem mulBits_xor (bits : Nat) (k : UInt8) :
    mulBits bits (a ^^^ b) k = mulBits bits a k ^^^ mulBits bits b k := by
  induction bits generalizing a b k with
  | zero => exact UInt8.xor_self.symm
  | succ bits ih =>
    rw [mulBits, mulBits, mulBits, double_xor, ih]
    split
    · simp only [UInt8.zero_xor]
    · ac_rfl

theorem mul_xor (k : UInt8) : mul (a ^^^ b) k = mul a k ^^^ mul b k :=
  mulBits_xor a b 8 k

end Linear

/-! Checking all bytes is quicker with numbers in place of bytes. -/
section Numbers

def doubleNat (a : Nat) : Nat :=
  if a < 128 then 2 * a else (2 * a) ^^^ 0x11b

def mulBitsNat : Nat → Nat → Nat → Nat
  | 0, _, _ => 0
  | bits + 1, a, b => (a * (b % 2)) ^^^ mulBitsNat bits (doubleNat a) (b / 2)

def mulNat (a b : Nat) : Nat :=
  mulBitsNat 8 a b

def inverseNat (a : Nat) : Nat :=
  let a2 := mulNat a a
  let a4 := mulNat a2 a2
  let a8 := mulNat a4 a4
  let a16 := mulNat a8 a8
  let a32 := mulNat a16 a16
  let a64 := mulNat a32 a32
  let a128 := mulNat a64 a64
  mulNat a2 (mulNat a4 (mulNat a8 (mulNat a16 (mulNat a32 (mulNat a64 a128)))))

variable (a b : UInt8)

theorem toNat_double : (double b).toNat = doubleNat b.toNat :=
  Byte.forall_of_fin (fun b => (double b).toNat = doubleNat b.toNat) (by decide +kernel) b

theorem toNat_lowest : (if b &&& 1 = 0 then (0 : UInt8) else a).toNat = a.toNat * (b.toNat % 2) := by
  have hbit : (b &&& 1).toNat = b.toNat % 2 := by
    rw [UInt8.toNat_and]
    exact Nat.and_one_is_mod b.toNat
  rcases Nat.mod_two_eq_zero_or_one b.toNat with hzero | hone
  · rw [hzero] at hbit ⊢
    rw [if_pos (UInt8.toNat_inj.mp hbit)]
    rfl
  · rw [hone] at hbit ⊢
    rw [if_neg, Nat.mul_one]
    intro h
    rw [h] at hbit
    cases hbit

theorem toNat_mulBits (bits : Nat) : (mulBits bits a b).toNat = mulBitsNat bits a.toNat b.toNat := by
  induction bits generalizing a b with
  | zero => rfl
  | succ bits ih =>
    have hshift : (b >>> 1).toNat = b.toNat / 2 := by
      rw [UInt8.toNat_shiftRight]
      exact Nat.shiftRight_eq_div_pow b.toNat 1
    rw [mulBits, mulBitsNat, UInt8.toNat_xor, toNat_lowest, ih, toNat_double, hshift]

theorem toNat_mul : (mul a b).toNat = mulNat a.toNat b.toNat :=
  toNat_mulBits a b 8

theorem toNat_inverse : (inverse a).toNat = inverseNat a.toNat := by
  simp only [inverse, inverseNat, toNat_mul]

theorem inverse_inverse : inverse (inverse b) = b := by
  have h : ∀ n : Fin 256, inverseNat (inverseNat n) = n := by decide +kernel
  apply UInt8.toNat_inj.mp
  rw [toNat_inverse, toNat_inverse]
  exact h ⟨b.toNat, b.toNat_lt⟩

end Numbers

section Bytes
variable (b : UInt8)

/-- The part of the replacement that comes after inversion. -/
theorem unturn_turn :
    let turned := b ^^^ rotateLeft b 1 ^^^ rotateLeft b 2 ^^^ rotateLeft b 3 ^^^ rotateLeft b 4 ^^^ 0x63
    rotateLeft turned 1 ^^^ rotateLeft turned 3 ^^^ rotateLeft turned 6 ^^^ 0x05 = b :=
  Byte.forall_of_fin (fun b =>
    let turned := b ^^^ rotateLeft b 1 ^^^ rotateLeft b 2 ^^^ rotateLeft b 3 ^^^ rotateLeft b 4 ^^^ 0x63
    rotateLeft turned 1 ^^^ rotateLeft turned 3 ^^^ rotateLeft turned 6 ^^^ 0x05 = b)
    (by decide +kernel) b

theorem restore_substitute : restore (substitute b) = b :=
  (congrArg inverse (unturn_turn (inverse b))).trans (inverse_inverse b)

/-- What a byte of a column that is mixed and unmixed comes to in its own row, and in the rows one, two
and three further on. -/
theorem unmix_mix_byte :
    mul (mul b 2) 14 ^^^ mul b 11 ^^^ mul b 13 ^^^ mul (mul b 3) 9 = b ∧
    mul (mul b 2) 9 ^^^ mul b 14 ^^^ mul b 11 ^^^ mul (mul b 3) 13 = 0 ∧
    mul (mul b 2) 13 ^^^ mul b 9 ^^^ mul b 14 ^^^ mul (mul b 3) 11 = 0 ∧
    mul (mul b 2) 11 ^^^ mul b 13 ^^^ mul b 9 ^^^ mul (mul b 3) 14 = 0 := by
  have h : ∀ n : Fin 256,
      mulNat (mulNat n 2) 14 ^^^ mulNat n 11 ^^^ mulNat n 13 ^^^ mulNat (mulNat n 3) 9 = n ∧
      mulNat (mulNat n 2) 9 ^^^ mulNat n 14 ^^^ mulNat n 11 ^^^ mulNat (mulNat n 3) 13 = 0 ∧
      mulNat (mulNat n 2) 13 ^^^ mulNat n 9 ^^^ mulNat n 14 ^^^ mulNat (mulNat n 3) 11 = 0 ∧
      mulNat (mulNat n 2) 11 ^^^ mulNat n 13 ^^^ mulNat n 9 ^^^ mulNat (mulNat n 3) 14 = 0 := by
    decide +kernel
  simp only [← UInt8.toNat_inj, UInt8.toNat_xor, toNat_mul]
  exact h ⟨b.toNat, b.toNat_lt⟩

end Bytes

namespace Column
variable (c d : Column)

theorem add_add : (c.add d).add d = c := by
  simp only [add, UInt8.xor_assoc, UInt8.xor_self, UInt8.xor_zero]

theorem map_restore_substitute : (c.map substitute).map restore = c := by
  simp only [map, restore_substitute]

/-- All rows are mixed alike. -/
theorem mix_rotate : c.rotate.mix = c.mix.rotate := by
  simp only [rotate, mix, Column.mk.injEq]
  exact ⟨by ac_rfl, by ac_rfl, by ac_rfl, by ac_rfl⟩

theorem unmix_rotate : c.rotate.unmix = c.unmix.rotate := by
  simp only [rotate, unmix, Column.mk.injEq]
  exact ⟨by ac_rfl, by ac_rfl, by ac_rfl, by ac_rfl⟩

theorem unmix_mix_r0 : c.mix.unmix.r0 = c.r0 := by
  obtain ⟨r0, r1, r2, r3⟩ := c
  have h0 := (unmix_mix_byte r0).1
  have h1 := (unmix_mix_byte r1).2.2.2
  have h2 := (unmix_mix_byte r2).2.2.1
  have h3 := (unmix_mix_byte r3).2.1
  simp only [mix, unmix, mul_xor]
  calc _ = (mul (mul r0 2) 14 ^^^ mul r0 11 ^^^ mul r0 13 ^^^ mul (mul r0 3) 9) ^^^
        (mul (mul r1 2) 11 ^^^ mul r1 13 ^^^ mul r1 9 ^^^ mul (mul r1 3) 14) ^^^
        (mul (mul r2 2) 13 ^^^ mul r2 9 ^^^ mul r2 14 ^^^ mul (mul r2 3) 11) ^^^
        (mul (mul r3 2) 9 ^^^ mul r3 14 ^^^ mul r3 11 ^^^ mul (mul r3 3) 13) := by ac_rfl
    _ = r0 := by rw [h0, h1, h2, h3, UInt8.xor_zero, UInt8.xor_zero, UInt8.xor_zero]

theorem unmix_mix : c.mix.unmix = c := by
  have h0 := unmix_mix_r0 c
  have h1 := unmix_mix_r0 c.rotate
  have h2 := unmix_mix_r0 c.rotate.rotate
  have h3 := unmix_mix_r0 c.rotate.rotate.rotate
  simp only [mix_rotate, unmix_rotate] at h1 h2 h3
  generalize c.mix.unmix = d at h0 h1 h2 h3 ⊢
  obtain ⟨r0, r1, r2, r3⟩ := c
  obtain ⟨s0, s1, s2, s3⟩ := d
  exact (Column.mk.injEq ..).mpr ⟨h0, h1, h2, h3⟩

end Column

namespace Block
variable (x y : Block)

theorem add_add : (x.add y).add y = x := by
  simp only [add, Column.add_add]

theorem unshift_shift : x.shift.unshift = x := rfl

theorem map_unmix_mix : (x.map Column.mix).map Column.unmix = x := by
  simp only [map, Column.unmix_mix]

theorem unscramble_scramble : x.scramble.unscramble = x := by
  simp only [scramble, unscramble, unshift_shift, map, Column.map_restore_substitute]

end Block

section Cipher
variable (s : Schedule)

/-- The rounds are undone from the last to the first. -/
theorem rounds_undone (keys : List Block) (x : Block) :
    keys.foldr (fun key y => ((y.add key).map Column.unmix).unscramble)
      (keys.foldl (fun y key => (y.scramble.map Column.mix).add key) x) = x := by
  induction keys generalizing x with
  | nil => rfl
  | cons key keys ih =>
    rw [List.foldl_cons, List.foldr_cons, ih, Block.add_add, Block.map_unmix_mix,
      Block.unscramble_scramble]

theorem decipher_encipher (x : Block) : decipher s (encipher s x) = x := by
  simp only [decipher, encipher, Block.add_add, Block.unscramble_scramble, rounds_undone]

theorem decipherChain_encipherChain (start : Block) (text : List Block) :
    decipherChain s start (encipherChain s start text) = text := by
  induction text generalizing start with
  | nil => rfl
  | cons x rest ih => rw [encipherChain, decipherChain, decipher_encipher, Block.add_add, ih]

end Cipher

section Bytes

theorem blocks_append (x : Block) (rest : Bytes) : blocks (x.toBytes ++ rest) = x :: blocks rest := rfl

theorem blocks_bytes (xs : List Block) : blocks (bytes xs) = xs := by
  induction xs with
  | nil => rfl
  | cons x rest ih => rw [bytes, List.flatMap_cons, blocks_append, ← bytes, ih]

theorem length_bytes (xs : List Block) : (bytes xs).length = 16 * xs.length := by
  induction xs with
  | nil => rfl
  | cons x rest ih =>
    have hx : x.toBytes.length = 16 := rfl
    rw [bytes, List.flatMap_cons, List.length_append, hx, ← bytes, ih, List.length_cons]
    omega

/-- Whole blocks are all there is to bytes whose number is a multiple of sixteen. -/
theorem bytes_blocks {text : Bytes} (h : text.length % 16 = 0) : bytes (blocks text) = text := by
  induction hn : text.length using Nat.strongRecOn generalizing text with
  | _ n ih =>
    match text, h, hn, ih with
    | [], _, _, _ => rfl
    | a0 :: a1 :: a2 :: a3 :: b0 :: b1 :: b2 :: b3 :: c0 :: c1 :: c2 :: c3 :: d0 :: d1 :: d2 :: d3 :: rest,
        h, hn, ih =>
      simp only [List.length_cons] at h hn
      have hrest : bytes (blocks rest) = rest := ih rest.length (by omega) (by omega) rfl
      rw [blocks, bytes, List.flatMap_cons, ← bytes, hrest]
      rfl

/-- Bytes of which there are enough for a block begin with one. -/
theorem exists_block {text : Bytes} (h : 16 ≤ text.length) (hwhole : text.length % 16 = 0) :
    ∃ start rest, blocks text = start :: rest := by
  have hbytes := congrArg List.length (bytes_blocks hwhole)
  rw [length_bytes] at hbytes
  exact List.exists_cons_of_length_pos (by omega)

end Bytes

end PdfSyntax.Aes
