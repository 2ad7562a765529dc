import Mathlib.Data.Finite.Prod
import Mathlib.Data.Fintype.EquivFin
import PdfSyntax.Proofs.Session.Progress

/-!
# Which strings are deciphered

A block is one of finitely many, so a cipher that can be undone also undoes what undoes it, and a whole
chain of blocks likewise. Padding is taken away from just the texts that end in padding. So AES accepts
the strings that are enciphered with the key of the object and no others, and RC4 accepts every string.
-/

set_option autoImplicit false

namespace PdfSyntax

namespace Aes

instance : Finite Column :=
  .of_injective (fun c => (c.r0.toFin, c.r1.toFin, c.r2.toFin, c.r3.toFin)) fun c d h => by
    simp only [Prod.mk.injEq, UInt8.toFin_inj] at h
    exact (Column.mk.injEq ..).mpr h

instance : Finite Block :=
  .of_injective (fun x => (x.c0, x.c1, x.c2, x.c3)) fun x y h => by
    simp only [Prod.mk.injEq] at h
    exact (Block.mk.injEq ..).mpr h

section Cipher
variable (s : Schedule)

/-- Deciphering undoes enciphering, and among finitely many blocks none is left out. -/
theorem encipher_decipher (x : Block) : encipher s (decipher s x) = x := by
  have hundoes : Function.LeftInverse (decipher s) (encipher s) := decipher_encipher s
  exact hundoes.rightInverse_of_surjective (Finite.surjective_of_injective hundoes.injective) x

theorem encipherChain_decipherChain (start : Block) (text : List Block) :
    encipherChain s start (decipherChain s start text) = text := by
  induction text generalizing start with
  | nil => rfl
  | cons y rest ih => rw [decipherChain, encipherChain, Block.add_add, encipher_decipher, ih]

end Cipher

end Aes

namespace Padding

/-- Whether a text is a given one with padding behind it. -/
def Extends (plain text : Bytes) : Prop :=
  ∃ count, 1 ≤ count ∧ count ≤ blockSize ∧ text = plain ++ List.replicate count (UInt8.ofNat count)

variable {plain text : Bytes}

theorem toNat_count {count : Nat} (h : count ≤ blockSize) : (UInt8.ofNat count).toNat = count := by
  have hsize : blockSize = 16 := rfl
  rw [UInt8.toNat_ofNat', Nat.mod_eq_of_lt (by omega)]

theorem Extends.unpad (h : Extends plain text) : unpad text = .ok plain := by
  obtain ⟨count, hpos, hle, rfl⟩ := h
  have hcount := toNat_count hle
  have hlast : (plain ++ List.replicate count (UInt8.ofNat count)).getLastD 0 = UInt8.ofNat count := by
    obtain ⟨fewer, rfl⟩ := Nat.exists_eq_add_of_le' hpos
    rw [List.replicate_succ', ← List.append_assoc, List.getLastD_concat]
  have hnonzero : UInt8.ofNat count ≠ 0 := by
    intro h
    rw [h] at hcount
    exact absurd hcount (by change 0 ≠ count; omega)
  simp only [Padding.unpad, hlast, hcount, List.length_append, List.length_replicate,
    Nat.add_sub_cancel, List.drop_left, List.take_left]
  rw [if_neg, if_pos]
  · simp only [List.all_replicate, beq_self_eq_true, ite_self]
  · rintro (h | h)
    · exact hnonzero h
    · omega

/-- The last byte tells how many bytes there are to be taken away. -/
theorem unpad_eq_ok_iff : unpad text = .ok plain ↔ Extends plain text := by
  refine ⟨?_, Extends.unpad⟩
  intro h
  simp only [unpad] at h
  split at h
  · cases h
  · rename_i hcount
    split at h
    · rename_i hfiller
      cases h
      have hsize : (text.getLastD 0).toNat ≤ blockSize ∧ (text.getLastD 0).toNat ≤ text.length := by
        omega
      have hpos : (text.getLastD 0).toNat ≠ 0 :=
        fun h => hcount (.inl (UInt8.toNat_inj.mp h))
      refine ⟨(text.getLastD 0).toNat, by omega, hsize.1, ?_⟩
      have hdrop : text.drop (text.length - (text.getLastD 0).toNat) =
          List.replicate (text.getLastD 0).toNat (text.getLastD 0) := by
        refine List.eq_replicate_iff.mpr ⟨?_, fun b hb => ?_⟩
        · rw [List.length_drop]
          omega
        · exact eq_of_beq (List.all_eq_true.mp hfiller b hb)
      rw [UInt8.ofNat_toNat, ← hdrop, List.take_append_drop]
    · cases h

/-- Behind a text of whole blocks there is just one padding, the one that fills up the last block. -/
theorem extends_iff (hwhole : text.length % 16 = 0) : Extends plain text ↔ text = pad plain := by
  constructor
  · rintro ⟨count, hpos, hle, rfl⟩
    have hsize : blockSize = 16 := rfl
    have hcount : count = blockSize - plain.length % blockSize := by
      rw [List.length_append, List.length_replicate] at hwhole
      rw [hsize] at hle ⊢
      omega
    rw [pad, filler, ← hcount]
  · rintro rfl
    exact unpad_eq_ok_iff.mp (unpad_pad plain)

end Padding

namespace Md5

/-- As many low bytes of a number as are wanted depend on nothing above them. -/
theorem littleEndian_congr {count m n : Nat} (h : m % Nat.pow 256 count = n % Nat.pow 256 count) :
    littleEndian count m = littleEndian count n := by
  induction count generalizing m n with
  | zero => rfl
  | succ count ih =>
    have hpow : Nat.pow 256 (count + 1) = 256 * Nat.pow 256 count := Nat.mul_comm ..
    rw [hpow] at h
    have hlow : m % 256 = n % 256 := by
      rw [← Nat.mod_mul_right_mod m, ← Nat.mod_mul_right_mod n, h]
    have hhigh : m / 256 % Nat.pow 256 count = n / 256 % Nat.pow 256 count := by
      rw [← Nat.mod_mul_right_div_self, ← Nat.mod_mul_right_div_self, h]
    have hbyte : UInt8.ofNat m = UInt8.ofNat n := by
      apply UInt8.toNat_inj.mp
      rw [UInt8.toNat_ofNat', UInt8.toNat_ofNat']
      exact hlow
    rw [littleEndian, littleEndian, hbyte, ih hhigh]

end Md5

namespace StringCipher
variable {algorithm : Algorithm} {key objectKey data plain : Bytes} {ref ref' : Ref}

/-- The text that the blocks after the first are deciphered to, with its padding. -/
def padded (objectKey data : Bytes) : Bytes :=
  match Aes.blocks data with
  | [] => []
  | start :: text => Aes.bytes (Aes.decipherChain (Aes.schedule objectKey) start text)

/-- The text of whole blocks is enciphered again as it was. -/
theorem eq_encryptAes (hlong : 16 ≤ data.length) (hwhole : data.length % 16 = 0)
    (h : padded objectKey data = Padding.pad plain) :
    ∃ start, data = encryptAes objectKey start plain := by
  obtain ⟨start, text, hblocks⟩ := Aes.exists_block hlong hwhole
  simp only [padded, hblocks] at h
  refine ⟨start, ?_⟩
  rw [encryptAes, ← h, Aes.blocks_bytes, Aes.encipherChain_decipherChain, ← hblocks,
    Aes.bytes_blocks hwhole]

theorem decryptAes_eq_ok_iff : decryptAes objectKey data = .ok plain ↔
    32 ≤ data.length ∧ data.length % 16 = 0 ∧ Aes.isKeyLength objectKey.length = true ∧
    Padding.Extends plain (padded objectKey data) := by
  by_cases hragged : data.length < 32 ∨ data.length % 16 ≠ 0
  · rw [decryptAes, if_pos hragged]
    constructor
    · intro h
      cases h
    · intro h
      omega
  · have hwhole : data.length % 16 = 0 := by omega
    obtain ⟨start, text, hblocks⟩ := Aes.exists_block (by omega) hwhole
    cases hkey : Aes.isKeyLength objectKey.length with
    | false =>
      rw [decryptAes, if_neg hragged, if_pos (by rw [hkey]; rfl)]
      constructor
      · intro h
        cases h
      · rintro ⟨-, -, h, -⟩
        cases h
    | true =>
      rw [decryptAes_eq hkey (by omega) hwhole hblocks]
      simp only [padded, hblocks, ← Padding.unpad_eq_ok_iff]
      cases Padding.unpad (Aes.bytes (Aes.decipherChain (Aes.schedule objectKey) start text)) with
      | error fault =>
        constructor
        · intro h
          cases h
        · rintro ⟨-, -, -, h⟩
          cases h
      | ok kept =>
        constructor
        · intro h
          cases h
          exact ⟨by omega, hwhole, trivial, rfl⟩
        · rintro ⟨-, -, -, h⟩
          cases h
          rfl

theorem decryptAes_eq_ok_iff_encryptAes (hkey : objectKey.length = 16) :
    decryptAes objectKey data = .ok plain ↔ ∃ start, data = encryptAes objectKey start plain := by
  constructor
  · intro h
    obtain ⟨hlong, hwhole, -, hextends⟩ := decryptAes_eq_ok_iff.mp h
    have hpadded : (padded objectKey data).length % 16 = 0 := by
      obtain ⟨start, text, hblocks⟩ := Aes.exists_block (by omega) hwhole
      simp only [padded, hblocks, Aes.length_bytes]
      omega
    exact eq_encryptAes (by omega) hwhole ((Padding.extends_iff hpadded).mp hextends)
  · rintro ⟨start, rfl⟩
    exact decryptAes_encryptAes hkey start plain

/-- Neither the block that begins the chain nor the text can be changed without changing the string. -/
theorem encryptAes_injective (hkey : objectKey.length = 16) :
    Function.Injective2 (encryptAes objectKey) := by
  intro start start' plain plain' h
  constructor
  · have hblocks := congrArg Aes.blocks h
    simp only [encryptAes, Aes.blocks_bytes, List.cons.injEq] at hblocks
    exact hblocks.1
  · have hplain := decryptAes_encryptAes hkey start plain
    rw [h, decryptAes_encryptAes hkey start' plain'] at hplain
    exact (Except.ok.inj hplain).symm

theorem objectKey_congr (h : ref.IsSmall) (h' : ref'.IsSmall)
    (hid : ref'.id % 0x1000000 = ref.id % 0x1000000) (hgen : ref'.gen = ref.gen) :
    StringCipher.objectKey algorithm key ref' = StringCipher.objectKey algorithm key ref := by
  have hlow : Md5.littleEndian 3 ref'.id.toNat = Md5.littleEndian 3 ref.id.toNat := by
    apply Md5.littleEndian_congr
    have := h.id_nonneg
    have := h'.id_nonneg
    change ref'.id.toNat % 0x1000000 = ref.id.toNat % 0x1000000
    omega
  have hrefBytes : refBytes ref' = refBytes ref := by
    rw [refBytes, refBytes, hlow, hgen]
  have hlimits : 0 ≤ ref.id ∧ ref.id < Ref.idLimit ∧ 0 ≤ ref.gen ∧ ref.gen < Ref.genLimit :=
    ⟨h.id_nonneg, h.id_lt, h.gen_nonneg, h.gen_lt⟩
  have hlimits' : 0 ≤ ref'.id ∧ ref'.id < Ref.idLimit ∧ 0 ≤ ref'.gen ∧ ref'.gen < Ref.genLimit :=
    ⟨h'.id_nonneg, h'.id_lt, h'.gen_nonneg, h'.gen_lt⟩
  rw [StringCipher.objectKey, StringCipher.objectKey, if_pos hlimits, if_pos hlimits', hrefBytes]

/-- A key for AES has sixteen bytes, which it gets from any key that is not too short. -/
theorem isKeyLength_objectKey (h : StringCipher.objectKey algorithm key ref = .ok objectKey) :
    Aes.isKeyLength objectKey.length = true ↔ 11 ≤ key.length := by
  rw [length_of_objectKey h]
  simp only [Aes.isKeyLength, Bool.or_eq_true, beq_iff_eq]
  omega

end StringCipher

namespace Request
open StringCipher (encryptAes padded)

/-- A request succeeds where the decipherment does. -/
theorem decrypt_eq_ok_iff {request : Request} {plain : Bytes} : request.decrypt = .ok plain ↔
    StringCipher.decrypt request.algorithm request.key request.ref request.data = .ok plain := by
  unfold decrypt
  cases StringCipher.decrypt request.algorithm request.key request.ref request.data with
  | error fault => exact ⟨nofun, nofun⟩
  | ok text => exact ⟨fun h => by cases h; rfl, fun h => by cases h; rfl⟩

theorem decrypt_rc4 (key : Bytes) {ref : Ref} (h : ref.IsSmall) : ∃ objectKey : Bytes,
    ∀ data, decrypt ⟨key, .rc4, ref, data⟩ = .ok (Rc4.cipher objectKey data) := by
  obtain ⟨objectKey, hkey⟩ := StringCipher.exists_objectKey .rc4 key h
  have hlength := StringCipher.length_of_objectKey hkey
  have hvalid : Rc4.isKeyLength objectKey.length = true := decide_eq_true (by omega)
  refine ⟨objectKey, fun data => decrypt_eq_ok_iff.mpr ?_⟩
  change (StringCipher.objectKey .rc4 key ref >>= fun key => StringCipher.decryptRc4 key data) = _
  rw [hkey]
  exact if_pos hvalid

section Aes
variable {key : Bytes} {ref : Ref} {objectKey data plain : Bytes}
variable (hkey : StringCipher.objectKey .aes key ref = .ok objectKey)
include hkey

theorem decrypt_aes_eq_ok_iff : decrypt ⟨key, .aes, ref, data⟩ = .ok plain ↔
    StringCipher.decryptAes objectKey data = .ok plain := by
  rw [decrypt_eq_ok_iff, StringCipher.decrypt, hkey]
  rfl

theorem decrypt_aes_eq_ok_iff_extends : decrypt ⟨key, .aes, ref, data⟩ = .ok plain ↔
    32 ≤ data.length ∧ data.length % 16 = 0 ∧ 11 ≤ key.length ∧
      Padding.Extends plain (padded objectKey data) := by
  rw [decrypt_aes_eq_ok_iff hkey, StringCipher.decryptAes_eq_ok_iff,
    StringCipher.isKeyLength_objectKey hkey]

/-- A request is accepted or fails, so it fails where it is not accepted. -/
theorem decrypt_aes_error_iff : (∃ e, decrypt ⟨key, .aes, ref, data⟩ = .error e) ↔
    data.length < 32 ∨ data.length % 16 ≠ 0 ∨ key.length < 11 ∨
      ¬ ∃ plain, Padding.Extends plain (padded objectKey data) := by
  constructor
  · rintro ⟨e, herror⟩
    by_contra! hgood
    obtain ⟨hlong, hwhole, hlongKey, plain, hextends⟩ := hgood
    have haccepted := (decrypt_aes_eq_ok_iff_extends hkey).mpr ⟨hlong, hwhole, hlongKey, hextends⟩
    rw [haccepted] at herror
    cases herror
  · intro hbad
    cases hdecrypt : decrypt ⟨key, .aes, ref, data⟩ with
    | error e => exact ⟨e, rfl⟩
    | ok plain =>
      obtain ⟨hlong, hwhole, hlongKey, hextends⟩ := (decrypt_aes_eq_ok_iff_extends hkey).mp hdecrypt
      rcases hbad with hshort | hragged | hshortKey | hnone
      · omega
      · exact absurd hwhole hragged
      · omega
      · exact absurd ⟨plain, hextends⟩ hnone

end Aes

/-- A request for an object with a number as in a file. RC4 deciphers every string, into one that is as
long and that is deciphered to the first. AES fails for a string that is no chain of blocks with a first
one, for a key that is too short, and for a text without padding; what it accepts is what is enciphered
with the key of the object, each string from one text only. Every failure lies in the input, and of the
object number only the three low bytes count. -/
theorem decrypt_accepts (key : Bytes) (ref : Ref) (data : Bytes) (hsmall : ref.IsSmall) :
    (∃ text, decrypt ⟨key, .rc4, ref, data⟩ = .ok text ∧ text.length = data.length ∧
      decrypt ⟨key, .rc4, ref, text⟩ = .ok data) ∧
    (∃ objectKey, StringCipher.objectKey .aes key ref = .ok objectKey ∧
      ((∃ e, decrypt ⟨key, .aes, ref, data⟩ = .error e ∧ e.kind = .input) ↔
        data.length < 32 ∨ data.length % 16 ≠ 0 ∨ key.length < 11 ∨
          ¬ ∃ plain, Padding.Extends plain (padded objectKey data)) ∧
      (∀ plain, decrypt ⟨key, .aes, ref, data⟩ = .ok plain →
        Padding.Extends plain (padded objectKey data)) ∧
      (11 ≤ key.length → Function.Injective2 (encryptAes objectKey) ∧
        ∀ plain, decrypt ⟨key, .aes, ref, data⟩ = .ok plain ↔
          ∃ start, data = encryptAes objectKey start plain)) ∧
    (∀ algorithm e, decrypt ⟨key, algorithm, ref, data⟩ = .error e → e.kind = .input) ∧
    ∀ algorithm (ref' : Ref), ref'.IsSmall → ref'.id % 0x1000000 = ref.id % 0x1000000 →
      ref'.gen = ref.gen →
        decrypt ⟨key, algorithm, ref', data⟩ = decrypt ⟨key, algorithm, ref, data⟩ := by
  have hkind : ∀ algorithm e, decrypt ⟨key, algorithm, ref, data⟩ = .error e → e.kind = .input :=
    fun _ _ h => decrypt_answers.kind_of_isSmall hsmall h
  refine ⟨?_, ?_, hkind, ?_⟩
  · obtain ⟨objectKey, hdecrypt⟩ := decrypt_rc4 key hsmall
    refine ⟨_, hdecrypt data, Rc4.length_cipher .., ?_⟩
    rw [hdecrypt, Rc4.cipher_cipher]
  · obtain ⟨objectKey, hkey⟩ := StringCipher.exists_objectKey .aes key hsmall
    refine ⟨objectKey, hkey, ?_, ?_, ?_⟩
    · rw [← decrypt_aes_error_iff hkey]
      exact exists_congr fun e => and_iff_left_of_imp (hkind .aes e)
    · intro plain h
      exact ((decrypt_aes_eq_ok_iff_extends hkey).mp h).2.2.2
    · intro hlongKey
      have hlength : objectKey.length = 16 := by
        rw [StringCipher.length_of_objectKey hkey]
        omega
      refine ⟨StringCipher.encryptAes_injective hlength, fun plain => ?_⟩
      rw [decrypt_aes_eq_ok_iff hkey, StringCipher.decryptAes_eq_ok_iff_encryptAes hlength]
  · intro algorithm ref' hsmall' hid hgen
    simp only [decrypt, StringCipher.decrypt, StringCipher.objectKey_congr hsmall hsmall' hid hgen]

/-- A text of no bytes that is enciphered for an object, and a string that is too short for two blocks.
The object and another with the same low bytes of its number have the first deciphered alike. -/
theorem decrypt_accepts_of_empty :
    let key : Bytes := List.replicate 11 0x20
    let start : Aes.Block := ⟨⟨0, 0, 0, 0⟩, ⟨0, 0, 0, 0⟩, ⟨0, 0, 0, 0⟩, ⟨0, 0, 0, 0⟩⟩
    Ref.IsSmall ⟨5, 0⟩ ∧ ∃ objectKey, StringCipher.objectKey .aes key ⟨5, 0⟩ = .ok objectKey ∧
      decrypt ⟨key, .aes, ⟨5, 0⟩, encryptAes objectKey start []⟩ = .ok [] ∧
      decrypt ⟨key, .aes, ⟨0x1000005, 0⟩, encryptAes objectKey start []⟩ = .ok [] ∧
      ∃ e, decrypt ⟨key, .aes, ⟨5, 0⟩, List.replicate 31 0⟩ = .error e ∧ e.kind = .input := by
  intro key start
  have hsmall : Ref.IsSmall ⟨5, 0⟩ := ⟨by decide, by decide, by decide, by decide⟩
  have hsmall' : Ref.IsSmall ⟨0x1000005, 0⟩ := ⟨by decide, by decide, by decide, by decide⟩
  obtain ⟨objectKey, hkey⟩ := StringCipher.exists_objectKey .aes key hsmall
  obtain ⟨-, ⟨k, hk, -, -, haes⟩, -, hlow⟩ :=
    decrypt_accepts key ⟨5, 0⟩ (encryptAes objectKey start []) hsmall
  obtain rfl : k = objectKey := Except.ok.inj (hk.symm.trans hkey)
  have hempty := ((haes (by decide)).2 []).mpr ⟨start, rfl⟩
  obtain ⟨-, ⟨_, -, hfails, -⟩, -⟩ := decrypt_accepts key ⟨5, 0⟩ (List.replicate 31 0) hsmall
  exact ⟨hsmall, k, hkey, hempty, (hlow .aes _ hsmall' rfl rfl).trans hempty,
    hfails.mpr (.inl (by decide))⟩

end Request
end PdfSyntax
