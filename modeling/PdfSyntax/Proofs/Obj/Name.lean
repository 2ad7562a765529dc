import Mathlib.Data.List.Basic
import PdfSyntax.Proofs.Lexer.Written
import PdfSyntax.Proofs.Obj.Rendering

/-!
# Names that are written alike

After a number sign a character up to U+00FF has two digits, and one above has as many as it takes.
Nothing tells where these digits end, so the last of them may as well be a character of its own, if what
is left of the number is the number of a character that needs a number sign too. `respell` takes digits
off as long as it can. Two names are written alike just if they are respelled alike; names with no
character above U+00FF are written alike only if they are equal.
-/

set_option autoImplicit false

namespace PdfSyntax.Name

open Latin1 (ascii ofAscii)

/-- The digit that a number below sixteen is written with. -/
def hexDigit (d : Nat) : Char :=
  d.digitChar.toUpper

/-- The characters that are written like the one with a number, as long as no digit can be taken off the
first of them. -/
def respellNumber (n : Nat) : List Char :=
  if n < 256 ∨ isPlain (Char.ofNat (n / 16)) then [Char.ofNat n]
  else respellNumber (n / 16) ++ [hexDigit (n % 16)]
termination_by n
decreasing_by omega

def respell (name : String) : List Char :=
  name.toList.flatMap fun c => respellNumber c.toNat

/-- Whether no digit can be taken off the number of a character. -/
def IsShort (c : Char) : Prop :=
  c.toNat < 256 ∨ isPlain (Char.ofNat (c.toNat / 16))

section Digits
variable {m n : Nat}

theorem hexDigit_spec {d : Nat} (h : d < 16) : isPlain (hexDigit d) = true ∧ (hexDigit d).toNat < 256 :=
  (by decide +kernel : ∀ d : Fin 16, isPlain (hexDigit d) = true ∧ (hexDigit d).toNat < 256) ⟨d, h⟩

theorem hexDigit_inj {d e : Nat} (hd : d < 16) (he : e < 16) (h : hexDigit d = hexDigit e) : d = e :=
  (by decide +kernel : ∀ d e : Fin 16, hexDigit d = hexDigit e → d.val = e.val) ⟨d, hd⟩ ⟨e, he⟩ h

theorem upperHex_of_lt (h : n < 256) :
    Numeral.upperHex 2 n = [hexDigit (n / 16), hexDigit (n % 16)] := by
  by_cases hn : n < 16
  · have hzero : hexDigit 0 = '0' := by decide
    simp [Numeral.upperHex, Numeral.natural, Numeral.pad, Nat.toDigits_of_lt_base hn,
      Nat.div_eq_of_lt hn, Nat.mod_eq_of_lt hn, hzero]
    rfl
  · have hdigits : Nat.toDigits 16 n = [(n / 16).digitChar, (n % 16).digitChar] := by
      rw [Nat.toDigits_of_base_le (by decide) (Nat.le_of_not_lt hn),
        Nat.toDigits_of_lt_base (show n / 16 < 16 by omega)]
      rfl
    simp [Numeral.upperHex, Numeral.natural, Numeral.pad, hdigits, hexDigit]

theorem upperHex_of_le (h : 256 ≤ n) :
    Numeral.upperHex 2 n = Numeral.upperHex 2 (n / 16) ++ [hexDigit (n % 16)] := by
  have hlength : 2 ≤ (Nat.toDigits 16 (n / 16)).length := by
    rw [Nat.toDigits_of_base_le (b := 16) (by decide) (by omega), List.length_append]
    have := Nat.length_toDigits_pos (b := 16) (n := n / 16 / 16)
    simp only [List.length_cons, List.length_nil]
    omega
  have hnone : 2 - (Nat.toDigits 16 (n / 16)).length = 0 := by omega
  have hnone' : 2 - ((Nat.toDigits 16 (n / 16)).length + 1) = 0 := by omega
  simp [Numeral.upperHex, Numeral.natural, Numeral.pad,
    Nat.toDigits_of_base_le (b := 16) (by decide) (show 16 ≤ n by omega), hnone, hnone', hexDigit]

theorem length_upperHex_of_lt (h : n < 256) : (Numeral.upperHex 2 n).length = 2 := by
  rw [upperHex_of_lt h]
  rfl

theorem upperHex_inj_of_lt (hm : m < 256) (hn : n < 256)
    (h : Numeral.upperHex 2 m = Numeral.upperHex 2 n) : m = n := by
  rw [upperHex_of_lt hm, upperHex_of_lt hn, List.cons.injEq, List.cons.injEq] at h
  have hdiv := hexDigit_inj (by omega) (by omega) h.1
  have hmod := hexDigit_inj (by omega) (by omega) h.2.1
  omega

theorem lt_of_mem_upperHex {d : Char} (h : d ∈ Numeral.upperHex 2 n) : d.toNat < 256 := by
  induction n using Nat.strongRecOn with
  | _ n ih =>
    rcases Nat.lt_or_ge n 256 with hn | hn
    · rw [upperHex_of_lt hn, List.mem_cons, List.mem_singleton] at h
      rcases h with rfl | rfl
      · exact (hexDigit_spec (by omega)).2
      · exact (hexDigit_spec (by omega)).2
    · rw [upperHex_of_le hn, List.mem_append, List.mem_singleton] at h
      rcases h with h | rfl
      · exact ih (n / 16) (by omega) h
      · exact (hexDigit_spec (by omega)).2

end Digits

section Characters
variable {c : Char}

theorem lt_of_isPlain (h : isPlain c = true) : c.toNat < 127 := by
  simp only [isPlain, Bool.and_eq_true, decide_eq_true_eq] at h
  have hle : c.toNat ≤ '~'.toNat := h.1.2
  exact Nat.lt_succ_of_le hle

theorem toNat_ofNat {n : Nat} (h : n.isValidChar) : (Char.ofNat n).toNat = n := by
  rw [Char.ofNat, dif_pos h]
  rfl

theorem toNat_ofNat_of_lt {n : Nat} (h : n < 0xd800) : (Char.ofNat n).toNat = n :=
  toNat_ofNat (Or.inl h)

/-- A number that is none of a character stands for NUL, which is not plain. -/
theorem lt_of_isPlain_ofNat {n : Nat} (h : isPlain (Char.ofNat n) = true) : n < 127 := by
  by_cases hvalid : n.isValidChar
  · rw [← toNat_ofNat hvalid]
    exact lt_of_isPlain h
  · rw [Char.ofNat, dif_neg hvalid] at h
    exact absurd h (by decide)

end Characters

section Respelling
variable {n : Nat} {c d : Char}

theorem lt_of_short (h : n < 256 ∨ isPlain (Char.ofNat (n / 16)) = true) : n < 0xd800 := by
  rcases h with h | h
  · omega
  · have := lt_of_isPlain_ofNat h
    omega

theorem encodeChar_of_plain (h : isPlain c = true) : encodeChar c = [c] :=
  if_pos h

/-- A digit that is taken off a number is written as it was. -/
theorem flatMap_respellNumber (h : ¬ isPlain (Char.ofNat n) = true) :
    (respellNumber n).flatMap encodeChar = '#' :: Numeral.upperHex 2 n := by
  induction n using Nat.strongRecOn with
  | _ n ih =>
    rw [respellNumber]
    split
    · next hshort =>
      rw [List.flatMap_singleton, encodeChar, if_neg h, toNat_ofNat_of_lt (lt_of_short hshort)]
    · next hlong =>
      rw [not_or] at hlong
      have hdigit := (hexDigit_spec (show n % 16 < 16 by omega)).1
      rw [List.flatMap_append, ih (n / 16) (by omega) hlong.2, List.flatMap_singleton,
        encodeChar_of_plain hdigit, upperHex_of_le (Nat.le_of_not_lt hlong.1), List.cons_append]

theorem flatMap_respell_char (c : Char) : (respellNumber c.toNat).flatMap encodeChar = encodeChar c := by
  by_cases h : isPlain c = true
  · have hlt := lt_of_isPlain h
    rw [respellNumber, if_pos (Or.inl (by omega)), Char.ofNat_toNat, List.flatMap_singleton]
  · have hofNat : ¬ isPlain (Char.ofNat c.toNat) = true := by rwa [Char.ofNat_toNat]
    rw [flatMap_respellNumber hofNat, encodeChar, if_neg h]

/-- A name is written like the characters that it is respelled with. -/
theorem flatMap_respell (name : String) :
    (respell name).flatMap encodeChar = name.toList.flatMap encodeChar := by
  simp only [respell, List.flatMap_assoc, flatMap_respell_char]

theorem isShort_of_mem_respellNumber (h : c ∈ respellNumber n) : IsShort c := by
  induction n using Nat.strongRecOn with
  | _ n ih =>
    rw [respellNumber] at h
    split at h
    · next hshort =>
      rw [List.mem_singleton] at h
      rw [h, IsShort, toNat_ofNat_of_lt (lt_of_short hshort)]
      exact hshort
    · next hlong =>
      rw [not_or] at hlong
      rcases List.mem_append.mp h with h | h
      · exact ih (n / 16) (by omega) h
      · rw [List.mem_singleton] at h
        rw [h]
        exact .inl (hexDigit_spec (Nat.mod_lt n (by decide))).2

theorem respell_of_isLatin {name : String} (h : IsLatin name) : respell name = name.toList := by
  have hchar : ∀ c ∈ name.toList, respellNumber c.toNat = [c] := by
    intro c hc
    rw [respellNumber, if_pos (Or.inl (h c hc)), Char.ofNat_toNat]
  rw [respell, List.flatMap_congr hchar, List.flatMap_singleton']

end Respelling

section Short
variable {c d : Char} {cs ds : List Char}

/-- A short character that has a number sign has two digits, or three of which the first two are the
number of a plain character. -/
theorem IsShort.encodeChar_cases (h : IsShort c) (hc : ¬ isPlain c = true) :
    (c.toNat < 256 ∧ encodeChar c = '#' :: Numeral.upperHex 2 c.toNat) ∨
      ∃ n digit, n < 256 ∧ isPlain (Char.ofNat n) = true ∧ digit < 16 ∧ c.toNat = 16 * n + digit ∧
        encodeChar c = '#' :: (Numeral.upperHex 2 n ++ [hexDigit digit]) := by
  rw [encodeChar, if_neg hc]
  by_cases hlt : c.toNat < 256
  · exact .inl ⟨hlt, rfl⟩
  · have hplain := h.resolve_left hlt
    have hsmall := lt_of_isPlain_ofNat hplain
    exact .inr ⟨c.toNat / 16, c.toNat % 16, by omega, hplain, by omega, by omega,
      by rw [upperHex_of_le (by omega)]⟩

/-- Two digits are not the beginning of three, since the first two of three stand for a plain character. -/
theorem not_isPlain_of_two_digits {n : Nat} {digit : Char} (hn : n < 256) (hlt : c.toNat < 256)
    (h : Numeral.upperHex 2 c.toNat ++ cs = (Numeral.upperHex 2 n ++ [digit]) ++ ds)
    (hc : ¬ isPlain c = true) : ¬ isPlain (Char.ofNat n) = true := by
  rw [List.append_assoc] at h
  have hlength : (Numeral.upperHex 2 c.toNat).length = (Numeral.upperHex 2 n).length := by
    rw [length_upperHex_of_lt hlt, length_upperHex_of_lt hn]
  have heq := upperHex_inj_of_lt hlt hn (List.append_inj_left h hlength)
  rwa [← heq, Char.ofNat_toNat]

/-- Of short characters the first one can be told from what is written. -/
theorem head_eq_of_encodeChar_append (hc : IsShort c) (hd : IsShort d)
    (h : encodeChar c ++ cs = encodeChar d ++ ds) : c = d := by
  have hhash : isPlain '#' = false := by decide
  by_cases hcplain : isPlain c = true
  · rw [encodeChar_of_plain hcplain] at h
    by_cases hdplain : isPlain d = true
    · rw [encodeChar_of_plain hdplain] at h
      exact (List.cons.inj h).1
    · rw [encodeChar, if_neg hdplain] at h
      rw [(List.cons.inj h).1, hhash] at hcplain
      cases hcplain
  · by_cases hdplain : isPlain d = true
    · rw [encodeChar_of_plain hdplain, encodeChar, if_neg hcplain] at h
      rw [← (List.cons.inj h).1, hhash] at hdplain
      cases hdplain
    · rcases hc.encodeChar_cases hcplain with ⟨hclt, hcs⟩ | ⟨m, digit, hm, hmplain, hdigit, hcnat, hcs⟩
      all_goals
        rcases hd.encodeChar_cases hdplain with ⟨hdlt, hds⟩ | ⟨n, digit', hn, hnplain, hdigit', hdnat, hds⟩
        all_goals
          rw [hcs, hds] at h
          have h := (List.cons.inj h).2
      · have hlength : (Numeral.upperHex 2 c.toNat).length = (Numeral.upperHex 2 d.toNat).length := by
          rw [length_upperHex_of_lt hclt, length_upperHex_of_lt hdlt]
        exact Char.toNat_inj.mp (upperHex_inj_of_lt hclt hdlt (List.append_inj_left h hlength))
      · exact absurd hnplain (not_isPlain_of_two_digits hn hclt h hcplain)
      · exact absurd hmplain (not_isPlain_of_two_digits hm hdlt h.symm hdplain)
      · have hlength : (Numeral.upperHex 2 m).length = (Numeral.upperHex 2 n).length := by
          rw [length_upperHex_of_lt hm, length_upperHex_of_lt hn]
        have h : Numeral.upperHex 2 m ++ [hexDigit digit] ++ cs =
          Numeral.upperHex 2 n ++ [hexDigit digit'] ++ ds := h
        rw [List.append_assoc, List.append_assoc] at h
        have heq := upperHex_inj_of_lt hm hn (List.append_inj_left h hlength)
        have hlast := (List.cons.inj (List.append_inj_right h hlength)).1
        have hdigits := hexDigit_inj hdigit hdigit' hlast
        exact Char.toNat_inj.mp (by omega)

/-- By induction on the characters: the first one can be told, and is taken off here and there. -/
theorem eq_of_flatMap_encodeChar (hcs : ∀ c ∈ cs, IsShort c) (hds : ∀ d ∈ ds, IsShort d)
    (h : cs.flatMap encodeChar = ds.flatMap encodeChar) : cs = ds := by
  have hne : ∀ c, encodeChar c ≠ [] := by
    intro c
    unfold encodeChar
    split <;> simp
  induction cs generalizing ds with
  | nil =>
    cases ds with
    | nil => rfl
    | cons d ds =>
      rw [List.flatMap_nil, List.flatMap_cons] at h
      exact absurd (List.append_eq_nil_iff.mp h.symm).1 (hne d)
  | cons c cs ih =>
    cases ds with
    | nil =>
      rw [List.flatMap_nil, List.flatMap_cons] at h
      exact absurd (List.append_eq_nil_iff.mp h).1 (hne c)
    | cons d ds =>
      rw [List.flatMap_cons, List.flatMap_cons] at h
      obtain rfl := head_eq_of_encodeChar_append (hcs c List.mem_cons_self) (hds d List.mem_cons_self) h
      rw [ih (fun c hc => hcs c (List.mem_cons_of_mem _ hc))
        (fun d hd => hds d (List.mem_cons_of_mem _ hd)) (List.append_cancel_left h)]

end Short

section Written
variable {a b : String}

theorem lt_of_mem_encodeChar {c d : Char} (h : d ∈ encodeChar c) : d.toNat < 256 := by
  unfold encodeChar at h
  split at h
  · next hplain =>
    rw [List.mem_singleton.mp h]
    have := lt_of_isPlain hplain
    omega
  · rcases List.mem_cons.mp h with rfl | h
    · decide
    · exact lt_of_mem_upperHex h

/-- What is written of a name is ASCII, so it is told by its bytes. -/
theorem ascii_encode_inj : ascii (encode a) = ascii (encode b) ↔ encode a = encode b := by
  have hlt : ∀ name : String, ∀ c ∈ '/' :: name.toList.flatMap encodeChar, c.toNat < 256 := by
    intro name c hc
    rcases List.mem_cons.mp hc with rfl | hc
    · decide
    · obtain ⟨d, -, hc⟩ := List.mem_flatMap.mp hc
      exact lt_of_mem_encodeChar hc
  constructor
  · intro h
    rw [encode, encode, Latin1.ascii_ofList, Latin1.ascii_ofList] at h
    rw [encode, encode, ← Latin1.map_char_map_ofAscii (hlt a), h, Latin1.map_char_map_ofAscii (hlt b)]
  · exact fun h => by rw [h]

theorem encode_eq_iff : encode a = encode b ↔ respell a = respell b := by
  have hencode : encode a = encode b ↔ a.toList.flatMap encodeChar = b.toList.flatMap encodeChar := by
    rw [encode, encode, String.ofList_inj, List.cons.injEq, and_iff_right rfl]
  rw [hencode, ← flatMap_respell a, ← flatMap_respell b]
  constructor
  · intro h
    refine eq_of_flatMap_encodeChar ?_ ?_ h
    all_goals
      intro c hc
      obtain ⟨_, -, hc⟩ := List.mem_flatMap.mp hc
      exact isShort_of_mem_respellNumber hc
  · exact fun h => by rw [h]

end Written

/-- Two names are written alike just if they are respelled alike. A name with no character above U+00FF is
respelled as it is, so two different ones are written differently; but a name with such a character may
be written like what it is respelled with. -/
theorem written_alike_iff (a b : String) :
    (encode a = encode b ↔ respell a = respell b) ∧
    ((Obj.name a).format = (Obj.name b).format ↔ respell a = respell b) ∧
    encode (String.ofList (respell a)) = encode a ∧
    (IsLatin a → IsLatin b → (Obj.name a).format = (Obj.name b).format → a = b) := by
  have hformat : (Obj.name a).format = (Obj.name b).format ↔ respell a = respell b := by
    rw [Obj.format, Obj.format, Except.ok.injEq, ascii_encode_inj, encode_eq_iff]
  refine ⟨encode_eq_iff, hformat, ?_, fun ha hb h => ?_⟩
  · rw [encode, encode, String.toList_ofList, flatMap_respell]
  · have hrespell := hformat.mp h
    rw [respell_of_isLatin ha, respell_of_isLatin hb] at hrespell
    exact String.toList_inj.mp hrespell

/-- Names that differ in what is written with a number sign only. -/
theorem written_alike_iff_of_latin :
    IsLatin "a b" ∧ IsLatin "a#20b" ∧ (Obj.name "a b").format ≠ (Obj.name "a#20b").format := by
  have ha : IsLatin "a b" := by simp [IsLatin]
  have hb : IsLatin "a#20b" := by simp [IsLatin]
  obtain ⟨-, -, -, hinj⟩ := written_alike_iff "a b" "a#20b"
  exact ⟨ha, hb, fun h => absurd (hinj ha hb h) (by decide)⟩

/-- U+1234 has four digits, the last two of which may as well be characters of their own. -/
theorem written_alike_of_distinct :
    "\u1234" ≠ "\x1234" ∧ encode "\u1234" = encode "\x1234" ∧
      (Obj.name "\u1234").format = (Obj.name "\x1234").format ∧
      encode "\u1234" = "/#1234" := by
  have hencode : encode "\u1234" = encode "\x1234" := by decide +kernel
  refine ⟨by decide, hencode, ?_, by decide +kernel⟩
  rw [Obj.format, Obj.format, hencode]

end PdfSyntax.Name
