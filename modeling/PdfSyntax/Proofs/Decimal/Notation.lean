import Mathlib.Algebra.Field.Rat
import Mathlib.Data.List.TakeWhile
import Mathlib.Tactic.FieldSimp
import Mathlib.Tactic.Positivity
import PdfSyntax.Proofs.Decimal.ReadBack

/-!
# The numbers that numerals stand for

`Notation.number?` reads a numeral as a rational number: digits, maybe a point among them, maybe a sign in
front and an exponent behind. Both ways to write a decimal, with an exponent and without, stand for the
decimal, and so do the text of a real in a file and its text in a message.
-/

set_option autoImplicit false

namespace PdfSyntax

namespace Notation

def digits? (cs : List Char) : Option Nat :=
  if !cs.isEmpty && cs.all Char.isDigit then some (Nat.ofDigitChars 10 cs 0) else none

def signed? {α : Type} [Neg α] (read? : List Char → Option α) : List Char → Option α
  | [] => read? []
  | c :: cs =>
    if c = '-' then (read? cs).map fun value => -value
    else if c = '+' then read? cs
    else read? (c :: cs)

/-- Digits with at most one point, in front of them, among them or behind them. -/
def fixed? (cs : List Char) : Option ℚ :=
  match cs.dropWhile (· != '.') with
  | [] => (digits? cs).map fun (whole : Nat) => (whole : ℚ)
  | _ :: after =>
    (digits? (cs.takeWhile (· != '.') ++ after)).map fun (whole : Nat) => (whole : ℚ) / 10 ^ after.length

def unsigned? (cs : List Char) : Option ℚ :=
  match cs.dropWhile (· != 'e') with
  | [] => fixed? cs
  | _ :: power => do
    let number ← fixed? (cs.takeWhile (· != 'e'))
    let exponent ← signed? (fun cs => (digits? cs).map Int.ofNat) power
    return number * 10 ^ exponent

/-- The number that a numeral stands for. -/
def number? : List Char → Option ℚ :=
  signed? unsigned?

section Reading
variable {before after cs : List Char}

theorem digits?_eq_some (hne : cs ≠ []) (h : ∀ c ∈ cs, c.isDigit = true) :
    digits? cs = some (Nat.ofDigitChars 10 cs 0) :=
  if_pos (by simpa [hne] using h)

theorem signed?_of_isDigit {α : Type} [Neg α] (read? : List Char → Option α) (hne : cs ≠ [])
    (h : ∀ c ∈ cs, c.isDigit = true) (rest : List Char) :
    signed? read? (cs ++ rest) = read? (cs ++ rest) := by
  cases cs with
  | nil => exact absurd rfl hne
  | cons c cs =>
    have hdigit := h c (List.mem_cons_self ..)
    have hminus : c ≠ '-' := fun hc => absurd (hc ▸ hdigit) (by decide)
    have hplus : c ≠ '+' := fun hc => absurd (hc ▸ hdigit) (by decide)
    rw [List.cons_append, signed?, if_neg hminus, if_neg hplus]

theorem ne_of_isDigit {c mark : Char} (h : c.isDigit = true) (hmark : mark.isDigit = false) :
    c ≠ mark := by
  rintro rfl
  rw [h] at hmark
  cases hmark

/-- A mark that does not occur before is where the characters before it end. -/
theorem span_mark (mark : Char) (h : ∀ c ∈ before, c ≠ mark) (after : List Char) :
    (before ++ mark :: after).takeWhile (· != mark) = before ∧
      (before ++ mark :: after).dropWhile (· != mark) = mark :: after := by
  have hplain : ∀ c ∈ before, (c != mark) = true := fun c hc => bne_iff_ne.mpr (h c hc)
  rw [List.takeWhile_append_of_pos hplain, List.dropWhile_append_of_pos hplain]
  simp

theorem dropWhile_no_mark {mark : Char} (h : ∀ c ∈ cs, c ≠ mark) :
    cs.dropWhile (· != mark) = [] :=
  List.dropWhile_eq_nil_iff.mpr fun c hc => bne_iff_ne.mpr (h c hc)

theorem fixed?_digits (hne : cs ≠ []) (h : ∀ c ∈ cs, c.isDigit = true) :
    fixed? cs = some (Nat.ofDigitChars 10 cs 0 : ℚ) := by
  rw [fixed?, dropWhile_no_mark fun c hc => ne_of_isDigit (h c hc) rfl]
  dsimp only
  rw [digits?_eq_some hne h, Option.map_some]

theorem fixed?_point (hne : before ≠ []) (h : ∀ c ∈ before ++ after, c.isDigit = true) :
    fixed? (before ++ '.' :: after) =
      some ((Nat.ofDigitChars 10 (before ++ after) 0 : ℚ) / 10 ^ after.length) := by
  have hplain : ∀ c ∈ before, c ≠ '.' :=
    fun c hc => ne_of_isDigit (h c (List.mem_append_left after hc)) rfl
  obtain ⟨htake, hdrop⟩ := span_mark '.' hplain after
  rw [fixed?, hdrop, htake]
  dsimp only
  rw [digits?_eq_some (by simp [hne]) h, Option.map_some]

theorem unsigned?_fixed (h : ∀ c ∈ cs, c ≠ 'e') : unsigned? cs = fixed? cs := by
  rw [unsigned?, dropWhile_no_mark h]

theorem unsigned?_power {number : ℚ} {exponent : Int} {power : List Char} (h : ∀ c ∈ cs, c ≠ 'e')
    (hnumber : fixed? cs = some number)
    (hexponent : signed? (fun cs => (digits? cs).map Int.ofNat) power = some exponent) :
    unsigned? (cs ++ 'e' :: power) = some (number * 10 ^ exponent) := by
  obtain ⟨htake, hdrop⟩ := span_mark 'e' h power
  rw [unsigned?, hdrop, htake]
  dsimp only
  rw [hnumber, hexponent]
  rfl

theorem number?_minus (cs : List Char) : number? ('-' :: cs) = (unsigned? cs).map fun value => -value :=
  rfl

end Reading
end Notation

namespace Decimal
open Notation

/-- The number that a decimal is. -/
def value (d : Decimal) : ℚ :=
  d.coefficient * 10 ^ d.exponent

section Written
variable (d : Decimal)

theorem ten_zpow_eq_div (n : Int) : (10 : ℚ) ^ n = 10 ^ n.toNat / 10 ^ (-n).toNat := by
  rw [← zpow_natCast, ← zpow_natCast, ← zpow_sub₀ (by norm_num)]
  congr 1
  omega

variable {d} in
theorem Places.value_eq_div {before after : List Char} (h : d.Places before after) :
    (Nat.ofDigitChars 10 (before ++ after) 0 : ℚ) / 10 ^ after.length = d.value := by
  have hcast : (Nat.ofDigitChars 10 (before ++ after) 0 : ℚ) * 10 ^ (-d.exponent).toNat =
      d.coefficient * 10 ^ d.exponent.toNat * 10 ^ after.length := by
    exact_mod_cast h.value_eq
  rw [value, ten_zpow_eq_div, ← mul_div_assoc, div_eq_div_iff (by positivity) (by positivity)]
  exact hcast

/-- The last character is a digit, so that the point has a digit behind it. -/
theorem getLast_positional : ∃ c, d.positional.getLast? = some c ∧ c.isDigit = true := by
  have hafter : ∀ after : List Char, (∀ c ∈ after, c.isDigit = true) → ∀ before : List Char,
      ∃ c, (before ++ '.' :: (if after = [] then ['0'] else after)).getLast? = some c ∧
        c.isDigit = true := by
    intro after hdigit before
    split
    · exact ⟨'0', by simp, rfl⟩
    · rename_i hne
      refine ⟨after.getLast hne, ?_, hdigit _ (List.getLast_mem hne)⟩
      rw [List.getLast?_append_cons, List.getLast?_cons, List.getLast?_eq_getLast_of_ne_nil hne]
      rfl
  refine hafter _ (fun c hc => ?_) _
  rcases List.mem_append.mp hc with hc | hc
  · obtain ⟨-, rfl⟩ := List.mem_replicate.mp hc
    rfl
  · exact d.isDigit_of_mem_digits (List.mem_of_mem_drop hc)

theorem unsigned?_positional : unsigned? d.positional = some d.value := by
  obtain ⟨before, after, hpositional, hplaces⟩ := d.isPlaced
  have hplain : ∀ c ∈ before ++ '.' :: after, c ≠ 'e' := by
    intro c hc
    rcases List.mem_append.mp hc with hc | hc
    · exact ne_of_isDigit (hplaces.isDigit c (List.mem_append_left after hc)) rfl
    · rcases List.mem_cons.mp hc with rfl | hc
      · decide
      · exact ne_of_isDigit (hplaces.isDigit c (List.mem_append_right before hc)) rfl
  rw [hpositional, unsigned?_fixed hplain, fixed?_point hplaces.before_ne_nil hplaces.isDigit,
    hplaces.value_eq_div]

theorem exponent_exponentText (exponent : Int) :
    signed? (fun cs => (digits? cs).map Int.ofNat) (exponentText exponent) = some exponent := by
  have hdigits : digits? (Numeral.natural 10 2 exponent.natAbs) = some exponent.natAbs := by
    have hdigit : ∀ c ∈ Numeral.natural 10 2 exponent.natAbs, c.isDigit = true := by
      intro c hc
      rw [Numeral.natural, Numeral.pad, List.mem_append, List.mem_replicate] at hc
      rcases hc with ⟨-, rfl⟩ | hc
      · rfl
      · exact Nat.isDigit_of_mem_toDigits (by omega) (by omega) hc
    rw [digits?_eq_some (Numeral.natural_ne_nil 10 2 _) hdigit,
      Numeral.ofDigitChars_natural _ _ (by omega) (by omega)]
  by_cases hsign : exponent < 0
  · have hminus : exponentText exponent = '-' :: Numeral.natural 10 2 exponent.natAbs := by
      rw [exponentText, if_pos hsign]
    rw [hminus, signed?, if_pos rfl, hdigits]
    simp only [Option.map_some, Int.ofNat_eq_natCast, Option.some.injEq]
    omega
  · have hplus : exponentText exponent = '+' :: Numeral.natural 10 2 exponent.natAbs := by
      rw [exponentText, if_neg hsign]
    rw [hplus, signed?, if_neg (by decide), if_pos rfl, hdigits]
    simp only [Option.map_some, Int.ofNat_eq_natCast, Option.some.injEq]
    omega

/-- The digits behind the point of the scientific form, which is left out with them. -/
theorem fixed?_leading : fixed? (d.digits.take 1 ++
      (if d.digits.drop 1 = [] then [] else '.' :: d.digits.drop 1)) =
    some ((d.coefficient : ℚ) / 10 ^ (d.digits.length - 1)) := by
  have hall := List.take_append_drop 1 d.digits
  have hlength : (d.digits.drop 1).length = d.digits.length - 1 := List.length_drop
  by_cases hone : d.digits.drop 1 = []
  · have hdigits : d.digits.take 1 = d.digits := by rw [hone, List.append_nil] at hall; exact hall
    rw [if_pos hone, List.append_nil, hdigits,
      fixed?_digits d.digits_ne_nil fun c hc => d.isDigit_of_mem_digits hc, d.ofDigitChars_digits,
      ← hlength, hone, List.length_nil, pow_zero, div_one]
  · have hleading : d.digits.take 1 ≠ [] := by
      simp [List.take_eq_nil_iff, d.digits_ne_nil]
    rw [if_neg hone, fixed?_point hleading, hall, d.ofDigitChars_digits, hlength]
    rw [hall]
    exact fun c hc => d.isDigit_of_mem_digits hc

theorem unsigned?_scientific : unsigned? d.scientific = some d.value := by
  have hplain : ∀ c ∈ d.digits.take 1 ++
      (if d.digits.drop 1 = [] then [] else '.' :: d.digits.drop 1), c ≠ 'e' := by
    intro c hc
    have hcases : c ∈ d.digits ∨ c = '.' := by
      rcases List.mem_append.mp hc with hc | hc
      · exact .inl (List.mem_of_mem_take hc)
      · split at hc
        · cases hc
        · rcases List.mem_cons.mp hc with rfl | hc
          · exact .inr rfl
          · exact .inl (List.mem_of_mem_drop hc)
    rcases hcases with hc | rfl
    · exact ne_of_isDigit (d.isDigit_of_mem_digits hc) rfl
    · decide
  have hlength := List.length_pos_iff.mpr d.digits_ne_nil
  have hpoint : d.point - 1 = ((d.digits.length - 1 : Nat) : Int) + d.exponent := by
    simp only [point]
    omega
  rw [scientific, unsigned?_power hplain d.fixed?_leading (exponent_exponentText _), hpoint,
    zpow_add₀ (by norm_num), zpow_natCast, value]
  congr 1
  field_simp

/-- With an exponent or without, what is shown of a decimal stands for it. -/
theorem unsigned?_display : unsigned? d.display = some d.value := by
  rw [display]
  split
  · exact d.unsigned?_positional
  · exact d.unsigned?_scientific

/-- Either form starts with a digit. -/
theorem exists_digits_display : ∃ cs rest, d.display = cs ++ rest ∧ cs ≠ [] ∧
    ∀ c ∈ cs, c.isDigit = true := by
  rw [display]
  split
  · obtain ⟨before, after, hpositional, hplaces⟩ := d.isPlaced
    exact ⟨before, '.' :: after, hpositional, hplaces.before_ne_nil,
      fun c hc => hplaces.isDigit c (List.mem_append_left after hc)⟩
  · refine ⟨d.digits.take 1, _, List.append_assoc .., ?_, ?_⟩
    · simp [List.take_eq_nil_iff, d.digits_ne_nil]
    · exact fun c hc => d.isDigit_of_mem_digits (List.mem_of_mem_take hc)

end Written
end Decimal

namespace Binary64
open Notation
variable {x : Binary64}

/-- The number that the shortest decimal of a datum is, with its sign. -/
def shortestValue (x : Binary64) : ℚ :=
  if x.isNegative then -(Decimal.shortest x.rank).value else (Decimal.shortest x.rank).value

theorem number?_signText (x : Binary64) {cs rest : List Char} {value : ℚ} (hne : cs ≠ [])
    (h : ∀ c ∈ cs, c.isDigit = true) (hvalue : unsigned? (cs ++ rest) = some value) :
    number? (x.signText ++ (cs ++ rest)) = some (if x.isNegative then -value else value) := by
  rw [signText]
  cases x.isNegative with
  | true =>
    rw [if_pos rfl, if_pos rfl, List.singleton_append, number?_minus, hvalue, Option.map_some]
  | false =>
    rw [if_neg Bool.false_ne_true, if_neg Bool.false_ne_true, List.nil_append, number?,
      signed?_of_isDigit _ hne h, hvalue]

theorem number?_display (h : x.isFinite = true) :
    number? x.display.toList = some x.shortestValue := by
  have hnumber : x.isNaN = false := by
    have hrank := of_decide_eq_true h
    exact decide_eq_false (by omega)
  obtain ⟨cs, rest, hdisplay, hne, hdigit⟩ := (Decimal.shortest x.rank).exists_digits_display
  have hvalue := (Decimal.shortest x.rank).unsigned?_display
  rw [hdisplay] at hvalue
  rw [display, hnumber, if_neg Bool.false_ne_true, if_pos h, String.toList_ofList, hdisplay,
    x.number?_signText hne hdigit hvalue, shortestValue]

/-- What is written of a finite datum: its sign, digits on both sides of a point, and no exponent. -/
theorem exists_places (h : x.isFinite = true) : ∃ before after : List Char,
    before ≠ [] ∧ after ≠ [] ∧ (∀ c ∈ before ++ after, c.isDigit = true) ∧
      x.positional? = some (String.ofList (x.signText ++ (before ++ '.' :: after))) ∧
      number? (x.signText ++ (before ++ '.' :: after)) = some x.shortestValue := by
  obtain ⟨before, after, hpositional, hplaces⟩ := (Decimal.shortest x.rank).isPlaced
  have hvalue := (Decimal.shortest x.rank).unsigned?_positional
  rw [hpositional] at hvalue
  refine ⟨before, after, hplaces.before_ne_nil, ?_, hplaces.isDigit, ?_, ?_⟩
  · rintro rfl
    obtain ⟨c, hlast, hdigit⟩ := (Decimal.shortest x.rank).getLast_positional
    rw [hpositional, List.getLast?_append_cons] at hlast
    cases hlast
    cases hdigit
  · rw [positional?, if_pos h, hpositional]
  · exact x.number?_signText hplaces.before_ne_nil
      (fun c hc => hplaces.isDigit c (List.mem_append_left after hc)) hvalue

theorem isNegative_eq_testBit (x : Binary64) : x.isNegative = x.bits.toNat.testBit 63 := by
  have := x.bits.toNat_lt
  rw [Nat.testBit_eq_decide_div_mod_eq, isNegative, signPlace]
  congr 1
  apply propext
  omega

end Binary64
end PdfSyntax
