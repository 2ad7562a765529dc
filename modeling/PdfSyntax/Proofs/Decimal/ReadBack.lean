import PdfSyntax.Decimal.Shortest
import Mathlib.Tactic.Ring

/-!
# Decimals read back

Rounding a ratio to a magnitude depends on the ratio only, not on the numbers it is given by. So the
shortest decimal of a magnitude still stands for it after trailing zeros are moved into the exponent,
and a magnitude that no short decimal stands for is read back from its exact decimal.
-/

set_option autoImplicit false

namespace PdfSyntax

namespace Binary64

theorem roundHalfEven_mul_right (numerator denominator : Nat) {factor : Nat} (h : 0 < factor) :
    roundHalfEven (numerator * factor) (denominator * factor) =
      roundHalfEven numerator denominator := by
  have hwhole : numerator * factor / (denominator * factor) = numerator / denominator :=
    Nat.mul_div_mul_right _ _ h
  have hrest : 2 * (numerator * factor % (denominator * factor)) =
      2 * (numerator % denominator) * factor := by
    rw [Nat.mul_mod_mul_right, Nat.mul_assoc]
  simp only [roundHalfEven, hwhole, hrest, Nat.mul_lt_mul_right h]

theorem roundHalfEven_of_dvd (whole : Nat) {denominator : Nat} (h : 0 < denominator) :
    roundHalfEven (whole * denominator) denominator = whole := by
  simp only [roundHalfEven, Nat.mul_div_cancel whole h, Nat.mul_mod_left, Nat.mul_zero, h, if_true]

theorem rankOfRatio_mul_right (numerator denominator : Nat) {factor : Nat} (h : 0 < factor) :
    rankOfRatio (numerator * factor) (denominator * factor) = rankOfRatio numerator denominator := by
  have hunits : numerator * factor * unitsPerOne = numerator * unitsPerOne * factor :=
    Nat.mul_right_comm _ _ _
  have hdenominator (n : Nat) : denominator * factor * n = denominator * n * factor :=
    Nat.mul_right_comm _ _ _
  simp only [rankOfRatio, hunits, Nat.mul_div_mul_right _ _ h, hdenominator,
    roundHalfEven_mul_right _ _ h]

theorem rankOfRatio_congr {n d n' d' : Nat} (hd : 0 < d) (hd' : 0 < d') (h : n * d' = n' * d) :
    rankOfRatio n d = rankOfRatio n' d' := by
  rw [← rankOfRatio_mul_right n d hd', h, Nat.mul_comm d d', rankOfRatio_mul_right n' d' hd]

theorem pow_two_pos (n : Nat) : 0 < Nat.pow 2 n :=
  Nat.two_pow_pos n

theorem unitsPerOne_pos : 0 < unitsPerOne := by
  delta unitsPerOne
  apply pow_two_pos

/-- The binary logarithm of a whole number of units tells their spacing. -/
theorem log2_unitsOfRank (rank : Nat) : (unitsOfRank rank).log2 - 52 = spacing rank := by
  by_cases h : rank < 2 * ranksPerSpacing
  · have hspacing : spacing rank = 0 := by
      simp only [spacing, ranksPerSpacing] at *
      omega
    have hunits : unitsOfRank rank = rank := by
      simp [unitsOfRank, significand, hspacing]
    rw [hunits, hspacing]
    by_cases hzero : rank = 0
    · subst hzero
      rfl
    · have hlog := (Nat.log2_lt hzero (k := 53)).mpr (by simp only [ranksPerSpacing] at h; omega)
      omega
  · have hlow : 2 ^ 52 ≤ significand rank := by
      simp only [significand, spacing, ranksPerSpacing] at *
      omega
    have hhigh : significand rank < 2 ^ 53 := by
      simp only [significand, spacing, ranksPerSpacing] at *
      omega
    have hpow := Nat.two_pow_pos (spacing rank)
    have hlog : (unitsOfRank rank).log2 = 52 + spacing rank := by
      apply (Nat.log2_eq_iff (Nat.ne_of_gt (Nat.mul_pos (by omega) hpow))).mpr
      constructor
      · rw [Nat.pow_add]
        exact Nat.mul_le_mul_right _ hlow
      · rw [Nat.add_right_comm, Nat.pow_add]
        exact Nat.mul_lt_mul_of_pos_right hhigh hpow
    omega

theorem rankOfRatio_unitsOfRank {rank : Nat} (h : rank < infinityRank) :
    rankOfRatio (unitsOfRank rank) unitsPerOne = rank := by
  have hround : roundHalfEven (unitsOfRank rank * unitsPerOne) (unitsPerOne * Nat.pow 2 (spacing rank)) =
      significand rank := by
    rw [Nat.mul_comm unitsPerOne, roundHalfEven_mul_right _ _ unitsPerOne_pos, unitsOfRank]
    exact roundHalfEven_of_dvd _ (pow_two_pos _)
  have hsum : spacing rank * ranksPerSpacing + significand rank = rank := by
    simp only [significand, spacing, ranksPerSpacing]
    omega
  simp only [rankOfRatio, Nat.mul_div_cancel _ unitsPerOne_pos, log2_unitsOfRank, hround, hsum]
  omega

end Binary64

namespace Decimal

theorem ten_pow_pos (n : Nat) : 0 < Nat.pow 10 n :=
  Nat.pow_pos (by omega)

theorem rank_congr {d d' : Decimal}
    (h : d.coefficient * Nat.pow 10 d.exponent.toNat * Nat.pow 10 (-d'.exponent).toNat =
      d'.coefficient * Nat.pow 10 d'.exponent.toNat * Nat.pow 10 (-d.exponent).toNat) :
    d.rank = d'.rank :=
  Binary64.rankOfRatio_congr (ten_pow_pos _) (ten_pow_pos _) h

theorem rank_strip (d : Decimal) : d.strip.rank = d.rank := by
  induction d using strip.induct with
  | case1 d hd ih =>
    rw [strip, if_pos hd, ih]
    apply rank_congr
    obtain ⟨coefficient, exponent⟩ := d
    obtain ⟨k, hk⟩ : ∃ k, coefficient = k * 10 := ⟨coefficient / 10, by simp only at hd; omega⟩
    subst hk
    simp only [Nat.mul_div_cancel _ (show 0 < 10 by omega)]
    by_cases hsign : 0 ≤ exponent
    · have hup : (exponent + 1).toNat = exponent.toNat + 1 := by omega
      have hdown : (-exponent).toNat = 0 ∧ (-(exponent + 1)).toNat = 0 := by omega
      rw [hup, hdown.1, hdown.2]
      simp only [Nat.pow_eq, Nat.pow_succ, Nat.pow_zero]
      ring
    · have hdown : (-exponent).toNat = (-(exponent + 1)).toNat + 1 := by omega
      have hup : exponent.toNat = 0 ∧ (exponent + 1).toNat = 0 := by omega
      rw [hdown, hup.1, hup.2]
      simp only [Nat.pow_eq, Nat.pow_succ, Nat.pow_zero]
      ring
  | case2 d hd => rw [strip, if_neg hd]

/-- Halves are decimals: `5 ^ k` times `10 ^ -k` is `2 ^ -k`. -/
theorem rank_of_fives (units k : Nat) :
    rank ⟨units * Nat.pow 5 k, -(k : Int)⟩ = Binary64.rankOfRatio units (Nat.pow 2 k) := by
  apply Binary64.rankOfRatio_congr (ten_pow_pos _) (Binary64.pow_two_pos k)
  have hup : (-(k : Int)).toNat = 0 := by omega
  have hdown : (- -(k : Int)).toNat = k := by omega
  have hten : Nat.pow 10 k = Nat.pow 5 k * Nat.pow 2 k := Nat.mul_pow 5 2 k
  simp only [hup, hdown, hten]
  simp only [Nat.pow_eq, Nat.pow_zero, Nat.mul_one, Nat.mul_assoc]

theorem rank_exact {rank : Nat} (h : rank < Binary64.infinityRank) : (exact rank).rank = rank := by
  have hunits := Binary64.rankOfRatio_unitsOfRank h
  have hexponent : (-1074 : Int) = -((1074 : Nat) : Int) := rfl
  revert hunits
  unfold exact Binary64.unitsPerOne
  rw [hexponent]
  -- The power is far too large to be computed.
  generalize 1074 = k
  intro hunits
  rw [rank_of_fives, hunits]

theorem rank_zero : rank ⟨0, 0⟩ = 0 := by
  simp only [rank, Binary64.rankOfRatio, Binary64.roundHalfEven, Nat.zero_mul]
  simp

/-- The shortest decimal of a finite magnitude reads back as it. -/
theorem rank_shortest {rank : Nat} (h : rank < Binary64.infinityRank) :
    (shortest rank).rank = rank := by
  unfold shortest
  by_cases hzero : rank = 0
  · rw [if_pos hzero, hzero, rank_zero]
  · rw [if_neg hzero, rank_strip]
    generalize hfind : (candidates rank).find? _ = found
    cases found with
    | none =>
      rw [Option.getD_none]
      exact rank_exact h
    | some d =>
      have hrank := List.find?_some hfind
      rw [Option.getD_some]
      exact of_decide_eq_true hrank

section Positional
variable (d : Decimal)

theorem digits_ne_nil : d.digits ≠ [] :=
  Nat.toDigits_ne_nil

theorem isDigit_of_mem_digits {c : Char} (h : c ∈ d.digits) : c.isDigit = true :=
  Nat.isDigit_of_mem_toDigits (by omega) (by omega) h

theorem ofDigitChars_digits : Nat.ofDigitChars 10 d.digits 0 = d.coefficient :=
  Nat.ofDigitChars_ten_toDigits

/-- Digits on both sides of a decimal point that stand for a decimal. -/
structure Places (before after : List Char) : Prop where
  before_ne_nil : before ≠ []
  isDigit : ∀ c ∈ before ++ after, c.isDigit = true
  value_eq : Nat.ofDigitChars 10 (before ++ after) 0 * Nat.pow 10 (-d.exponent).toNat =
    d.coefficient * Nat.pow 10 d.exponent.toNat * Nat.pow 10 after.length

/-- Written out, a decimal has digits on both sides of the point that stand for it. -/
def IsPlaced : Prop :=
  ∃ before after, d.positional = before ++ '.' :: after ∧ d.Places before after

/-- All digits stand before the point, and then zeros. -/
theorem isPlaced_of_exponent_nonneg (hsign : 0 ≤ d.exponent) : d.IsPlaced := by
  have hlength := List.length_pos_iff.mpr d.digits_ne_nil
  have hpoint : d.point = d.digits.length + d.exponent := rfl
  have htake : d.digits.take d.point.toNat = d.digits := List.take_of_length_le (by omega)
  have hdrop : d.digits.drop d.point.toNat = [] := List.drop_eq_nil_of_le (by omega)
  have hzeros : (-d.point).toNat = 0 := by omega
  have hdown : (-d.exponent).toNat = 0 := by omega
  refine ⟨d.digits ++ List.replicate d.exponent.toNat '0', ['0'], ?_, ?_, ?_, ?_⟩
  · simp [positional, htake, hdrop, hzeros, d.digits_ne_nil]
  · simp [d.digits_ne_nil]
  · intro c hc
    simp only [List.mem_append, List.mem_replicate, List.mem_singleton] at hc
    rcases hc with (hc | ⟨-, rfl⟩) | rfl
    · exact d.isDigit_of_mem_digits hc
    · rfl
    · rfl
  · simp only [hdown, List.append_assoc, Nat.ofDigitChars_append, d.ofDigitChars_digits,
      Nat.ofDigitChars_replicate_zero, Nat.ofDigitChars_cons, Nat.ofDigitChars_nil, Nat.sub_self,
      List.length_singleton, Nat.pow_eq]
    ring

/-- The point stands between digits. -/
theorem isPlaced_of_point_pos (hsign : d.exponent < 0) (hwhole : 0 < d.point) :
    d.IsPlaced := by
  have hpoint : d.point = d.digits.length + d.exponent := rfl
  have hup : d.exponent.toNat = 0 := by omega
  have hzeros : (-d.point).toNat = 0 := by omega
  have hbefore : d.digits.take d.point.toNat ≠ [] := by
    rw [Ne, List.take_eq_nil_iff]
    intro hcases
    rcases hcases with h | h
    · omega
    · exact d.digits_ne_nil h
  have hafter : d.digits.drop d.point.toNat ≠ [] := by
    rw [Ne, List.drop_eq_nil_iff]
    omega
  have hall := List.take_append_drop d.point.toNat d.digits
  refine ⟨d.digits.take d.point.toNat, d.digits.drop d.point.toNat, ?_, hbefore, ?_, ?_⟩
  · simp [positional, hup, hzeros, hbefore, hafter]
  · rw [hall]
    exact fun c hc => d.isDigit_of_mem_digits hc
  · have hplaces : (d.digits.drop d.point.toNat).length = (-d.exponent).toNat := by
      rw [List.length_drop]
      omega
    rw [hall, d.ofDigitChars_digits, hup, hplaces]
    simp only [Nat.pow_eq, Nat.pow_zero, Nat.mul_one]

/-- The point stands before all digits, with zeros in between. -/
theorem isPlaced_of_point_nonpos (hsign : d.exponent < 0) (hwhole : d.point ≤ 0) :
    d.IsPlaced := by
  have hpoint : d.point = d.digits.length + d.exponent := rfl
  have hup : d.exponent.toNat = 0 := by omega
  have hnone : d.point.toNat = 0 := by omega
  refine ⟨['0'], List.replicate (-d.point).toNat '0' ++ d.digits, ?_, by simp, ?_, ?_⟩
  · simp [positional, hup, hnone, d.digits_ne_nil]
  · intro c hc
    simp only [List.mem_append, List.mem_replicate, List.mem_singleton] at hc
    rcases hc with rfl | ⟨-, rfl⟩ | hc
    · rfl
    · rfl
    · exact d.isDigit_of_mem_digits hc
  · have hplaces : (List.replicate (-d.point).toNat '0' ++ d.digits).length =
        (-d.exponent).toNat := by
      rw [List.length_append, List.length_replicate]
      omega
    rw [hplaces, hup]
    simp only [Nat.ofDigitChars_append, Nat.ofDigitChars_cons, Nat.ofDigitChars_nil, Nat.sub_self,
      Nat.ofDigitChars_replicate_zero, Nat.mul_zero, Nat.add_zero, d.ofDigitChars_digits, Nat.pow_eq,
      Nat.pow_zero, Nat.mul_one]

theorem isPlaced : d.IsPlaced := by
  by_cases hsign : 0 ≤ d.exponent
  · exact d.isPlaced_of_exponent_nonneg hsign
  · by_cases hwhole : 0 < d.point
    · exact d.isPlaced_of_point_pos (by omega) hwhole
    · exact d.isPlaced_of_point_nonpos (by omega) (by omega)

theorem Places.rank_eq {before after : List Char} (h : d.Places before after) :
    Binary64.rankOfRatio (Nat.ofDigitChars 10 (before ++ after) 0) (Nat.pow 10 after.length) =
      d.rank :=
  Binary64.rankOfRatio_congr (ten_pow_pos _) (ten_pow_pos _) h.value_eq

end Positional

end Decimal
end PdfSyntax
