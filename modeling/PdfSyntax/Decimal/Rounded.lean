import PdfSyntax.Decimal.Shortest

/-!
# Decimals of a given length

A magnitude can be rounded to a place after the decimal point, or to a number of digits, and be written
with these digits whether they are needed or not. Of two equally near decimals the even one is taken.
-/

set_option autoImplicit false

namespace PdfSyntax

namespace Decimal

/-- The multiple of `10 ^ exponent` nearest a magnitude. -/
def nearest (rank : Nat) (exponent : Int) : Decimal :=
  ⟨Binary64.roundHalfEven (Binary64.unitsOfRank rank * Nat.pow 10 (-exponent).toNat)
    (Binary64.unitsPerOne * Nat.pow 10 exponent.toNat), exponent⟩

/-- The nearest decimal with so many digits. Zero counts as the digit before the point. -/
def significant (rank count : Nat) : Decimal :=
  let leading := if rank = 0 then 0 else leadingExponent rank
  let rounded := nearest rank (leading - (count - 1 : Nat))
  -- a nine that is rounded up may make one more digit, and then the last digit is a zero
  if count < rounded.digits.length then ⟨rounded.coefficient / 10, rounded.exponent + 1⟩ else rounded

/-- The digits on both sides of the point. The point is left out if no digit follows it, unless it is to
stand in any case. -/
def joined (isPointKept : Bool) (before after : List Char) : List Char :=
  if after.isEmpty && !isPointKept then before else before ++ '.' :: after

/-- A magnitude with so many digits after the point. -/
def fixed (isPointKept : Bool) (precision rank : Nat) : List Char :=
  let digits := Numeral.natural 10 (precision + 1) (nearest rank (-precision)).coefficient
  let before := digits.length - precision
  joined isPointKept (digits.take before) (digits.drop before)

/-- A magnitude with one digit before the point and so many after it, and an exponent. -/
def exponential (isPointKept : Bool) (precision rank : Nat) : List Char :=
  let d := significant rank (precision + 1)
  let digits := Numeral.natural 10 (precision + 1) d.coefficient
  joined isPointKept (digits.take 1) (digits.drop 1) ++ 'e' :: exponentText (d.exponent + precision)

/-- A magnitude with so many digits, with an exponent where the point is far from them. The zeros at the
end of the fraction are left out if the point may be. -/
def general (isPointKept : Bool) (precision rank : Nat) : List Char :=
  let count := max precision 1
  let d := significant rank count
  let digits := Numeral.natural 10 count d.coefficient
  let leading := d.exponent + (count - 1 : Nat)
  let fraction (after : List Char) :=
    if isPointKept then after else (after.reverse.dropWhile (· == '0')).reverse
  if leading < -4 || count ≤ leading then
    joined isPointKept (digits.take 1) (fraction (digits.drop 1)) ++ 'e' :: exponentText leading
  else if leading < 0 then
    joined isPointKept ['0'] (fraction (List.replicate (-leading - 1).toNat '0' ++ digits))
  else
    joined isPointKept (digits.take (leading.toNat + 1)) (fraction (digits.drop (leading.toNat + 1)))

end Decimal
end PdfSyntax
