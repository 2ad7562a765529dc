import PdfSyntax.Decimal.Binary64
import PdfSyntax.Text.Numeral

/-!
# The shortest decimal of a magnitude

`shortest` gives the decimal with the fewest digits that reads back as the same magnitude, and of
those the one nearest to it. For each count of digits the two neighbours of the magnitude on the grid
of decimals with so many digits are tried, the nearer first and of two equally near ones the even one.
-/

set_option autoImplicit false

namespace PdfSyntax

/-- The number `coefficient * 10 ^ exponent`. -/
structure Decimal where
  coefficient : Nat
  exponent : Int
deriving DecidableEq, Repr

namespace Decimal

def rank (d : Decimal) : Nat :=
  Binary64.rankOfRatio (d.coefficient * Nat.pow 10 d.exponent.toNat) (Nat.pow 10 (-d.exponent).toNat)

def strip (d : Decimal) : Decimal :=
  if d.coefficient ≠ 0 ∧ d.coefficient % 10 = 0 then
    strip ⟨d.coefficient / 10, d.exponent + 1⟩
  else d
termination_by d.coefficient
decreasing_by omega

def exact (rank : Nat) : Decimal :=
  ⟨Binary64.unitsOfRank rank * Nat.pow 5 1074, -1074⟩

/-- The neighbours of a magnitude among the multiples of `10 ^ exponent`, the nearer one first. -/
def neighbours (rank : Nat) (exponent : Int) : List Decimal :=
  let numerator := Binary64.unitsOfRank rank * Nat.pow 10 (-exponent).toNat
  let denominator := Binary64.unitsPerOne * Nat.pow 10 exponent.toNat
  let below := numerator / denominator
  let twice := 2 * (numerator % denominator)
  if twice < denominator ∨ twice = denominator ∧ below % 2 = 0 then
    [⟨below, exponent⟩, ⟨below + 1, exponent⟩]
  else
    [⟨below + 1, exponent⟩, ⟨below, exponent⟩]

/-- The decimal exponent of the leading digit of a magnitude other than zero. -/
def leadingExponent (rank : Nat) : Int :=
  (Nat.toDigits 10 (Binary64.unitsOfRank rank * Nat.pow 10 324 / Binary64.unitsPerOne)).length - 325

/-- The decimals with fewest digits first; seventeen digits are enough for every magnitude. -/
def candidates (rank : Nat) : List Decimal :=
  (List.range 17).flatMap fun (i : Nat) => neighbours rank (leadingExponent rank - i)

/-- The shortest decimal that reads back as the magnitude of the given rank. -/
def shortest (rank : Nat) : Decimal :=
  if rank = 0 then ⟨0, 0⟩
  else (((candidates rank).find? fun d => d.rank = rank).getD (exact rank)).strip

def digits (d : Decimal) : List Char :=
  Nat.toDigits 10 d.coefficient

/-- How many digits stand before the decimal point, counted from the leading digit. -/
def point (d : Decimal) : Int :=
  d.digits.length + d.exponent

/-- The digits on both sides of the decimal point, at least one on each. -/
def positional (d : Decimal) : List Char :=
  let before := d.digits.take d.point.toNat ++ List.replicate d.exponent.toNat '0'
  let after := List.replicate (-d.point).toNat '0' ++ d.digits.drop d.point.toNat
  (if before = [] then ['0'] else before) ++ '.' :: (if after = [] then ['0'] else after)

def exponentText (exponent : Int) : List Char :=
  (if exponent < 0 then '-' else '+') :: Numeral.natural 10 2 exponent.natAbs

/-- One digit before the decimal point, which is left out if no digit follows it, and an exponent. -/
def scientific (d : Decimal) : List Char :=
  let fraction := d.digits.drop 1
  d.digits.take 1 ++ (if fraction = [] then [] else '.' :: fraction) ++
    'e' :: exponentText (d.point - 1)

/-- Positional from `0.0001` up to sixteen digits before the point, with an exponent elsewhere. -/
def display (d : Decimal) : List Char :=
  if -4 < d.point ∧ d.point ≤ 16 then d.positional else d.scientific

end Decimal

namespace Binary64
variable (x : Binary64)

def signText : List Char :=
  if x.isNegative then ['-'] else []

/-- The shortest decimal, with an exponent where that is far from the digits. -/
def display : String :=
  if x.isNaN then "nan"
  else if x.isFinite then String.ofList (x.signText ++ (Decimal.shortest x.rank).display)
  else String.ofList (x.signText ++ ['i', 'n', 'f'])

/-- The shortest decimal without an exponent, unless the datum is not finite. -/
def positional? : Option String :=
  if x.isFinite then some (String.ofList (x.signText ++ (Decimal.shortest x.rank).positional))
  else none

end Binary64
end PdfSyntax
