/-!
# Numerals

Whole numbers written in a base, with leading zeros up to a least width.
-/

set_option autoImplicit false

namespace PdfSyntax.Numeral

/-- Puts zeros in front of the digits up to a least width. -/
def pad (width : Nat) (digits : List Char) : List Char :=
  List.replicate (width - digits.length) '0' ++ digits

/-- The digits of a number; those above nine are lower-case letters. -/
def natural (base width n : Nat) : List Char :=
  pad width (Nat.toDigits base n)

def upperHex (width n : Nat) : List Char :=
  (natural 16 width n).map Char.toUpper

/-- A number after its minus sign, if it has one; the sign counts for the width. -/
def signed (base width : Nat) (n : Int) : List Char :=
  if n < 0 then '-' :: natural base (width - 1) n.natAbs else natural base width n.toNat

def decimal (n : Int) : List Char :=
  signed 10 0 n

@[simp] theorem natural_zero_width (base n : Nat) : natural base 0 n = Nat.toDigits base n := by
  simp [natural, pad]

theorem natural_ne_nil (base width n : Nat) : natural base width n ≠ [] := by
  simp [natural, pad, Nat.toDigits_ne_nil]

theorem ofDigitChars_natural {base : Nat} (width n : Nat) (h : 1 < base) (h' : base ≤ 10) :
    Nat.ofDigitChars base (natural base width n) 0 = n := by
  rw [natural, pad, Nat.ofDigitChars_append, Nat.ofDigitChars_replicate_zero, Nat.mul_zero,
    Nat.ofDigitChars_toDigits h h']

end PdfSyntax.Numeral
