/-!
# Bytes of the file syntax

A file is a sequence of bytes, and three classes of them matter to the syntax. White bytes separate
tokens, delimiters begin and end the bracketed forms, and every other byte is regular. Digits are
read in base 8 inside literal strings and in base 16 inside hexadecimal strings and names.
-/

set_option autoImplicit false

namespace PdfSyntax

abbrev Bytes := List UInt8

namespace Byte

abbrev lineFeed : UInt8 := 0x0a
abbrev carriageReturn : UInt8 := 0x0d
abbrev hash : UInt8 := 0x23
abbrev percent : UInt8 := 0x25
abbrev leftParen : UInt8 := 0x28
abbrev rightParen : UInt8 := 0x29
abbrev slash : UInt8 := 0x2f
abbrev less : UInt8 := 0x3c
abbrev greater : UInt8 := 0x3e
abbrev leftBracket : UInt8 := 0x5b
abbrev backslash : UInt8 := 0x5c
abbrev rightBracket : UInt8 := 0x5d
abbrev leftBrace : UInt8 := 0x7b
abbrev rightBrace : UInt8 := 0x7d

/-- NUL, tab, line feed, form feed, carriage return and space. -/
def isWhite (b : UInt8) : Bool :=
  b == 0x00 || b == 0x09 || b == 0x0a || b == 0x0c || b == 0x0d || b == 0x20

/-- The brackets of every shape, the slash and the percent sign. -/
def isDelimiter (b : UInt8) : Bool :=
  b == leftParen || b == rightParen || b == less || b == greater || b == leftBracket ||
  b == rightBracket || b == leftBrace || b == rightBrace || b == slash || b == percent

def isRegular (b : UInt8) : Bool :=
  !isWhite b && !isDelimiter b

def isLineEnd (b : UInt8) : Bool :=
  b == lineFeed || b == carriageReturn

def decimalValue? (b : UInt8) : Option UInt8 :=
  if 0x30 ≤ b ∧ b ≤ 0x39 then some (b - 0x30) else none

def isHexDigit (b : UInt8) : Bool :=
  (0x30 ≤ b && b ≤ 0x39) || (0x41 ≤ b && b ≤ 0x46) || (0x61 ≤ b && b ≤ 0x66)

/-- The value of a hexadecimal digit of either case. -/
def hexValue? (b : UInt8) : Option UInt8 :=
  if 0x30 ≤ b ∧ b ≤ 0x39 then some (b - 0x30)
  else if 0x41 ≤ b ∧ b ≤ 0x46 then some (b - 0x37)
  else if 0x61 ≤ b ∧ b ≤ 0x66 then some (b - 0x57)
  else none

def octalValue? (b : UInt8) : Option Nat :=
  if 0x30 ≤ b ∧ b ≤ 0x37 then some (b.toNat - 0x30) else none

/-- The byte that two hexadecimal digits spell, the high digit first. -/
def ofHexPair? (high low : UInt8) : Option UInt8 := do
  return (← hexValue? high) * 16 + (← hexValue? low)

/-- The byte that spells a hexadecimal digit, in upper case. -/
def hexDigit (value : UInt8) : UInt8 :=
  if value < 10 then value + 0x30 else value + 0x37

def toHexPair (b : UInt8) : Bytes :=
  [hexDigit (b / 16), hexDigit (b % 16)]

theorem hexValue?_isSome (b : UInt8) : (hexValue? b).isSome = isHexDigit b := by
  simp only [hexValue?, isHexDigit]
  repeat' split
  all_goals simp_all

/-- What holds of all bytes can be checked of each. -/
theorem forall_of_fin (p : UInt8 → Prop) (h : ∀ n : Fin 256, p (UInt8.ofNat n)) (b : UInt8) : p b := by
  have hb := h ⟨b.toNat, b.toNat_lt⟩
  rwa [UInt8.ofNat_toNat] at hb

theorem ofHexPair?_toHexPair (b : UInt8) :
    ofHexPair? (hexDigit (b / 16)) (hexDigit (b % 16)) = some b :=
  forall_of_fin (fun b => ofHexPair? (hexDigit (b / 16)) (hexDigit (b % 16)) = some b)
    (by decide +kernel) b

end Byte
end PdfSyntax
