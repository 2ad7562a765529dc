import PdfSyntax.Byte

/-!
# UTF-16 in big-endian order

Characters above U+FFFF are written as two surrogates. A surrogate that is not one of such a pair, and
a last byte that is not one of two, belong to no text.
-/

set_option autoImplicit false

namespace PdfSyntax.Utf16

/-- The pairs of bytes as numbers, or nothing if a byte is left over. -/
def units? : Bytes → Option (List Nat)
  | [] => some []
  | [_] => none
  | high :: low :: rest => (units? rest).map ((high.toNat * 256 + low.toNat) :: ·)

def isHighSurrogate (unit : Nat) : Bool :=
  decide (0xd800 ≤ unit ∧ unit < 0xdc00)

def isLowSurrogate (unit : Nat) : Bool :=
  decide (0xdc00 ≤ unit ∧ unit < 0xe000)

def characters? : List Nat → Option (List Char)
  | [] => some []
  | unit :: rest =>
    if isHighSurrogate unit then
      match rest with
      | low :: rest =>
        if isLowSurrogate low then
          let c := Char.ofNat (0x10000 + (unit - 0xd800) * 0x400 + (low - 0xdc00))
          (characters? rest).map (c :: ·)
        else none
      | [] => none
    else if isLowSurrogate unit then none
    else (characters? rest).map (Char.ofNat unit :: ·)

def decode? (bytes : Bytes) : Option String := do
  return String.ofList (← characters? (← units? bytes))

end PdfSyntax.Utf16
