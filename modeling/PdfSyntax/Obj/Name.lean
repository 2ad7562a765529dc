import PdfSyntax.Text.Numeral

/-!
# Names in the file syntax

A name is written after a slash. White and unprintable characters, delimiters and the number sign are
written as the number sign and the hexadecimal number of the character, in two digits or as many as it
takes.
-/

set_option autoImplicit false

namespace PdfSyntax.Name

/-- Delimiters and the number sign. -/
def isSpecial (c : Char) : Bool :=
  ['(', ')', '<', '>', '[', ']', '\x7b', '\x7d', '/', '%', '#'].contains c

/-- From the exclamation mark to the tilde, unless special. -/
def isPlain (c : Char) : Bool :=
  decide ('!' ≤ c ∧ c ≤ '~') && !isSpecial c

def encodeChar (c : Char) : List Char :=
  if isPlain c then [c] else '#' :: Numeral.upperHex 2 c.toNat

def encode (name : String) : String :=
  String.ofList ('/' :: name.toList.flatMap encodeChar)

end PdfSyntax.Name
