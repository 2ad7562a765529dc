import PdfSyntax.Text.Latin1
import PdfSyntax.Text.Numeral
import PdfSyntax.Text.Printable

/-!
# Quoted text

For messages, texts and byte sequences are written between quotes on one line. The quote, the
backslash and whatever does not print are escaped.
-/

set_option autoImplicit false

namespace PdfSyntax.Quoted

/-- The single quote, unless the text holds single quotes and no double quote. -/
def quote (text : List Char) : Char :=
  if text.contains '\x27' && !text.contains '\x22' then '\x22' else '\x27'

/-- The number of a character, with a letter for how many digits it has. -/
def numbered (c : Char) : List Char :=
  if c.toNat < 0x100 then 'x' :: Numeral.natural 16 2 c.toNat
  else if c.toNat < 0x10000 then 'u' :: Numeral.natural 16 4 c.toNat
  else 'U' :: Numeral.natural 16 8 c.toNat

/-- The escape of one character, or the character itself if it is plain. -/
def escape (isPlain : Char → Bool) (quote c : Char) : List Char :=
  if c = quote ∨ c = '\\' then ['\\', c]
  else if c = '\n' then ['\\', 'n']
  else if c = '\r' then ['\\', 'r']
  else if c = '\t' then ['\\', 't']
  else if isPlain c then [c]
  else '\\' :: numbered c

/-- A text between quotes, all but plain characters escaped. -/
def quoted (isPlain : Char → Bool) (text : List Char) : List Char :=
  quote text :: text.flatMap (escape isPlain (quote text)) ++ [quote text]

def isAsciiPrintable (c : Char) : Bool :=
  decide (0x20 ≤ c.toNat ∧ c.toNat ≤ 0x7e)

def text (s : String) : String :=
  String.ofList (quoted isPrintable s.toList)

def bytes (b : Bytes) : String :=
  String.ofList ('b' :: quoted isAsciiPrintable (b.map Latin1.char))

end PdfSyntax.Quoted
