import PdfSyntax.Text.Latin1
import PdfSyntax.Text.Utf16

/-!
# Strings in the file syntax

A string is written between parentheses, with a backslash before parentheses and backslashes, or
between angle brackets as pairs of hexadecimal digits. The automatic form is the shorter one, and the
hexadecimal one if both are equally long.
-/

set_option autoImplicit false

namespace PdfSyntax.Str

inductive Form where
  | literal
  | hex
  | auto
deriving DecidableEq, Repr

/-- Parentheses and the backslash. -/
def needsEscape (b : UInt8) : Bool :=
  b == Byte.leftParen || b == Byte.rightParen || b == Byte.backslash

def escape (b : UInt8) : Bytes :=
  if needsEscape b then [Byte.backslash, b] else [b]

/-- The form between parentheses. -/
def literal (s : Bytes) : Bytes :=
  Byte.leftParen :: s.flatMap escape ++ [Byte.rightParen]

/-- The form between angle brackets. -/
def hex (s : Bytes) : Bytes :=
  Byte.less :: s.flatMap Byte.toHexPair ++ [Byte.greater]

/-- The shorter form. Each byte costs one digit more than itself, each escape one byte more. -/
def auto (s : Bytes) : Bytes :=
  if s.length ≤ s.countP needsEscape then hex s else literal s

def encode : Form → Bytes → Bytes
  | .literal => literal
  | .hex => hex
  | .auto => auto

def Form.ofName? : String → Option Form
  | "literal" => some .literal
  | "hex" => some .hex
  | "auto" => some .auto
  | _ => none

/-- The text of a string: UTF-16 after a byte order mark, Latin-1 otherwise. -/
def text? : Bytes → Option String
  | 0xfe :: 0xff :: rest => Utf16.decode? rest
  | s => some (Latin1.decode s)

@[simp] theorem length_escape (b : UInt8) : (escape b).length = if needsEscape b then 2 else 1 := by
  unfold escape; split <;> rfl

theorem length_literal (s : Bytes) : (literal s).length = s.length + s.countP needsEscape + 2 := by
  have h : (s.flatMap escape).length = s.length + s.countP needsEscape := by
    induction s with
    | nil => rfl
    | cons b rest ih =>
      simp only [List.flatMap_cons, List.length_append, length_escape, List.length_cons,
        List.countP_cons, ih]
      split <;> omega
  simp only [literal, List.cons_append, List.length_cons, List.length_append, h, List.length_nil]

theorem length_hex (s : Bytes) : (hex s).length = 2 * s.length + 2 := by
  have h : (s.flatMap Byte.toHexPair).length = 2 * s.length := by
    induction s with
    | nil => rfl
    | cons b rest ih =>
      simp only [List.flatMap_cons, List.length_append, Byte.toHexPair, List.length_cons, ih,
        List.length_nil]
      omega
  simp only [hex, List.cons_append, List.length_cons, List.length_append, h, List.length_nil]

end PdfSyntax.Str
