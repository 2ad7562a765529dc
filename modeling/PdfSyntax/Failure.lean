import PdfSyntax.Cipher.StringCipher
import PdfSyntax.Obj.Display
import PdfSyntax.Template

/-!
# Failures

What can go wrong, by its cause. A `Fault` is found by the reading itself, most often as a mistake in the
syntax of a file; it is reported with the place that was reached. Every cause has one message, which a
fault makes of a template.
-/

set_option autoImplicit false

namespace PdfSyntax

inductive Fault where
  | unexpectedDelimiter (byte : UInt8)
  | unterminatedHex
  | malformedHex (first second : UInt8)
  | octalOverflow (value : Nat)
  | unknownEscape (byte : UInt8)
  | malformedName
  | integerRange (text : String)
  | emptyReal (text : String)
  | unexpectedKeyword (text : String)
  | missingEnd (ref : Ref)
  | nonNameKey (token : Obj)
  | streamLineEnd
  /-- A byte was taken for a hexadecimal digit and has no value. No file is to blame for that. -/
  | noDigit (byte : UInt8)

namespace Fault

def template : Fault → String
  | unexpectedDelimiter _ => "unexpected delimiter %r"
  | unterminatedHex => "unterminated hex string"
  | malformedHex .. => "malformed hex string %r %r"
  | octalOverflow _ => "invalid octal escape \\%03o"
  | unknownEscape _ => "invalid escape sequence \\%s"
  | malformedName => "malformed name"
  | integerRange _ => "invalid integer %s"
  | emptyReal _ => "invalid real %s"
  | unexpectedKeyword _ => "unexpected keyword %r parsing object"
  | missingEnd _ => "missing endobj after indirect object definition %d %d"
  | nonNameKey _ => "unexpected non-name key %r parsing dictionary"
  | streamLineEnd => "stream keyword not followed by newline"
  | noDigit _ => "no hexadecimal digit %r"

/-- A byte as the text of its character. -/
def char (byte : UInt8) : Obj :=
  .text (Latin1.decode [byte])

def arguments : Fault → List Obj
  | unexpectedDelimiter byte | unknownEscape byte | noDigit byte => [char byte]
  | malformedHex first second => [char first, char second]
  | octalOverflow value => [.int value]
  | integerRange text | emptyReal text | unexpectedKeyword text => [.text text]
  | missingEnd ref => [.int ref.id, .int ref.gen]
  | nonNameKey token => [token]
  | unterminatedHex | malformedName | streamLineEnd => []

/-- The message, unless the arguments do not fit into the template. -/
def message (fault : Fault) : Except Template.Fault String :=
  Template.render fault.template fault.arguments

end Fault

def located (message : String) (offset : Int) : String :=
  message ++ " (offset=" ++ decimal offset ++ ")"

inductive Failure where
  /-- The file has a mistake, and this is how far it was read. -/
  | malformed (fault : Fault) (offset : Int)
  /-- A mistake that a caller has found. -/
  | custom (text : String) (offset : Int)
  /-- The input ends where more was needed. -/
  | unexpectedEnd (offset : Int)
  | unreadable (offset : Int) (reason : String)
  /-- The target lies before the block at hand. -/
  | backward (here target : Int)
  | keyNotName (key : Obj)
  /-- A key that cannot even be looked for. -/
  | unhashable (key : Obj)
  | reservedName (name : String)
  | cipher (fault : StringCipher.Fault)
  /-- A caller's own decipherment was refused. -/
  | refused (reason : String)
  | notFinite (value : Binary64)
  | unformattable (kind : String)
  | unencodable (text : String)
  | notUtf16
  | unknownForm (name : String)
  | template (fault : Template.Fault)
  | noAttribute (name : String)
  /-- A header that is no dictionary has nothing to write. -/
  | noEntries
  | emptyBlock
  /-- A block was taken to hold one more byte and does not. -/
  | outOfBlock
  | negativePosition (position : Int)
  /-- Only so many tokens can be asked for at once. -/
  | tokenCount (count : Int)
  | unsupported
  /-- A bound on the steps was too low; the bounds in use are never too low. -/
  | exhausted

/-- Where the cause of a failure lies. -/
inductive Failure.Kind where
  /-- In what was read, or in a key that a dictionary refuses. -/
  | input
  /-- In what was to be written. -/
  | output
  /-- In the way the library was used, or in the library. -/
  | usage
deriving DecidableEq

def Fault.kind : Fault → Failure.Kind
  | noDigit _ => .usage
  | _ => .input

namespace Failure

def kind : Failure → Kind
  | malformed fault _ => fault.kind
  | custom .. | unexpectedEnd .. | unreadable .. | backward .. | keyNotName .. | refused .. => .input
  | cipher (.refRange ..) | cipher (.refused ..) => .usage
  | cipher .. => .input
  | notFinite .. | unformattable .. => .output
  | _ => .usage

def message : Failure → String
  | malformed fault offset =>
    match fault.message with
    | .ok text => located text offset
    | .error fault => fault.message
  | custom text offset => located text offset
  | unexpectedEnd offset =>
    "malformed PDF: reading at offset " ++ decimal offset ++ ": unexpected EOF"
  | unreadable offset reason =>
    "malformed PDF: reading at offset " ++ decimal offset ++ ": " ++ reason
  | backward here target =>
    "cannot seek backward from offset " ++ decimal here ++ " to " ++ decimal target
  | reservedName name => "the name " ++ name ++ " is reserved"
  | keyNotName key => "Dict key " ++ key.display ++ " is not a PdfName"
  | unhashable key => "no key of a lookup: " ++ key.display
  | cipher fault => fault.message
  | refused reason => reason
  | notFinite value => "Cannot represent real " ++ value.display ++ " in PDF"
  | unformattable kind => "Cannot format object of type " ++ kind
  | unencodable text => "no byte for a character of " ++ Quoted.text text
  | notUtf16 => "not a text in UTF-16"
  | unknownForm name => "Invalid bytes_encoding value: " ++ name
  | template fault => fault.message
  | noAttribute name => "no attribute " ++ name
  | noEntries => "the header has no entries"
  | emptyBlock => "blocks of size zero"
  | outOfBlock => "no byte left in the block"
  | negativePosition position => "negative position " ++ decimal position
  | tokenCount count => "cannot read " ++ decimal count ++ " tokens"
  | unsupported => "no such operation"
  | exhausted => "too many steps"

end Failure
end PdfSyntax
