import PdfSyntax.Obj.Dict
import PdfSyntax.Obj.Str

/-!
# Objects in the file syntax

`format` writes an object. Strings take their shorter form, reals have no exponent, and the entries of
a dictionary are sorted, so that the order of their insertion does not show. Of a stream the header is
written, up to the start of its payload.
-/

set_option autoImplicit false

namespace PdfSyntax

open Latin1 (ascii encode?)

/-- A dictionary whose values are written, or could not be. -/
def formatDict (entries : List (String × Except Failure Bytes)) : Except Failure Bytes := do
  let parts ← (sortEntries entries).mapM fun entry => do
    return 0x20 :: ascii (Name.encode entry.1) ++ 0x20 :: (← entry.2)
  return ascii "<<" ++ parts.flatten ++ ascii " >>"

def formatRef (r : Ref) : Bytes :=
  ascii (decimal r.id ++ " " ++ decimal r.gen)

mutual

def Obj.format : Obj → Except Failure Bytes
  | .null => .ok (ascii "null")
  | .bool true => .ok (ascii "true")
  | .bool false => .ok (ascii "false")
  | .int n => .ok (ascii (decimal n))
  | .real x =>
    match x.positional? with
    | some text => .ok (ascii text)
    | none => .error (.notFinite x)
  | .str s => .ok (Str.auto s)
  | .name t => .ok (ascii (Name.encode t))
  | .keyword t =>
    match encode? t with
    | some bytes => .ok bytes
    | none => .error (.unencodable t)
  | .text _ => .error (.unformattable "str")
  | .foreign kind => .error (.unformattable kind)
  | .array items => do
    let parts ← (formatItems items).mapM id
    return ascii "[" ++ [0x20].intercalate parts ++ ascii "]"
  | .dict entries => formatDict (formatEntries entries)
  | .ref r => .ok (formatRef r ++ ascii " R")
  | .defn r body => do
    return formatRef r ++ ascii " obj\n" ++ (← body.format) ++ ascii "\nendobj"
  | .stream header _ _ => do
    return (← header.formatHeader) ++ ascii "\nstream\n"
  | .endOfInput => .error (.unformattable "_EndOfInput")

/-- The entries that an object has to offer as a header: a stream offers those of its own header. -/
def Obj.formatHeader : Obj → Except Failure Bytes
  | .dict entries => formatDict (formatEntries entries)
  | .stream header _ _ => header.formatHeader
  | _ => .error .noEntries

def formatItems : List Obj → List (Except Failure Bytes)
  | [] => []
  | item :: rest => item.format :: formatItems rest

def formatEntries : List (String × Obj) → List (String × Except Failure Bytes)
  | [] => []
  | (name, value) :: rest => (name, value.format) :: formatEntries rest

end

end PdfSyntax
