import PdfSyntax.Obj
import PdfSyntax.Obj.Name
import PdfSyntax.Decimal.Shortest
import PdfSyntax.Text.Quoted

/-!
# Objects in messages

`display` shows an object with its kind, the way messages quote it. `plain` is the way a message uses an
object as part of its own text: a name or a keyword is just its text, a string its quoted bytes and a
reference its two numbers.
-/

set_option autoImplicit false

namespace PdfSyntax

def decimal (n : Int) : String :=
  String.ofList (Numeral.decimal n)

def Ref.display (r : Ref) : String :=
  "PdfObjRef(id=" ++ decimal r.id ++ ", gen=" ++ decimal r.gen ++ ")"

def Name.display (name : String) : String :=
  "PdfName(" ++ Name.encode name ++ ")"

mutual

/-- An object with its kind. -/
def Obj.display : Obj → String
  | .null => "None"
  | .bool true => "True"
  | .bool false => "False"
  | .int n => decimal n
  | .real x => x.display
  | .str b => "PdfString(" ++ Quoted.bytes b ++ ")"
  | .name t => Name.display t
  | .keyword t => "PdfKeyword(" ++ Quoted.text t ++ ")"
  | .text t => Quoted.text t
  | .foreign kind => "<" ++ kind ++ ">"
  | .array items => "PdfArray([" ++ ", ".intercalate (displayItems items) ++ "])"
  | .dict entries => "PdfDict(\x7b" ++ ", ".intercalate (displayEntries entries) ++ "\x7d)"
  | .ref r => r.display
  | .defn r body => "PdfObjDef(ptr=" ++ r.display ++ ", obj=" ++ body.display ++ ")"
  | .stream header owner offset =>
    "PdfStream(hdr=" ++ header.display ++ ", ptr=" ++ owner.display ++ ", offset=" ++
      decimal offset ++ ")"
  | .endOfInput => "EOF"

def displayItems : List Obj → List String
  | [] => []
  | item :: rest => item.display :: displayItems rest

def displayEntries : List (String × Obj) → List String
  | [] => []
  | (key, value) :: rest => (Name.display key ++ ": " ++ value.display) :: displayEntries rest

end

/-- An object as part of a sentence. -/
def Obj.plain : Obj → String
  | .str b => Quoted.bytes b
  | .name t => t
  | .keyword t => t
  | .text t => t
  | .ref r => decimal r.id ++ " " ++ decimal r.gen ++ " R"
  | obj => obj.display

end PdfSyntax
