import PdfSyntax.Obj.Dict
import PdfSyntax.Obj.Name

/-!
# Fields of objects

The parts of an object have names. Those of a dictionary are its entries, and a part that is missing
there is null. A stream has the parts of its header too, as far as they do not share a name with its own.
-/

set_option autoImplicit false

namespace PdfSyntax.Obj

/-- The part of a stream that is not in its header. -/
def streamField? (header : Obj) (owner : Ref) (offset : Int) : String → Option Obj
  | "hdr" => some header
  | "ptr" => some (.ref owner)
  | "offset" => some (.int offset)
  | _ => none

def refField? (r : Ref) : String → Option Obj
  | "id" => some (.int r.id)
  | "gen" => some (.int r.gen)
  | _ => none

def defnField? (r : Ref) (body : Obj) : String → Option Obj
  | "ptr" => some (.ref r)
  | "obj" => some body
  | _ => none

/-- The part with a name. Of a stream, the names that start with an underscore are reserved. -/
def field (fieldName : String) : Obj → Except Failure Obj
  | .dict entries => Dict.field fieldName entries
  | .stream header owner offset =>
    match streamField? header owner offset fieldName with
    | some part => .ok part
    | none =>
      if fieldName.startsWith "_" then .error (.noAttribute fieldName) else header.field fieldName
  | .ref r => found (refField? r fieldName)
  | .defn r body => found (defnField? r body fieldName)
  | .name t => found (if fieldName = "encoded" then some (.text (Name.encode t)) else none)
  | _ => found none
where
  found (part : Option Obj) : Except Failure Obj :=
    part.elim (.error (.noAttribute fieldName)) .ok

end PdfSyntax.Obj
