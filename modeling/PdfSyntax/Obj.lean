import PdfSyntax.Byte
import PdfSyntax.Decimal.Binary64

/-!
# Objects

The objects of the file syntax, in memory. Tokens are objects too: the simple objects, keywords, and
the marker of the end of the input. Strings are byte sequences; names and keywords are texts, a name
without its slash and with its escapes undone. A stream is only its header and the place where its
payload starts, and a reference is never followed. In a file the header of a stream is a dictionary; in
memory it may be any object.
-/

set_option autoImplicit false

namespace PdfSyntax

/-- An object number with its generation. -/
structure Ref where
  id : Int
  gen : Int
deriving DecidableEq, Repr

namespace Ref

/-- The number of no object. -/
def null : Ref := ⟨0, 0⟩

/-- Object numbers are below this. -/
def idLimit : Int := 0x100000000

/-- Generations are below this. -/
def genLimit : Int := 0x10000

/-- Whether a reference can stand in a file. -/
structure IsSmall (r : Ref) : Prop where
  id_nonneg : 0 ≤ r.id
  id_lt : r.id < idLimit
  gen_nonneg : 0 ≤ r.gen
  gen_lt : r.gen < genLimit

theorem isSmall_null : null.IsSmall :=
  ⟨by decide, by decide, by decide, by decide⟩

end Ref

inductive Obj where
  | null
  | bool (value : Bool)
  | int (value : Int)
  | real (value : Binary64)
  | str (bytes : Bytes)
  | name (text : String)
  | keyword (text : String)
  /-- A text that is neither a name nor a keyword, and no part of the file syntax. -/
  | text (text : String)
  /-- A datum outside the file syntax, known by its kind only. -/
  | foreign (kind : String)
  | array (items : List Obj)
  /-- The entries in the order of their first insertion; a name has one entry at most. -/
  | dict (entries : List (String × Obj))
  | ref (ref : Ref)
  /-- The definition of an object that can be referred to. -/
  | defn (ref : Ref) (body : Obj)
  /-- The header, the object defined by the stream, and where its payload starts. -/
  | stream (header : Obj) (owner : Ref) (offset : Int)
  | endOfInput

namespace Obj

def isEnd : Obj → Bool
  | endOfInput => true
  | _ => false

def isStream : Obj → Bool
  | stream .. => true
  | _ => false

/-- A name equal to a keyword in text is no keyword. -/
def isKeyword (text : String) : Obj → Bool
  | keyword w => w == text
  | _ => false

/-- The value of an integer from zero up to a limit; a boolean is no integer. -/
def natural? (limit : Int) : Obj → Option Int
  | int n => if 0 ≤ n ∧ n < limit then some n else none
  | _ => none

/-- The text of a name, a keyword or a plain text. Two of these are equal as keys if their texts are. -/
def text? : Obj → Option String
  | name t => some t
  | keyword t => some t
  | text t => some t
  | _ => none

/-- Whether an object can be looked for as a key: not if it can change, nor if it holds what can. -/
def isHashable : Obj → Bool
  | array _ => false
  | dict _ => false
  | defn _ body => body.isHashable
  | stream header .. => header.isHashable
  | foreign kind => kind != "list" && kind != "dict"
  | _ => true

/-- Zero and whatever is empty count as false, with null and the end of the input. -/
def isTrue : Obj → Bool
  | null => false
  | bool b => b
  | int n => n != 0
  | real x => !x.isZero
  | str b => !b.isEmpty
  | name t => !t.isEmpty
  | keyword t => !t.isEmpty
  | text t => !t.isEmpty
  | foreign _ => true
  | array items => !items.isEmpty
  | dict entries => !entries.isEmpty
  | ref _ => true
  | defn .. => true
  | stream .. => true
  | endOfInput => false

end Obj
end PdfSyntax
