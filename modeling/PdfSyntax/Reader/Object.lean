import PdfSyntax.Obj.Dict
import PdfSyntax.Reader

/-!
# Reading objects

An object is a token, or tokens in brackets with objects between them. An integer may begin a reference
or a definition, and a dictionary may be the header of a stream; to tell, the reader looks ahead, and
pushes back what it does not use. A bound on the nesting is computed from what is left to read.
-/

set_option autoImplicit false

namespace PdfSyntax.Reader

variable {σ : Type}

inductive Suffix where
  /-- Nothing but itself. -/
  | nothing
  | reference (ref : Ref)
  | definition (ref : Ref)

def valuelessMessage : String :=
  "dictionary key /%s has no value"

def loneReturnMessage : String :=
  "stream keyword terminated by \\r without \\n"

variable [Cursor σ]

def suffix (id : Int) : Reading σ Suffix := do
  let second ← token
  match second.natural? Ref.genLimit with
  | none =>
    push second
    return .nothing
  | some gen =>
    let third ← token
    if third.isKeyword "R" then return .reference ⟨id, gen⟩
    else if third.isKeyword "obj" then return .definition ⟨id, gen⟩
    else
      push third
      push second
      return .nothing

/-- Reads the end of the line after which the payload of a stream starts. -/
def streamStart : Reading σ Unit := do
  let first ← byte
  if first == Byte.carriageReturn then
    let second ← byte
    if second != Byte.lineFeed then
      back
      record .warning loneReturnMessage (.ok loneReturnMessage)
  else if first != Byte.lineFeed then fail .streamLineEnd

/-- A dictionary, or the stream whose header it is. -/
def dictOrStream (entries : Dict) : Reading σ Obj := do
  if (← getSettings).streams then
    let next ← token
    if next.isKeyword "stream" then
      streamStart
      return .stream (.dict entries) (← getContext) (← place)
    else
      push next
      return .dict entries
  else return .dict entries

/-- The object that begins with a token, as far as there are ways to read definitions and the insides of
brackets. -/
def objectFrom (definition : Ref → Reading σ Obj) (array dict : Reading σ Obj) : Obj → Reading σ Obj
  | .keyword text =>
    if text = "null" then return .null
    else if text = "<<" then dict
    else if text = "[" then array
    else fail (.unexpectedKeyword text)
  | .str data => return .str (← decipher data)
  | .int n => do
    if (← getSettings).references ∧ 0 ≤ n ∧ n < Ref.idLimit then
      match ← suffix n with
      | .nothing => return .int n
      | .reference ref => return .ref ref
      | .definition ref => within ref (definition ref)
    else return .int n
  | token => return token

/-- What is done where an array or a dictionary begins, right behind its bracket. -/
abbrev Opening (σ : Type) := String → Reading σ Unit

/-- Nothing is done. -/
def Opening.none : Opening σ := fun _ => return

namespace Opening
variable (opening : Opening σ)

mutual

/-- The next object, with a bound on the depth of calls. -/
def object : Nat → Reading σ Obj
  | 0 => throw .exhausted
  | bound + 1 => do
    objectFrom (fun ref => definition bound ref)
      (do opening "["; array bound []) (do opening "<<"; dict bound []) (← token)

/-- The object of a definition, and the end of the definition. A stream ends elsewhere. -/
def definition : Nat → Ref → Reading σ Obj
  | 0, _ => throw .exhausted
  | bound + 1, ref => do
    let body ← object bound
    if body.isStream then return .defn ref body
    else
      let next ← token
      if next.isKeyword "endobj" then return .defn ref body
      else
        push next
        fail (.missingEnd ref)

/-- The rest of an array, after the given items, the latest first. -/
def array : Nat → List Obj → Reading σ Obj
  | 0, _ => throw .exhausted
  | bound + 1, items => do
    let next ← token
    if next.isEnd || next.isKeyword "]" then return .array items.reverse
    else
      push next
      let item ← object bound
      array bound (item :: items)

def dict : Nat → Dict → Reading σ Obj
  | 0, _ => throw .exhausted
  | bound + 1, entries => do
    let next ← token
    if next.isEnd || next.isKeyword ">>" then dictOrStream entries
    else
      match next with
      | .name name =>
        let value ← object bound
        if value.isEnd then
          record .warning valuelessMessage (render valuelessMessage [.name name])
          dictOrStream entries
        else dict bound (insertEntry name value entries)
      | _ => fail (.nonNameKey next)

end
end Opening

section Bounded
variable (bound : Nat)

def objectWithin : Reading σ Obj :=
  Opening.none.object bound

def definitionWithin (ref : Ref) : Reading σ Obj :=
  Opening.none.definition bound ref

def arrayWithin (items : List Obj) : Reading σ Obj :=
  Opening.none.array bound items

def dictWithin (entries : Dict) : Reading σ Obj :=
  Opening.none.dict bound entries

theorem objectWithin_succ : objectWithin (σ := σ) (bound + 1) =
    token >>= objectFrom (definitionWithin bound) (arrayWithin bound []) (dictWithin bound []) := rfl

end Bounded

/-- What tokens pushed back weigh: the end of the input half as much as any other token. -/
def pendingWeight : List Obj → Nat
  | [] => 0
  | token :: rest => (if token.isEnd then 1 else 2) + pendingWeight rest

/-- A weight that every object read makes less, though tokens may be pushed back meanwhile. A byte still to
come weighs as much as a token pushed back. -/
def weight (r : Reader σ) : Nat :=
  2 * Cursor.left r.cursor + pendingWeight r.pending

namespace Opening
variable (opening : Opening σ)

def next : Reading σ Obj := do
  opening.object (2 * (← get).weight + 2)

def objectsWithin : Nat → Reading σ (List Obj)
  | 0 => throw .exhausted
  | bound + 1 => do
    let object ← opening.next
    if object.isEnd then return [] else return object :: (← objectsWithin bound)

def objects : Reading σ (List Obj) := do
  opening.objectsWithin ((← get).weight + 1)

end Opening

def object : Reading σ Obj :=
  Opening.none.next

def objectAt (target : Int) : Reading σ Obj := do
  seek target
  object

def objectsWithin (bound : Nat) : Reading σ (List Obj) :=
  Opening.none.objectsWithin bound

def objects : Reading σ (List Obj) :=
  Opening.none.objects

end PdfSyntax.Reader
