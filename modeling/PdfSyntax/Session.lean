import PdfSyntax.Reader.Object

/-!
# Sessions

A session is a sequence of operations on one reader. Each operation has an outcome or fails, and either
way the session goes on with the reader as the operation left it. A session may be confined to bytes, or
to bytes and tokens.
-/

set_option autoImplicit false

namespace PdfSyntax

/-- How much of a reader a session has at its disposal. -/
inductive Scope where
  | bytes
  | tokens
  | objects
deriving DecidableEq

/-- A change of the settings, or of the object at hand. -/
inductive Setting where
  | tolerant (value : Bool)
  | references (value : Bool)
  | streams (value : Bool)
  | algorithm (value : Algorithm)
  | key (value : Option Bytes)
  | context (value : Ref)

inductive Operation where
  | byte
  | bytes (count : Nat)
  | back
  | offset
  | seek (target : Int)
  | forward (target : Int)
  | push (token : Obj)
  | pop
  | token
  | tokens (count : Int)
  | tokenOr (fallback : Obj)
  | object
  | objectAt (target : Int)
  | objects
  | set (setting : Setting)
  /-- Makes a message of a template and its arguments. -/
  | tell (template : String) (arguments : List Obj)
  | record (level : Level) (template : String) (arguments : List Obj)
  | fail (template : String) (arguments : List Obj)

inductive Outcome where
  | nothing
  | number (value : Int)
  | bytes (value : Bytes)
  | text (value : Option String)
  | object (value : Option Obj)
  | objects (value : List Obj)

namespace Outcome

def isEnd : Outcome → Bool
  | object (some obj) => obj.isEnd
  | _ => false

end Outcome

namespace Operation

/-- The least scope that an operation belongs to. -/
def scope : Operation → Scope
  | token | tokens _ | tokenOr _ => .tokens
  | object | objectAt _ | objects => .objects
  | _ => .bytes

end Operation

/-- Whether an operation of the second scope belongs to the first. -/
def Scope.includes : Scope → Scope → Bool
  | .objects, _ => true
  | .tokens, s => s != .objects
  | .bytes, s => s == .bytes

namespace Reader
variable {σ : Type}

def set (setting : Setting) : Reading σ Unit :=
  modify fun r =>
    match setting with
    | .tolerant tolerant => { r with settings := { r.settings with tolerant } }
    | .references references => { r with settings := { r.settings with references } }
    | .streams streams => { r with settings := { r.settings with streams } }
    | .algorithm algorithm => { r with settings := { r.settings with algorithm } }
    | .key key => { r with settings := { r.settings with key } }
    | .context context => { r with context }

def tokenLimit : Int := 0x8000000000000000

variable [Cursor σ]

def perform : Operation → Reading σ Outcome
  | .byte => return .number (← byte).toNat
  | .bytes count => return .bytes (← bytes count)
  | .back => do back; return .nothing
  | .offset => return .number (← place)
  | .seek target => do seek target; return .nothing
  | .forward target => do forward target; return .nothing
  | .push token => do push token; return .nothing
  | .pop => return .object (← pop)
  | .token => return .object (some (← token))
  | .tokens count => do
    unless 0 ≤ count ∧ count < tokenLimit do throw (.tokenCount count)
    return .objects (← tokens count.toNat)
  | .tokenOr fallback => return .object (some (← tokenOr fallback))
  | .object => return .object (some (← object))
  | .objectAt target => return .object (some (← objectAt target))
  | .objects => return .objects (← objects)
  | .set setting => do set setting; return .nothing
  | .tell template arguments => return .text (← tell template (render template arguments))
  | .record level template arguments => do
    record level template (render template arguments)
    return .nothing
  | .fail template arguments => failWith template arguments

end Reader

/-- What there is to report about an operation: its outcome, what the reader told and deciphered during
it, and the reader afterwards. -/
structure Report (σ : Type) where
  outcome : Except Failure Outcome
  records : List Record
  requests : List Request
  reader : Reader σ

def Report.isEnd {σ : Type} (report : Report σ) : Bool :=
  match report.outcome with
  | .ok outcome => outcome.isEnd
  | .error _ => false

namespace Session
variable {σ : Type} [Cursor σ]

/-- Carries an operation out within a scope, with an empty journal. -/
def step (scope : Scope) (operation : Operation) (r : Reader σ) : Report σ :=
  let r := { r with records := [], requests := [] }
  if scope.includes operation.scope then
    match Reader.perform operation r with
    | .ok outcome r' => ⟨.ok outcome, r'.records, r'.requests, r'⟩
    | .error e r' => ⟨.error e, r'.records, r'.requests, r'⟩
  else ⟨.error .unsupported, [], [], r⟩

/-- Carries an operation out so many times, unless the end of the input comes out before. -/
def repeated (scope : Scope) (operation : Operation) : Nat → Reader σ → List (Report σ)
  | 0, _ => []
  | count + 1, r =>
    let report := step scope operation r
    if report.isEnd then [report] else report :: repeated scope operation count report.reader

/-- Carries out operations, each with the number of its repetitions. -/
def run (scope : Scope) : List (Operation × Nat) → Reader σ → List (Report σ)
  | [], _ => []
  | (operation, count) :: rest, r =>
    let reports := repeated scope operation count r
    reports ++ run scope rest (reports.getLast?.elim r Report.reader)

end Session
end PdfSyntax
