import PdfSyntax.Input.Cursor
import PdfSyntax.Lexer

/-!
# Readers

A reader takes tokens from a cursor. Tokens can be pushed back, and come out again before those that the
cursor yields, the latest first. The reader keeps the settings, the number of the object that is being
read, and a journal of what it has to tell; when quiet it tells nothing twice.
-/

set_option autoImplicit false

namespace PdfSyntax

structure Settings where
  /-- Whether the input may end anywhere. -/
  tolerant : Bool
  /-- Whether integers may begin references and definitions. -/
  references : Bool
  /-- Whether dictionaries may begin streams. -/
  streams : Bool
  /-- The key of an enciphered file. -/
  key : Option Bytes
  algorithm : Algorithm
deriving DecidableEq

inductive Level where
  | warning
  | error
deriving DecidableEq

/-- A message that did not interrupt the reading. -/
structure Record where
  level : Level
  text : String
deriving DecidableEq

/-- A string that was deciphered, or was to be. -/
structure Request where
  key : Bytes
  algorithm : Algorithm
  ref : Ref
  data : Bytes
deriving DecidableEq

abbrev Decipherment := Request → Except Failure Bytes

/-- The decipherment that the file format prescribes. -/
def Request.decrypt (request : Request) : Except Failure Bytes :=
  (StringCipher.decrypt request.algorithm request.key request.ref request.data).mapError .cipher

structure Reader (σ : Type) where
  cursor : σ
  /-- The tokens pushed back, the latest first. -/
  pending : List Obj
  settings : Settings
  /-- The object that is being read. -/
  context : Ref
  decrypt : Decipherment
  /-- The messages already told, if the reader is quiet. -/
  told : Option (List String)
  records : List Record
  requests : List Request

/-- An activity of a reader; what it did before a failure stays done. -/
abbrev Reading (σ : Type) := EStateM Failure (Reader σ)

namespace Reader
variable {σ α : Type}

/-- A reader with nothing pushed back, outside of any object. -/
def new (cursor : σ) (settings : Settings) (decrypt : Decipherment) (quiet : Bool) : Reader σ where
  cursor
  pending := []
  settings
  context := .null
  decrypt
  told := if quiet then some [] else none
  records := []
  requests := []

def getSettings : Reading σ Settings := fun r =>
  .ok r.settings r

def getContext : Reading σ Ref := fun r =>
  .ok r.context r

def onCursor (activity : EStateM Failure σ α) : Reading σ α := fun r =>
  match activity r.cursor with
  | .ok a cursor => .ok a { r with cursor }
  | .error e cursor => .error e { r with cursor }

def push (token : Obj) : Reading σ Unit :=
  modify fun r => { r with pending := token :: r.pending }

def pop : Reading σ (Option Obj) :=
  modifyGet fun r =>
    match r.pending with
    | [] => (none, r)
    | token :: pending => (some token, { r with pending })

/-- Does something as part of an object, and returns to the object at hand afterwards. -/
def within (ref : Ref) (activity : Reading σ α) : Reading σ α := fun r =>
  match activity { r with context := ref } with
  | .ok a r' => .ok a { r' with context := r.context }
  | .error e r' => .error e { r' with context := r.context }

/-- Deciphers a string if it is part of an object of an enciphered file. -/
def decipher (data : Bytes) : Reading σ Bytes := fun r =>
  match r.settings.key with
  | none => .ok data r
  | some key =>
    if r.context.id = 0 then .ok data r
    else
      let request : Request := ⟨key, r.settings.algorithm, r.context, data⟩
      let r' := { r with requests := r.requests ++ [request] }
      match r.decrypt request with
      | .ok plain => .ok plain r'
      | .error e => .error e r'

/-- Whether a message is to be told: always, unless the reader is quiet and has told it already. -/
def isNews (message : String) : Reading σ Bool :=
  modifyGet fun r =>
    match r.told with
    | none => (true, r)
    | some told =>
      if told.contains message then (false, r) else (true, { r with told := some (message :: told) })

/-- The text of a message. -/
def render (template : String) (arguments : List Obj) : Except Failure String :=
  (Template.render template arguments).mapError .template

variable [Cursor σ]

/-- The offset of the next byte. -/
def place : Reading σ Int := fun r =>
  .ok (Cursor.offset r.cursor) r

/-- Fails with a mistake at the place reached, once its message is made. -/
def fail (fault : Fault) : Reading σ α := do
  discard <| MonadExcept.ofExcept (fault.message.mapError .template)
  throw (.malformed fault (← place))

/-- Fails with a mistake that a caller has found at the place reached. -/
def failWith (template : String) (arguments : List Obj) : Reading σ α := do
  let text ← MonadExcept.ofExcept (render template arguments)
  throw (.custom text (← place))

/-- A message about the place reached, unless a quiet reader has already told the same. What counts as
the same is the message before its arguments are put in. -/
def tell (message : String) (text : Except Failure String) : Reading σ (Option String) := do
  if ← isNews message then return some (located (← MonadExcept.ofExcept text) (← place))
  else return none

def record (level : Level) (message : String) (text : Except Failure String) : Reading σ Unit := do
  if let some text ← tell message text then
    modify fun r => { r with records := r.records ++ [⟨level, text⟩] }

/-- Takes the bytes of one token. At a tolerated end the lexer may go on, and asks for a byte once more. -/
def lex (tolerant : Bool) (state : Lexer.State) : EStateM Failure σ Lexer.Verdict := fun c =>
  match _h : Cursor.next tolerant c with
  | .error e c' => .error e c'
  | .ok none c' =>
    match _hfill : state.fill with
    | .more state' => lex tolerant state' c'
    | .done verdict | .doneBefore verdict => .ok verdict c'
  | .ok (some b) c' =>
    match state.take (Cursor.isEnded c') b with
    | .more state' => lex tolerant state' c'
    | .done verdict => .ok verdict c'
    | .doneBefore verdict => .ok verdict (Cursor.back c')
termination_by c => 3 * Cursor.left c + state.patience
decreasing_by
  · have hpatience := Lexer.State.patience_lt_of_fill ‹_›
    have hleft := Cursor.left_end ‹_›
    omega
  · have hpatience := Lexer.State.patience_lt ‹_›
    have hleft := Cursor.left_next ‹_›
    omega

def cutShortMessage : String :=
  "Unterminated literal string"

def token : Reading σ Obj := do
  match ← pop with
  | some token => return token
  | none =>
    match ← onCursor (lex (← getSettings).tolerant .gap) with
    | .token token => return token
    | .fault fault => fail fault
    | .cutShort string =>
      record .warning cutShortMessage (.ok cutShortMessage)
      return .str string

/-- Up to so many tokens, as far as the end of the input. -/
def tokens : Nat → Reading σ (List Obj)
  | 0 => return []
  | count + 1 => do
    let token ← token
    if token.isEnd then return [] else return token :: (← tokens count)

/-- The next token, or the given one at the end of the input. -/
def tokenOr (fallback : Obj) : Reading σ Obj := do
  let token ← token
  return if token.isEnd then fallback else token

def byte? : Reading σ (Option UInt8) := do
  onCursor (Cursor.next (← getSettings).tolerant)

/-- The next byte; a tolerated end counts as a line feed. -/
def byte : Reading σ UInt8 := do
  return (← byte?).getD Byte.lineFeed

def bytes : Nat → Reading σ Bytes
  | 0 => return []
  | count + 1 => return (← byte) :: (← bytes count)

def back : Reading σ Unit :=
  modify fun r => { r with cursor := Cursor.back r.cursor }

/-- Goes to an offset; no token stays pushed back. -/
def seek (target : Int) : Reading σ Unit := do
  modify fun r => { r with pending := [] }
  onCursor (Cursor.seek target)

def forward (target : Int) : Reading σ Unit := do
  onCursor (Cursor.forward (← getSettings).tolerant target)

end Reader
end PdfSyntax
