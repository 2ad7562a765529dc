import PdfSyntax.Lexer.Word

/-!
# The lexer

The lexer takes the bytes of one token, one after another, with the white bytes and comments in front of
it. `State.step` tells whether it needs more bytes or is done, and then whether the last byte was part of
the token. A tolerated end counts as a line feed, and the source may be asked again after it. Some states
are affected by having met the end, whether a byte comes after it (`State.stepLate`) or the line feed
that stands for it (`State.fill`). What has been read of a string or a word is kept with the latest byte
first.
-/

set_option autoImplicit false

namespace PdfSyntax.Lexer

/-- How far the lexer has come in a token. -/
inductive State where
  /-- In front of the token. -/
  | gap
  | comment
  /-- After a byte that is a token of its own only if it is doubled. -/
  | less
  | greater
  | hex (read : Bytes)
  /-- After the first digit of a pair, or whatever stands in its place. -/
  | hexHalf (read : Bytes) (first : UInt8)
  /-- In a literal string, inside so many further parentheses. -/
  | literal (depth : Nat) (read : Bytes)
  | escape (depth : Nat) (read : Bytes)
  /-- After an escaped carriage return, with which a line feed belongs. -/
  | escapedReturn (depth : Nat) (read : Bytes)
  | octal (depth : Nat) (read : Bytes) (value digits : Nat)
  | name (read : Bytes)
  | nameEscape (read : Bytes)
  | nameEscapeHalf (read : Bytes) (first : UInt8)
  | word (read : Bytes)

inductive Verdict where
  | token (token : Obj)
  | fault (fault : Fault)
  /-- A literal string that the end of the input cuts short. -/
  | cutShort (string : Bytes)

inductive Action where
  | more (state : State)
  | done (verdict : Verdict)
  /-- The token ends before the byte. -/
  | doneBefore (verdict : Verdict)

def Verdict.ofWord (word : Bytes) : Verdict :=
  match Word.read word with
  | .bool b => .token (.bool b)
  | .int n => .token (.int n)
  | .real x => .token (.real x)
  | .keyword => .token (.keyword (Latin1.decode word))
  | .integerRange => .fault (.integerRange (Latin1.decode word))
  | .emptyReal => .fault (.emptyReal (Latin1.decode word))

def Verdict.keyword (text : String) : Verdict :=
  .token (.keyword text)

/-- The byte that an escape stands for: an ASCII control after its letter, or a byte with a meaning of its
own in literal strings. -/
def escaped? (b : UInt8) : Option UInt8 :=
  if b == 0x6e then some 0x0a
  else if b == 0x72 then some 0x0d
  else if b == 0x62 then some 0x08
  else if b == 0x74 then some 0x09
  else if b == 0x66 then some 0x0c
  else if b == Byte.leftParen || b == Byte.rightParen || b == Byte.backslash then some b
  else none

namespace State

def start (b : UInt8) : Action :=
  if b == Byte.less then .more less
  else if b == Byte.greater then .more greater
  else if b == Byte.leftParen then .more (literal 0 [])
  else if b == Byte.rightParen then .done (.fault (.unexpectedDelimiter b))
  else if b == Byte.slash then .more (name [])
  else if Byte.isDelimiter b then .done (.keyword (Latin1.decode [b]))
  else .more (word [b])

/-- The byte of a pair of hexadecimal digits, of which each is looked up after both were tested. -/
def hexPair (first second : UInt8) (next : UInt8 → State) (fault : Fault) : Action :=
  if Byte.isHexDigit first && Byte.isHexDigit second then
    match Byte.hexValue? first with
    | none => .done (.fault (.noDigit first))
    | some high =>
      match Byte.hexValue? second with
      | none => .done (.fault (.noDigit second))
      | some low => .more (next (high * 16 + low))
  else .done (.fault fault)

def hexByte (read : Bytes) (b : UInt8) : Action :=
  if Byte.isWhite b then .more (hex read)
  else if b == Byte.greater then .done (.token (.str read.reverse))
  else .more (hexHalf read b)

def literalByte (depth : Nat) (read : Bytes) (b : UInt8) : Action :=
  if b == Byte.leftParen then .more (literal (depth + 1) (b :: read))
  else if b == Byte.rightParen then
    match depth with
    | 0 => .done (.token (.str read.reverse))
    | depth + 1 => .more (literal depth (b :: read))
  else if b == Byte.backslash then .more (escape depth read)
  else .more (literal depth (b :: read))

def escapeByte (depth : Nat) (read : Bytes) (b : UInt8) : Action :=
  match escaped? b with
  | some c => .more (literal depth (c :: read))
  | none =>
    if b == Byte.carriageReturn then .more (escapedReturn depth read)
    else if b == Byte.lineFeed then .more (literal depth read)
    else
      match Byte.octalValue? b with
      | some value => .more (octal depth read value 1)
      | none => .done (.fault (.unknownEscape b))

/-- A byte after octal digits: one more of them, or one that follows the escaped byte. -/
def octalByte (depth : Nat) (read : Bytes) (value digits : Nat) (b : UInt8) : Action :=
  match Byte.octalValue? b with
  | none => literalByte depth (UInt8.ofNat value :: read) b
  | some digit =>
    let value := 8 * value + digit
    if digits < 2 then .more (octal depth read value (digits + 1))
    else if 255 < value then .done (.fault (.octalOverflow value))
    else .more (literal depth (UInt8.ofNat value :: read))

def nameByte (read : Bytes) (b : UInt8) : Action :=
  if b == Byte.hash then .more (nameEscape read)
  else if Byte.isRegular b then .more (name (b :: read))
  else .doneBefore (.token (.name (Latin1.decode read.reverse)))

def step : State → UInt8 → Action
  | gap, b =>
    if Byte.isWhite b then .more gap
    else if b == Byte.percent then .more comment
    else start b
  | comment, b => if Byte.isLineEnd b then .more gap else .more comment
  | less, b => if b == Byte.less then .done (.keyword "<<") else hexByte [] b
  | greater, b =>
    if b == Byte.greater then .done (.keyword ">>")
    else .doneBefore (.fault (.unexpectedDelimiter Byte.greater))
  | hex read, b => hexByte read b
  | hexHalf read first, b =>
    if Byte.isWhite b then .more (hexHalf read first)
    else hexPair first b (fun c => hex (c :: read)) (.malformedHex first b)
  | literal depth read, b => literalByte depth read b
  | escape depth read, b => escapeByte depth read b
  | escapedReturn depth read, b =>
    if b == Byte.lineFeed then .more (literal depth read) else literalByte depth read b
  | octal depth read value digits, b => octalByte depth read value digits b
  | name read, b => nameByte read b
  | nameEscape read, b => .more (nameEscapeHalf read b)
  | nameEscapeHalf read first, b => hexPair first b (fun c => name (c :: read)) .malformedName
  | word read, b =>
    if Byte.isRegular b then .more (word (b :: read))
    else .doneBefore (.ofWord read.reverse)

/-- A byte of a hexadecimal string after a tolerated end, where white bytes count like any others. -/
def lateHexByte (read : Bytes) (b : UInt8) : Action :=
  if b == Byte.greater then .done (.token (.str read.reverse)) else .more (hexHalf read b)

/-- A step with a byte that comes after a tolerated end. A gap ends there, and so do strings, the byte
included; but what an escape in a literal string stands for is still read. -/
def stepLate : State → UInt8 → Action
  | gap, b => if Byte.isWhite b then .done (.token .endOfInput) else gap.step b
  | comment, b => if Byte.isLineEnd b then .done (.token .endOfInput) else .more comment
  | less, b => if b == Byte.less then .done (.keyword "<<") else lateHexByte [] b
  | hex read, b => lateHexByte read b
  | hexHalf _ _, _ => .done (.fault .unterminatedHex)
  | literal _ read, _ => .done (.cutShort read.reverse)
  | escapedReturn depth read, b =>
    if b == Byte.lineFeed then .more (literal depth read) else .done (.cutShort read.reverse)
  | octal depth read value digits, b =>
    if (Byte.octalValue? b).isSome then octalByte depth read value digits b
    else .done (.cutShort (UInt8.ofNat value :: read).reverse)
  | state, b => state.step b

/-- A step, which depends on whether a tolerated end was met. -/
def take (isEnded : Bool) (state : State) (b : UInt8) : Action :=
  if isEnded then state.stepLate b else state.step b

/-- A step with the line feed that stands for a tolerated end. It cannot be given back: where a byte would be
looked at for a second time, the source is asked again. -/
def fill : State → Action
  | less => .more (hex [])
  | octal depth read value _ => .more (literal depth (UInt8.ofNat value :: read))
  | state => state.stepLate Byte.lineFeed

/-- How often the end can be met before the lexer is done. -/
def patience : State → Nat
  | less => 2
  | hex _ | escape .. | escapedReturn .. | octal .. | nameEscape _ => 1
  | _ => 0

theorem patience_lt (state : State) : state.patience < 3 := by
  cases state <;> simp [patience]

theorem patience_lt_of_fill {state state' : State} (h : state.fill = .more state') :
    state'.patience < state.patience := by
  cases state <;>
    simp +decide [fill, stepLate, lateHexByte, step, escapeByte, escaped?, nameByte, hexPair] at h
  all_goals subst h; exact Nat.lt_succ_self _

end State
end PdfSyntax.Lexer
