import PdfSyntax.Decimal.Rounded
import PdfSyntax.Obj.Display

/-!
# Templates of messages

A template is a text with fields. A field is a percent sign, flags, a width, a precision behind a point,
a letter that tells a size and is passed over, and a letter for the way its argument is shown: `s`
plainly, `r` with its kind and `a` so in ASCII, `d`, `i` and `u` in base ten, `o`, `x` and `X` in the
bases eight and sixteen, `c` as one character, and `e`, `f` and `g`, also as capitals, as a real. A star
in place of the width or the precision takes an argument of its own. Two percent signs stand for one.
There must be exactly one argument for each that is taken.
-/

set_option autoImplicit false

namespace PdfSyntax.Template

inductive Fault where
  | tooFew
  | tooMany
  /-- A field that asks for its argument by name. -/
  | named
  /-- A number was needed. -/
  | notNumber (argument : Obj)
  /-- A number that stands for no whole number. -/
  | notWhole
  | infinite
  /-- A character was needed, or its number. -/
  | notCharacter (argument : Obj)
  /-- A number was too large for its purpose. -/
  | outOfRange
  | sizeLimit
  | unknownField (letter : Char)
  | incomplete

def Fault.message : Fault → String
  | .tooFew => "not enough arguments for the template"
  | .tooMany => "not all arguments were used by the template"
  | .named => "an argument is asked for by name"
  | .notNumber argument => "a number is required, not " ++ argument.display
  | .notWhole => "no whole number"
  | .infinite => "infinity is no whole number"
  | .notCharacter argument => "a character is required, not " ++ argument.display
  | .outOfRange => "a number is out of range"
  | .sizeLimit => "a width or a precision is too large"
  | .unknownField letter => "unknown field " ++ Quoted.text letter.toString
  | .incomplete => "incomplete field"

/-- A width or a precision. -/
inductive Size where
  | none
  | given (value : Nat)
  /-- The next argument tells it. -/
  | taken

def widthLimit : Nat := 0x8000000000000000

def precisionLimit : Nat := 0x80000000

/-- The value of a size, which may come from the arguments, and the other arguments. -/
def Size.take (limit : Nat) : Size → List Obj → Except Fault (Option Int × List Obj)
  | .none, arguments => .ok (Option.none, arguments)
  | .given n, arguments => if n < limit then .ok (some n, arguments) else .error .sizeLimit
  | .taken, [] => .error .tooFew
  | .taken, argument :: arguments => do
    let n ←
      match argument with
      | .int n => .ok n
      | .bool b => .ok b.toInt
      | _ => .error (.notNumber argument)
    if -limit ≤ n ∧ n < limit then .ok (some n, arguments) else .error .outOfRange

structure Flags where
  /-- Whether the text is put to the left of its width. -/
  left : Bool := false
  plus : Bool := false
  blank : Bool := false
  /-- Whether a base is told, or a point stands in any case. -/
  alternate : Bool := false
  zeros : Bool := false

def Flags.add? (flags : Flags) (c : Char) : Option Flags :=
  match c with
  | '-' => some { flags with left := true }
  | '+' => some { flags with plus := true }
  | ' ' => some { flags with blank := true }
  | '#' => some { flags with alternate := true }
  | '0' => some { flags with zeros := true }
  | _ => none

structure Field where
  flags : Flags := {}
  width : Size := .none
  precision : Size := .none

/-- The part of a field that was read last. -/
inductive Stage where
  | percent
  | flags
  | width
  | star
  | point
  | precision
  | precisionStar
  | size
deriving DecidableEq

namespace Field

/-- A number with one more digit. -/
def push (digit : Char) : Size → Size
  | .given n => .given (Nat.ofDigitChars 10 [digit] n)
  | _ => .given (Nat.ofDigitChars 10 [digit] 0)

def readSize (field : Field) (c : Char) : Option (Stage × Field) :=
  if c == 'h' || c == 'l' || c == 'L' then some (.size, field) else none

def readPoint (field : Field) (c : Char) : Option (Stage × Field) :=
  if c == '.' then some (.point, { field with precision := .given 0 }) else field.readSize c

def readWidth (field : Field) (c : Char) : Option (Stage × Field) :=
  if c == '*' then some (.star, { field with width := .taken })
  else if c.isDigit then some (.width, { field with width := push c field.width })
  else field.readPoint c

/-- The field with one more character, unless the character is its letter. -/
def read (field : Field) (stage : Stage) (c : Char) : Option (Stage × Field) :=
  match stage with
  | .percent | .flags =>
    match field.flags.add? c with
    | some flags => some (.flags, { field with flags })
    | none => field.readWidth c
  | .width =>
    if c.isDigit then some (.width, { field with width := push c field.width })
    else field.readPoint c
  | .star => field.readPoint c
  | .point =>
    if c == '*' then some (.precisionStar, { field with precision := .taken })
    else if c.isDigit then some (.precision, { field with precision := push c field.precision })
    else field.readSize c
  | .precision =>
    if c.isDigit then some (.precision, { field with precision := push c field.precision })
    else field.readSize c
  | .precisionStar => field.readSize c
  | .size => none

end Field

/-- How the text of an argument is laid out. -/
structure Layout where
  flags : Flags
  width : Nat
  precision : Option Nat

/-- The layout that a field asks for, and the arguments that it leaves. A negative width is one to the
left, but for the least one, which has no counterpart; a negative precision counts as zero. -/
def Field.layout (field : Field) (arguments : List Obj) : Except Fault (Layout × List Obj) := do
  let (width, arguments) ← field.width.take widthLimit arguments
  let (precision, arguments) ← field.precision.take precisionLimit arguments
  let left := field.flags.left || width.any (· < 0)
  return (⟨{ field.flags with left }, (width.getD 0).natAbs % widthLimit, precision.map Int.toNat⟩, arguments)

namespace Layout
variable (layout : Layout)

/-- What is missing of the width stands behind the text, or in front of it, or as zeros behind its sign
and its base. -/
def fill (zeros : Bool) (sign base text : List Char) : List Char :=
  let missing := layout.width - (sign.length + base.length + text.length)
  if layout.flags.left then sign ++ base ++ text ++ List.replicate missing ' '
  else if zeros then sign ++ base ++ List.replicate missing '0' ++ text
  else List.replicate missing ' ' ++ sign ++ base ++ text

/-- A text, of which the precision tells how much is shown. -/
def text (s : String) : List Char :=
  layout.fill false [] [] (layout.precision.elim s.toList s.toList.take)

def number (isNegative : Bool) (base digits : List Char) : List Char :=
  let sign :=
    if isNegative then ['-'] else if layout.flags.plus then ['+']
    else if layout.flags.blank then [' '] else []
  layout.fill layout.flags.zeros sign base digits

/-- A whole number with as many digits as the precision asks for at least. -/
def whole (base : Nat) (mark : List Char) (n : Int) : Except Fault (List Char) :=
  let count := layout.precision.getD 0
  if precisionLimit ≤ count + 3 then .error .outOfRange
  else
    .ok (layout.number (decide (n < 0)) (if layout.flags.alternate then mark else [])
      (Numeral.natural base count n.natAbs))

/-- A real, written in one of the ways of `Decimal`, with six digits unless there is a precision. -/
def real (write : Bool → Nat → Nat → List Char) (x : Binary64) : List Char :=
  if x.isNaN then layout.number false [] "nan".toList
  else if x.isFinite then
    layout.number x.isNegative [] (write layout.flags.alternate (layout.precision.getD 6) x.rank)
  else layout.number x.isNegative [] "inf".toList

end Layout

/-- The whole number that an argument is. -/
def index : Obj → Except Fault Int
  | .int n => .ok n
  | .bool b => .ok b.toInt
  | obj => .error (.notNumber obj)

/-- The whole number that an argument stands for, without its fraction. -/
def whole : Obj → Except Fault Int
  | .real x =>
    if x.isNaN then .error .notWhole
    else if x.isFinite then .ok (if x.isNegative then -x.wholePart else x.wholePart)
    else .error .infinite
  | obj => index obj

/-- The real that an argument stands for. -/
def real : Obj → Except Fault Binary64
  | .real x => .ok x
  | obj => do
    let n ← index obj
    let x := Binary64.ofRank (n < 0) (Binary64.rankOfRatio n.natAbs 1)
    if x.isFinite then .ok x else .error .outOfRange

/-- The character that an argument is, or the character with its number. -/
def character (argument : Obj) : Except Fault Char :=
  match argument.text? with
  | some s =>
    match s.toList with
    | [c] => .ok c
    | _ => .error (.notCharacter argument)
  | none =>
    match index argument with
    | .ok n => if 0 ≤ n ∧ n < 0x110000 then .ok (Char.ofNat n.toNat) else .error .outOfRange
    | .error _ => .error (.notCharacter argument)

/-- A text in which the characters beyond ASCII are escaped. -/
def ascii (s : String) : String :=
  String.ofList (s.toList.flatMap fun c => if c.toNat < 0x80 then [c] else '\\' :: Quoted.numbered c)

/-- An argument as the letter of its field asks for it. -/
def convert (layout : Layout) (letter : Char) (argument : Obj) : Except Fault (List Char) :=
  match letter with
  | 's' => .ok (layout.text argument.plain)
  | 'r' => .ok (layout.text argument.display)
  | 'a' => .ok (layout.text (ascii argument.display))
  | 'd' | 'i' | 'u' => do layout.whole 10 [] (← whole argument)
  | 'o' => do layout.whole 8 ['0', 'o'] (← index argument)
  | 'x' => do layout.whole 16 ['0', 'x'] (← index argument)
  | 'X' => do return (← layout.whole 16 ['0', 'x'] (← index argument)).map Char.toUpper
  | 'c' => do return layout.fill false [] [] [← character argument]
  | 'e' => do return layout.real Decimal.exponential (← real argument)
  | 'E' => do return (layout.real Decimal.exponential (← real argument)).map Char.toUpper
  | 'f' => do return layout.real Decimal.fixed (← real argument)
  | 'F' => do return (layout.real Decimal.fixed (← real argument)).map Char.toUpper
  | 'g' => do return layout.real Decimal.general (← real argument)
  | 'G' => do return (layout.real Decimal.general (← real argument)).map Char.toUpper
  | _ => .error (.unknownField letter)

inductive Part where
  | char (c : Char)
  | field (field : Field) (letter : Char)
  | named
  /-- A field that the end of the template cuts short. -/
  | cut (field : Field)

/-- What a field comes to with its letter. Right behind the percent sign a second one stands for itself,
and a parenthesis opens a name. -/
def Part.ofLetter (stage : Stage) (field : Field) (letter : Char) : Part :=
  if stage == .percent && letter == '%' then .char '%'
  else if stage == .percent && letter == '(' then .named
  else .field field letter

/-- Splits a template into its parts; inside a field, what has been read of it is known. -/
def parts : Option (Stage × Field) → List Char → List Part
  | none, [] => []
  | some (_, field), [] => [.cut field]
  | none, c :: rest => if c == '%' then parts (some (.percent, {})) rest else .char c :: parts none rest
  | some (stage, field), c :: rest =>
    match field.read stage c with
    | some next => parts (some next) rest
    | none => Part.ofLetter stage field c :: parts none rest

/-- Replaces the fields by the arguments, in order. -/
def fillParts : List Part → List Obj → Except Fault (List Char)
  | [], [] => .ok []
  | [], _ :: _ => .error .tooMany
  | .char c :: rest, arguments => return c :: (← fillParts rest arguments)
  | .named :: _, _ => .error .named
  | .cut field :: _, arguments => do
    let _ ← field.layout arguments
    .error .incomplete
  | .field field letter :: rest, arguments => do
    let (layout, arguments) ← field.layout arguments
    match arguments with
    | [] => .error .tooFew
    | argument :: arguments => return (← convert layout letter argument) ++ (← fillParts rest arguments)

/-- The text of a template with arguments; without arguments a template is its own text. -/
def render (template : String) (arguments : List Obj) : Except Fault String :=
  if arguments.isEmpty then .ok template
  else (fillParts (parts none template.toList) arguments).map String.ofList

end PdfSyntax.Template
