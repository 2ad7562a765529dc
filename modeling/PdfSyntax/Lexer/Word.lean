import PdfSyntax.Failure

/-!
# Words

A run of regular bytes that starts no other token is a boolean, a number or a keyword. Integers must fit
into 64 bits with a sign. Reals have a decimal point, with at least one digit on one of its sides, and
no exponent.
-/

set_option autoImplicit false

namespace PdfSyntax.Word

inductive Meaning where
  | bool (value : Bool)
  | int (value : Int)
  | real (value : Binary64)
  | keyword
  | integerRange
  | emptyReal
deriving DecidableEq

def minus : UInt8 := 0x2d
def plus : UInt8 := 0x2b
def point : UInt8 := 0x2e

def isDigit (b : UInt8) : Bool :=
  (Byte.decimalValue? b).isSome

/-- Whether a minus sign is in front, and the bytes behind the sign if there is one. -/
def splitSign : Bytes → Bool × Bytes
  | [] => (false, [])
  | b :: rest => if b == minus then (true, rest) else if b == plus then (false, rest) else (false, b :: rest)

def natural (digits : Bytes) : Nat :=
  Nat.ofDigitChars 10 (digits.map Latin1.char) 0

def isInt64 (n : Int) : Bool :=
  decide (-0x8000000000000000 ≤ n ∧ n < 0x8000000000000000)

/-- The real that digits before and after a decimal point spell. -/
def real (negative : Bool) (before after : Bytes) : Binary64 :=
  .ofRank negative (Binary64.rankOfRatio (natural (before ++ after)) (Nat.pow 10 after.length))

def readUnsigned (negative : Bool) (word : Bytes) : Meaning :=
  let before := word.takeWhile isDigit
  match word.dropWhile isDigit with
  | [] =>
    if before.isEmpty then .keyword
    else
      let value : Int := if negative then -natural before else natural before
      if isInt64 value then .int value else .integerRange
  | b :: after =>
    if b == point && after.all isDigit then
      if before.isEmpty && after.isEmpty then .emptyReal else .real (real negative before after)
    else .keyword

def read (word : Bytes) : Meaning :=
  if word = Latin1.ascii "true" then .bool true
  else if word = Latin1.ascii "false" then .bool false
  else
    let (negative, rest) := splitSign word
    readUnsigned negative rest

end PdfSyntax.Word
