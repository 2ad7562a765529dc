import PdfSyntax.Byte

/-!
# AES in cipher block chaining

Bytes are polynomials over two elements modulo a polynomial of degree eight. A block is four columns of
four bytes. A round replaces every byte, moves the rows, combines the bytes of each column, and adds a
round key; the last round leaves the columns as they are. Each of these has an inverse, and deciphering
applies the inverses in the opposite order. In a chain each block is added to the enciphered block
before it.
-/

set_option autoImplicit false

namespace PdfSyntax.Aes

section Field

/-- Multiplication by the polynomial of degree one. -/
def double (b : UInt8) : UInt8 :=
  if b &&& 0x80 = 0 then b <<< 1 else (b <<< 1) ^^^ 0x1b

/-- The product with the lowest bits of the second factor. -/
def mulBits : Nat → UInt8 → UInt8 → UInt8
  | 0, _, _ => 0
  | bits + 1, a, b => (if b &&& 1 = 0 then 0 else a) ^^^ mulBits bits (double a) (b >>> 1)

def mul (a b : UInt8) : UInt8 :=
  mulBits 8 a b

/-- The inverse, as the power 254; zero for zero. -/
def inverse (a : UInt8) : UInt8 :=
  let a2 := mul a a
  let a4 := mul a2 a2
  let a8 := mul a4 a4
  let a16 := mul a8 a8
  let a32 := mul a16 a16
  let a64 := mul a32 a32
  let a128 := mul a64 a64
  mul a2 (mul a4 (mul a8 (mul a16 (mul a32 (mul a64 a128)))))

def rotateLeft (b amount : UInt8) : UInt8 :=
  (b <<< amount) ||| (b >>> (8 - amount))

def substitute (b : UInt8) : UInt8 :=
  let c := inverse b
  c ^^^ rotateLeft c 1 ^^^ rotateLeft c 2 ^^^ rotateLeft c 3 ^^^ rotateLeft c 4 ^^^ 0x63

def restore (b : UInt8) : UInt8 :=
  inverse (rotateLeft b 1 ^^^ rotateLeft b 3 ^^^ rotateLeft b 6 ^^^ 0x05)

end Field

structure Column where
  r0 : UInt8
  r1 : UInt8
  r2 : UInt8
  r3 : UInt8
deriving DecidableEq

namespace Column
variable (c d : Column)

def map (f : UInt8 → UInt8) : Column :=
  ⟨f c.r0, f c.r1, f c.r2, f c.r3⟩

def add : Column :=
  ⟨c.r0 ^^^ d.r0, c.r1 ^^^ d.r1, c.r2 ^^^ d.r2, c.r3 ^^^ d.r3⟩

/-- Multiplies the column by the polynomial with coefficients 2, 1, 1, 3. -/
def mix : Column :=
  ⟨mul c.r0 2 ^^^ mul c.r1 3 ^^^ c.r2 ^^^ c.r3,
   c.r0 ^^^ mul c.r1 2 ^^^ mul c.r2 3 ^^^ c.r3,
   c.r0 ^^^ c.r1 ^^^ mul c.r2 2 ^^^ mul c.r3 3,
   mul c.r0 3 ^^^ c.r1 ^^^ c.r2 ^^^ mul c.r3 2⟩

/-- Multiplies the column by the inverse polynomial, with coefficients 14, 9, 13, 11. -/
def unmix : Column :=
  ⟨mul c.r0 14 ^^^ mul c.r1 11 ^^^ mul c.r2 13 ^^^ mul c.r3 9,
   mul c.r0 9 ^^^ mul c.r1 14 ^^^ mul c.r2 11 ^^^ mul c.r3 13,
   mul c.r0 13 ^^^ mul c.r1 9 ^^^ mul c.r2 14 ^^^ mul c.r3 11,
   mul c.r0 11 ^^^ mul c.r1 13 ^^^ mul c.r2 9 ^^^ mul c.r3 14⟩

def rotate : Column :=
  ⟨c.r1, c.r2, c.r3, c.r0⟩

end Column

structure Block where
  c0 : Column
  c1 : Column
  c2 : Column
  c3 : Column
deriving DecidableEq

namespace Block
variable (x y : Block)

def map (f : Column → Column) : Block :=
  ⟨f x.c0, f x.c1, f x.c2, f x.c3⟩

def add : Block :=
  ⟨x.c0.add y.c0, x.c1.add y.c1, x.c2.add y.c2, x.c3.add y.c3⟩

def shift : Block :=
  ⟨⟨x.c0.r0, x.c1.r1, x.c2.r2, x.c3.r3⟩,
   ⟨x.c1.r0, x.c2.r1, x.c3.r2, x.c0.r3⟩,
   ⟨x.c2.r0, x.c3.r1, x.c0.r2, x.c1.r3⟩,
   ⟨x.c3.r0, x.c0.r1, x.c1.r2, x.c2.r3⟩⟩

def unshift : Block :=
  ⟨⟨x.c0.r0, x.c3.r1, x.c2.r2, x.c1.r3⟩,
   ⟨x.c1.r0, x.c0.r1, x.c3.r2, x.c2.r3⟩,
   ⟨x.c2.r0, x.c1.r1, x.c0.r2, x.c3.r3⟩,
   ⟨x.c3.r0, x.c2.r1, x.c1.r2, x.c0.r3⟩⟩

def scramble : Block :=
  (x.map (·.map substitute)).shift

def unscramble : Block :=
  x.unshift.map (·.map restore)

def toBytes : Bytes :=
  [x.c0, x.c1, x.c2, x.c3].flatMap fun c => [c.r0, c.r1, c.r2, c.r3]

end Block

def blocks : Bytes → List Block
  | a0 :: a1 :: a2 :: a3 :: b0 :: b1 :: b2 :: b3 :: c0 :: c1 :: c2 :: c3 :: d0 :: d1 :: d2 :: d3 ::
      rest =>
    ⟨⟨a0, a1, a2, a3⟩, ⟨b0, b1, b2, b3⟩, ⟨c0, c1, c2, c3⟩, ⟨d0, d1, d2, d3⟩⟩ :: blocks rest
  | _ => []

def bytes (blocks : List Block) : Bytes :=
  blocks.flatMap Block.toBytes

section Schedule

/-- The round keys: one before the rounds, one for each round but the last, and one for the last. -/
structure Schedule where
  first : Block
  middle : List Block
  last : Block

def columns : Bytes → List Column
  | r0 :: r1 :: r2 :: r3 :: rest => ⟨r0, r1, r2, r3⟩ :: columns rest
  | _ => []

/-- The constant of the `n`-th turn of the key, from one. -/
def turnConstant : Nat → UInt8
  | 0 => 0x8d
  | n + 1 => double (turnConstant n)

/-- Puts more columns in front of those expanded so far, the latest first, from a key of `size`
columns. -/
def expand (size : Nat) : Nat → List Column → List Column
  | 0, expanded => expanded
  | more + 1, expanded =>
    let n := expanded.length
    let latest := expanded.headD ⟨0, 0, 0, 0⟩
    let turned :=
      if n % size = 0 then
        (latest.rotate.map substitute).add ⟨turnConstant (n / size), 0, 0, 0⟩
      else if 6 < size ∧ n % size = 4 then latest.map substitute
      else latest
    expand size more ((expanded.getD (size - 1) ⟨0, 0, 0, 0⟩).add turned :: expanded)

def groups : List Column → List Block
  | c0 :: c1 :: c2 :: c3 :: rest => ⟨c0, c1, c2, c3⟩ :: groups rest
  | _ => []

/-- Keys have 16, 24 or 32 bytes. -/
def isKeyLength (length : Nat) : Bool :=
  length == 16 || length == 24 || length == 32

def schedule (key : Bytes) : Schedule :=
  let size := key.length / 4
  let keys := groups (expand size (28 + 3 * size) (columns key).reverse).reverse
  let zero : Block := ⟨⟨0, 0, 0, 0⟩, ⟨0, 0, 0, 0⟩, ⟨0, 0, 0, 0⟩, ⟨0, 0, 0, 0⟩⟩
  ⟨keys.headD zero, (keys.drop 1).dropLast, keys.getLastD zero⟩

end Schedule

section Cipher
variable (s : Schedule)

def encipher (x : Block) : Block :=
  let rounds := s.middle.foldl (fun y key => (y.scramble.map Column.mix).add key) (x.add s.first)
  rounds.scramble.add s.last

def decipher (x : Block) : Block :=
  let rounds := s.middle.foldr (fun key y => ((y.add key).map Column.unmix).unscramble)
    (x.add s.last).unscramble
  rounds.add s.first

def encipherChain : Block → List Block → List Block
  | _, [] => []
  | before, x :: rest =>
    let y := encipher s (x.add before)
    y :: encipherChain y rest

def decipherChain : Block → List Block → List Block
  | _, [] => []
  | before, y :: rest => (decipher s y).add before :: decipherChain y rest

end Cipher

/-- What the cipher does not take. -/
inductive Refusal where
  | keyLength (length : Nat)
  | startLength (length : Nat)
  | ragged (length : Nat)
deriving DecidableEq

def Refusal.message : Refusal → String
  | .keyLength length => "no key for AES has " ++ toString length ++ " bytes"
  | .startLength length => "no chain of blocks begins with " ++ toString length ++ " bytes"
  | .ragged length => "no whole number of blocks has " ++ toString length ++ " bytes"

/-- Deciphers a text after the block that begins its chain. -/
def decipherText (key start text : Bytes) : Except Refusal Bytes :=
  if !isKeyLength key.length then .error (.keyLength key.length)
  else if text.length % 16 ≠ 0 then .error (.ragged text.length)
  else if start.length ≠ 16 then .error (.startLength start.length)
  else
    match blocks (start ++ text) with
    | [] => .error (.startLength start.length)
    | first :: rest => .ok (bytes (decipherChain (schedule key) first rest))

@[simp] theorem length_encipherChain (s : Schedule) (before : Block) (text : List Block) :
    (encipherChain s before text).length = text.length := by
  induction text generalizing before with
  | nil => rfl
  | cons x rest ih => simp [encipherChain, ih]

end PdfSyntax.Aes
