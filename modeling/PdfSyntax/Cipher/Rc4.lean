import PdfSyntax.Byte

/-!
# RC4

The key arranges the 256 byte values, and the arrangement yields a stream of bytes while it is shuffled
further. A text is enciphered and deciphered alike, by adding the stream to it bit by bit.
-/

set_option autoImplicit false

namespace PdfSyntax.Rc4

/-- An arrangement of the byte values, and two places in it. -/
structure State where
  table : Vector UInt8 256
  i : UInt8
  j : UInt8

def get (table : Vector UInt8 256) (place : UInt8) : UInt8 :=
  table.get place.toFin

def exchange (table : Vector UInt8 256) (i j : UInt8) : Vector UInt8 256 :=
  table.swap i.toNat j.toNat i.toNat_lt j.toNat_lt

/-- Arranges the byte values by a key that is not empty. -/
def schedule (key : Array UInt8) : State :=
  let start : State := ⟨Vector.ofFn fun i => UInt8.ofNat i, 0, 0⟩
  let arranged := (List.range 256).foldl (fun (s : State) n =>
    let j := s.j + get s.table s.i + key.getD (n % key.size) 0
    ⟨exchange s.table s.i j, s.i + 1, j⟩) start
  ⟨arranged.table, 0, 0⟩

def stream : Nat → State → Bytes
  | 0, _ => []
  | count + 1, s =>
    let i := s.i + 1
    let j := s.j + get s.table i
    let table := exchange s.table i j
    get table (get table i + get table j) :: stream count ⟨table, i, j⟩

/-- Keys have from 1 to 256 bytes. -/
def isKeyLength (length : Nat) : Bool :=
  decide (1 ≤ length ∧ length ≤ 256)

/-- Adds the stream of a key to a text. -/
def cipher (key text : Bytes) : Bytes :=
  List.zipWith (· ^^^ ·) text (stream text.length (schedule key.toArray))

@[simp] theorem length_stream (count : Nat) (s : State) : (stream count s).length = count := by
  induction count generalizing s with
  | zero => rfl
  | succ count ih => simp [stream, ih]

@[simp] theorem length_cipher (key text : Bytes) : (cipher key text).length = text.length := by
  simp [cipher]

end PdfSyntax.Rc4
