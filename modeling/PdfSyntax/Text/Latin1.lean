import PdfSyntax.Byte

/-!
# Latin-1

Each byte stands for the character with the same number. Every byte sequence is a text; a text is a
byte sequence only if none of its characters is above U+00FF, and then exactly one.
-/

set_option autoImplicit false

namespace PdfSyntax.Latin1

def char (b : UInt8) : Char :=
  Char.ofNat b.toNat

def decode (bytes : Bytes) : String :=
  String.ofList (bytes.map char)

def byte? (c : Char) : Option UInt8 :=
  if c.toNat < 256 then some (UInt8.ofNat c.toNat) else none

/-- The byte sequence that spells a text, unless a character lies above U+00FF. -/
def encode? (text : String) : Option Bytes :=
  text.toList.mapM byte?

/-- The bytes of a text that is known to be ASCII. -/
def ascii (text : String) : Bytes :=
  text.toList.map fun c => UInt8.ofNat c.toNat

theorem toNat_char (b : UInt8) : (char b).toNat = b.toNat := by
  have h : b.toNat.isValidChar := Or.inl (Nat.lt_trans b.toNat_lt (by decide))
  rw [char, Char.ofNat, dif_pos h]
  rfl

@[simp] theorem byte?_char (b : UInt8) : byte? (char b) = some b := by
  simp [byte?, toNat_char, b.toNat_lt]

theorem char_of_byte? {c : Char} {b : UInt8} (h : byte? c = some b) : char b = c := by
  simp only [byte?] at h
  split at h
  · next hc =>
    obtain rfl := Option.some.inj h
    apply Char.toNat_inj.mp
    rw [toNat_char, UInt8.toNat_ofNat', Nat.mod_eq_of_lt hc]
  · simp at h

@[simp] theorem encode?_decode (bytes : Bytes) : encode? (decode bytes) = some bytes := by
  simp only [encode?, decode, String.toList_ofList]
  induction bytes with
  | nil => rfl
  | cons b rest ih => simp [ih]

end PdfSyntax.Latin1
