import PdfSyntax.Byte

/-!
# Padding to whole blocks

A text is filled up to whole blocks of sixteen bytes by bytes that all tell how many they are. There
is always at least one of them, so that they can be taken away again.
-/

set_option autoImplicit false

namespace PdfSyntax.Padding

def blockSize : Nat := 16

inductive Fault where
  /-- The last byte is no count of padding bytes. -/
  | count
  /-- The bytes that the last one counts are not all equal. -/
  | filler
deriving DecidableEq, Repr

def Fault.message : Fault → String
  | .count => "Padding is incorrect."
  | .filler => "PKCS#7 padding is incorrect."

def filler (length : Nat) : Bytes :=
  let count := blockSize - length % blockSize
  List.replicate count (UInt8.ofNat count)

def pad (text : Bytes) : Bytes :=
  text ++ filler text.length

def unpad (padded : Bytes) : Except Fault Bytes :=
  let last := padded.getLastD 0
  let kept := padded.length - last.toNat
  if last = 0 ∨ min blockSize padded.length < last.toNat then .error .count
  else if (padded.drop kept).all (· == last) then .ok (padded.take kept)
  else .error .filler

theorem unpad_pad (text : Bytes) : unpad (pad text) = .ok text := by
  have hb : 0 < blockSize := by decide
  have hc : text.length % blockSize < blockSize := Nat.mod_lt _ hb
  obtain ⟨count, hcount⟩ : ∃ count, blockSize - text.length % blockSize = count + 1 :=
    ⟨blockSize - text.length % blockSize - 1, by omega⟩
  have hle : count + 1 ≤ blockSize := by omega
  have hbs : blockSize = 16 := rfl
  have hn : (UInt8.ofNat (count + 1)).toNat = count + 1 := by
    rw [UInt8.toNat_ofNat', Nat.mod_eq_of_lt (by omega)]
  have hlast : (pad text).getLastD 0 = UInt8.ofNat (count + 1) := by
    simp [pad, filler, hcount, List.replicate_succ', List.getLastD_eq_getLast?]
  have hlen : (pad text).length = text.length + (count + 1) := by
    simp [pad, filler, hcount]
  have hne : UInt8.ofNat (count + 1) ≠ 0 := by
    intro h
    have := congrArg UInt8.toNat h
    rw [hn] at this
    simp at this
  have hkept : (pad text).length - (UInt8.ofNat (count + 1)).toNat = text.length := by omega
  simp only [unpad, hlast, hkept]
  rw [if_neg]
  · simp [pad, filler, hcount]
  · rintro (h | h)
    · exact hne h
    · rw [hlen, hn] at h
      omega

end PdfSyntax.Padding
