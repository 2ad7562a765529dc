import PdfSyntax.Input.Cursor
import PdfSyntax.Input.Source

/-!
# Buffers

A buffer holds one block of a source, and a place in it. When the block is used up the next one is read
from the source. Blocks do not cross the multiples of the block size in offsets. Offsets may count from
anywhere: if the source is movable, the offset of its first byte is known, and the buffer can seek.
-/

set_option autoImplicit false

namespace PdfSyntax

/-- One block of a source, around a place. -/
structure Buffer where
  source : Source
  blockSize : Nat
  /-- The offset of the first byte of the source, if it is movable. -/
  origin : Option Int
  /-- The bytes of the block before the place, the latest first. -/
  before : Bytes
  /-- The bytes of the block after the place. -/
  after : Bytes
  /-- The offset of the end of the block. -/
  stop : Int
  /-- Whether a tolerated end was reached. -/
  isEnded : Bool

namespace Buffer
variable (b : Buffer)

/-- A buffer with an empty block, over a source that stands at the given offset. -/
def atOffset (source : Source) (offset : Int) (blockSize : Nat) : Buffer where
  source
  blockSize
  origin := if source.isMovable then some (offset - source.position) else none
  before := []
  after := []
  stop := offset
  isEnded := false

def block : Bytes :=
  b.before.reverse ++ b.after

def offset : Int :=
  b.stop - b.after.length

def start : Int :=
  b.stop - b.block.length

/-- How many bytes there are from the end of the block to the next multiple of the block size. -/
def room : Nat :=
  b.blockSize - (b.stop % b.blockSize).toNat

def left : Nat :=
  b.after.length + b.source.rest.length

/-- Replaces the block by the next one, unless there is none. Tells whether there is one. -/
def refill (tolerant : Bool) : EStateM Failure Buffer Bool := fun b =>
  if b.blockSize = 0 then .error .emptyBlock b
  else
    match b.source.read b.room with
    | (.error reason, source) =>
      .error (.unreadable b.stop reason) { b with source, before := [], after := [] }
    | (.ok [], source) =>
      let emptied := { b with source, before := [], after := [] }
      if tolerant then .ok false { emptied with isEnded := true }
      else .error (.unexpectedEnd b.stop) emptied
    | (.ok block, source) =>
      .ok true { b with source, before := [], after := block, stop := b.stop + block.length }

def take : Option (UInt8 × Buffer) :=
  match b.after with
  | [] => none
  | byte :: after => some (byte, { b with before := byte :: b.before, after })

def next (tolerant : Bool) : EStateM Failure Buffer (Option UInt8) := fun b =>
  match b.take with
  | some (byte, b') => .ok (some byte) b'
  | none =>
    match refill tolerant b with
    | .error e b' => .error e b'
    | .ok false b' => .ok none b'
    | .ok true b' =>
      match b'.take with
      | some (byte, b'') => .ok (some byte) b''
      | none => .error .outOfBlock b'

/-- Moves the place back by one byte, unless it is at the start of the block. -/
def back : Buffer :=
  match b.before with
  | [] => b
  | byte :: before => { b with before, after := byte :: b.after }

/-- Empties the block and goes to an offset. If the source cannot go there, the buffer yet has. -/
def seek (target : Int) : EStateM Failure Buffer Unit := fun b =>
  let emptied := { b with before := [], after := [], stop := target, isEnded := false }
  match b.origin with
  | none => .ok () emptied
  | some origin =>
    if target < origin then .error (.negativePosition (target - origin)) emptied
    else .ok () { emptied with source := b.source.moveTo (target - origin).toNat }

def moveTo (target : Int) : Buffer :=
  let place := (target - b.start).toNat
  { b with before := (b.block.take place).reverse, after := b.block.drop place }

theorem left_refill {tolerant : Bool} {b b' : Buffer} (h : refill tolerant b = .ok true b') :
    b'.after ≠ [] ∧ b'.after.length + b'.source.rest.length = b.source.rest.length := by
  simp only [refill] at h
  split at h
  · cases h
  · simp only [Source.read] at h
    cases hr : b.source.refusal b.source.reads b.source.position with
    | some reason => simp [hr] at h
    | none =>
      simp only [hr] at h
      have hsum := congrArg List.length (b.source.block_append_rest b.room)
      cases hb : b.source.block b.room with
      | nil => cases tolerant <;> simp [hb] at h
      | cons byte block =>
        simp only [hb, EStateM.Result.ok.injEq, true_and] at h
        subst h
        rw [List.length_append, hb] at hsum
        refine ⟨by simp, ?_⟩
        simpa [Source.rest, Source.moveTo] using hsum

theorem left_take {b b' : Buffer} {byte : UInt8} (h : b.take = some (byte, b')) :
    b'.left + 1 = b.left := by
  unfold take at h
  split at h
  · simp at h
  · next rest hb =>
    obtain ⟨rfl, rfl⟩ := Prod.mk.inj (Option.some.inj h)
    simp only [left, hb, List.length_cons]
    omega

theorem left_next {tolerant : Bool} {b b' : Buffer} {byte : UInt8}
    (h : next tolerant b = .ok (some byte) b') : b'.left < b.left := by
  simp only [next] at h
  cases ht : b.take with
  | some p =>
    obtain ⟨byte', b₁⟩ := p
    simp only [ht, EStateM.Result.ok.injEq, Option.some.injEq] at h
    obtain ⟨rfl, rfl⟩ := h
    have := left_take ht
    omega
  | none =>
    simp only [ht] at h
    cases hr : refill tolerant b with
    | error e b₁ => simp [hr] at h
    | ok more b₁ =>
      cases more with
      | false => simp [hr] at h
      | true =>
        simp only [hr] at h
        cases ht' : b₁.take with
        | none => simp [ht'] at h
        | some p =>
          obtain ⟨byte', b₂⟩ := p
          simp only [ht', EStateM.Result.ok.injEq, Option.some.injEq] at h
          obtain ⟨rfl, rfl⟩ := h
          have h₁ := left_refill hr
          have h₂ := left_take ht'
          simp only [left] at *
          omega

theorem left_refill_le {tolerant : Bool} {b b' : Buffer} (h : refill tolerant b = .ok false b') :
    b'.left ≤ b.left := by
  simp only [refill] at h
  split at h
  · cases h
  · simp only [Source.read] at h
    cases hr : b.source.refusal b.source.reads b.source.position with
    | some reason => simp [hr] at h
    | none =>
      cases hb : b.source.block b.room with
      | cons byte block => simp [hr, hb] at h
      | nil =>
        cases tolerant with
        | false => simp [hr, hb] at h
        | true =>
          simp only [hr, hb, if_true, EStateM.Result.ok.injEq, true_and] at h
          subst h
          simp [left, Source.rest]

theorem left_end {tolerant : Bool} {b b' : Buffer} (h : next tolerant b = .ok none b') :
    b'.left ≤ b.left := by
  simp only [next] at h
  cases ht : b.take with
  | some p => simp [ht] at h
  | none =>
    cases hr : refill tolerant b with
    | error e b₁ => simp [ht, hr] at h
    | ok more b₁ =>
      cases more with
      | false =>
        simp only [ht, hr, EStateM.Result.ok.injEq, true_and] at h
        exact h ▸ left_refill_le hr
      | true => cases ht' : b₁.take <;> simp [ht, hr, ht'] at h

/-- Goes to an offset by reading block after block. At a tolerated end it stops there. -/
def skipTo (tolerant : Bool) (target : Int) : EStateM Failure Buffer Unit := fun b =>
  if b.stop < target then
    match _h : refill tolerant b with
    | .error e b' => .error e b'
    | .ok false b' => .ok () b'
    | .ok true b' => skipTo tolerant target b'
  else .ok () (b.moveTo target)
termination_by b => b.source.rest.length
decreasing_by
  have h' := left_refill ‹_›
  have := List.length_pos_iff.mpr h'.1
  omega

/-- Goes to an offset that does not lie before the block. -/
def forward (tolerant : Bool) (target : Int) : EStateM Failure Buffer Unit := fun b =>
  if target < b.start then .error (.backward b.offset target) b
  else skipTo tolerant target b

instance : Cursor Buffer where
  next := next
  back := back
  offset := offset
  isEnded := isEnded
  seek := seek
  forward := forward
  left := left
  left_next := left_next
  left_end := left_end

end Buffer
end PdfSyntax
