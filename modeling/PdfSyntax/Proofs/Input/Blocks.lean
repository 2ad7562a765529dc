import PdfSyntax.Input.Buffer
import PdfSyntax.Input.Direct
import PdfSyntax.Proofs.Reader.Agreement

/-!
# Blocks cannot be seen

A buffer shows a direct cursor if its block is what the data hold between two offsets, its source
stands at the end of the block, and its place is the one of the direct cursor. Every move keeps this,
whatever the block size and however little the source yields at a time. A byte just yielded lies in the
block, so it can be given back also when it is the first one of the block.
-/

set_option autoImplicit false

namespace PdfSyntax

/-- Neither refuses a read nor withholds what it has. -/
structure Source.IsSteady (s : Source) : Prop where
  generous : s.IsGenerous
  unrefused : ∀ read position, s.refusal read position = none

namespace Source.IsSteady
variable {s : Source}

theorem read (h : s.IsSteady) (count : Nat) : (s.read count).2.IsSteady := by
  simp only [Source.read, h.unrefused]
  exact ⟨h.generous, h.unrefused⟩

theorem moveTo (h : s.IsSteady) (position : Nat) : (s.moveTo position).IsSteady :=
  ⟨h.generous, h.unrefused⟩

end Source.IsSteady

theorem Source.isSteady_ofData (data : Bytes) : (Source.ofData data).IsSteady :=
  ⟨Source.isGenerous_ofData data, fun _ _ => rfl⟩

/-- What no move changes: the data, the offset of their first byte, and whether seeks are possible. -/
structure Medium where
  data : Bytes
  origin : Int
  isMovable : Bool

namespace Medium

def ofSource (source : Source) (offset : Int) : Medium :=
  ⟨source.data, offset - source.position, source.isMovable⟩

def cursorAt (medium : Medium) (offset : Int) : Direct :=
  ⟨medium.data, medium.origin, offset, false⟩

def Reaches (medium : Medium) (target : Int) : Prop :=
  medium.isMovable = true ∧ medium.origin ≤ target

end Medium

namespace Direct

def rest (d : Direct) : Bytes :=
  if d.origin ≤ d.offset then d.data.drop (d.offset - d.origin).toNat else []

theorem byte?_eq_head? (d : Direct) : d.byte? = d.rest.head? := by
  simp only [byte?, rest]
  split
  · rw [List.head?_drop]
  · rfl

/-- Giving back undoes the yielding of a byte. -/
theorem back_of_next {tolerant : Bool} {d d' : Direct} {byte : UInt8}
    (h : next tolerant d = .ok (some byte) d') : d'.back = d := by
  simp only [next] at h
  cases hb : d.byte? with
  | none =>
    simp only [hb] at h
    cases ha : d.atEnd tolerant <;> simp [ha] at h
  | some b =>
    simp only [hb, EStateM.Result.ok.injEq] at h
    obtain ⟨-, rfl⟩ := h
    simp [back]

end Direct

namespace Buffer

/-- A buffer whose source holds the data of the medium, wherever it stands. It has come to the end only if
nothing is left. -/
structure Over (medium : Medium) (b : Buffer) : Prop where
  steady : b.source.IsSteady
  blockSize_pos : 0 < b.blockSize
  data_eq : b.source.data = medium.data
  movable_eq : b.source.isMovable = medium.isMovable
  origin_eq : b.origin = if medium.isMovable then some medium.origin else none
  ended : b.isEnded = true → b.block = [] ∧ b.source.rest = []

/-- The block is what the medium holds before the place of the source. -/
structure Holds (medium : Medium) (b : Buffer) : Prop extends Over medium b where
  stop_eq : b.stop = medium.origin + b.source.position
  block_le : b.block.length ≤ b.source.position
  block_eq : medium.data.drop (b.source.position - b.block.length) = b.block ++ b.source.rest

/-- A buffer and a direct cursor at the same place in a medium. -/
structure Shows (medium : Medium) (b : Buffer) (d : Direct) : Prop extends Holds medium b where
  data_eq' : d.data = medium.data
  origin_eq' : d.origin = medium.origin
  offset_eq : b.offset = d.offset
  isEnded_eq : b.isEnded = d.isEnded

/-- The buffer after a read, with whatever the source yielded as its block. -/
def afterRead (b : Buffer) : Buffer :=
  { b with
    source := (b.source.read b.room).2
    before := []
    after := b.source.block b.room
    stop := b.stop + (b.source.block b.room).length }

namespace Over
variable {medium : Medium} {b : Buffer} (h : Over medium b)
include h

theorem room_pos : 0 < b.room := by
  have hsize := h.blockSize_pos
  have := Int.emod_lt_of_pos b.stop (Int.natCast_pos.mpr hsize)
  simp only [room]
  omega

theorem refill_of_rest_ne_nil (hrest : b.source.rest ≠ []) (tolerant : Bool) :
    refill tolerant b = .ok true b.afterRead ∧ b.afterRead.after ≠ [] := by
  have hblock : b.source.block b.room ≠ [] :=
    fun hnil => hrest ((Source.block_eq_nil_iff h.steady.generous h.room_pos).mp hnil)
  have hsize := h.blockSize_pos
  constructor
  · obtain ⟨byte, block, hb⟩ := List.exists_cons_of_ne_nil hblock
    simp only [refill, Source.read, h.steady.unrefused, Buffer.afterRead, hb]
    rw [if_neg (by omega)]
  · exact hblock

theorem refill_of_rest_eq_nil (hrest : b.source.rest = []) (tolerant : Bool) :
    refill tolerant b = (if tolerant then .ok false { b.afterRead with isEnded := true }
      else .error (.unexpectedEnd b.stop) b.afterRead) := by
  have hblock : b.source.block b.room = [] :=
    (Source.block_eq_nil_iff h.steady.generous h.room_pos).mpr hrest
  have hsize := h.blockSize_pos
  have hstop : b.stop + ((0 : Nat) : Int) = b.stop := by omega
  simp only [refill, Source.read, h.steady.unrefused, Buffer.afterRead, hblock, List.length_nil, hstop]
  rw [if_neg (by omega)]

/-- A read where nothing is left leaves an empty block. -/
theorem afterRead_eq_nil (hrest : b.source.rest = []) :
    b.afterRead.block = [] ∧ b.afterRead.source.rest = [] := by
  have hsplit : b.afterRead.block ++ b.afterRead.source.rest = b.source.rest := by
    have hread := b.source.block_append_rest b.room
    simpa [block, Buffer.afterRead, Source.rest, Source.moveTo, Source.read, h.steady.unrefused] using hread
  exact List.append_eq_nil_iff.mp (hsplit.trans hrest)

theorem afterRead : Over medium b.afterRead := by
  refine { h with steady := h.steady.read _, data_eq := ?_, movable_eq := ?_, ended := ?_ }
  · simpa [Buffer.afterRead, Source.read, h.steady.unrefused] using h.data_eq
  · simpa [Buffer.afterRead, Source.read, h.steady.unrefused] using h.movable_eq
  · exact fun hended => h.afterRead_eq_nil (h.ended hended).2

/-- A buffer with something in its block has not come to the end. -/
theorem isEnded_eq_false (hblock : b.block ≠ []) : b.isEnded = false := by
  cases hended : b.isEnded with
  | false => rfl
  | true => exact absurd (h.ended hended).1 hblock

/-- Where the place is in the block does not matter. -/
theorem replaced {before after : Bytes} (hblock : before.reverse ++ after = b.block) :
    Over medium { b with before, after } :=
  { h with ended := fun hended => ⟨hblock.trans (h.ended hended).1, (h.ended hended).2⟩ }

theorem moveTo (target : Int) : Over medium (b.moveTo target) :=
  h.replaced (by rw [List.reverse_reverse, List.take_append_drop])

end Over

theorem shows_atOffset {source : Source} (h : source.IsSteady) (offset : Int) {blockSize : Nat}
    (hsize : 0 < blockSize) : Shows (.ofSource source offset) (atOffset source offset blockSize)
      ((Medium.ofSource source offset).cursorAt offset) where
  steady := h
  blockSize_pos := hsize
  data_eq := rfl
  movable_eq := rfl
  origin_eq := rfl
  ended hended := by cases hended
  stop_eq := by simp [atOffset, Medium.ofSource]
  block_le := by simp [atOffset, block]
  block_eq := by simp [atOffset, Medium.ofSource, block, Source.rest]
  data_eq' := rfl
  origin_eq' := rfl
  offset_eq := by simp [atOffset, Medium.cursorAt, Buffer.offset]
  isEnded_eq := rfl

namespace Shows
variable {medium : Medium} {b : Buffer} {d : Direct} (h : Shows medium b d)
include h

theorem offset_sub : d.offset - d.origin = b.source.position - b.after.length := by
  have := h.offset_eq
  have := h.origin_eq'
  have := h.stop_eq
  simp only [Buffer.offset] at *
  omega

theorem length_after_le : b.after.length ≤ b.source.position := by
  have := h.block_le
  simp only [block, List.length_append, List.length_reverse] at this
  omega

theorem rest_eq : d.rest = b.after ++ b.source.rest := by
  have hle := h.block_le
  have hsub := h.offset_sub
  have hafter := h.length_after_le
  have hlen : b.block.length = b.before.length + b.after.length := by
    simp [block]
  have hplace : (d.offset - d.origin).toNat =
      b.source.position - b.block.length + b.before.length := by omega
  rw [Direct.rest, if_pos (by omega), hplace, ← List.drop_drop, h.data_eq', h.block_eq, block,
    List.append_assoc]
  exact List.drop_left' List.length_reverse

theorem byte?_eq : d.byte? = (b.after ++ b.source.rest).head? := by
  rw [Direct.byte?_eq_head?, h.rest_eq]

theorem left_eq : b.left = d.left := by
  have hlen := congrArg List.length h.rest_eq
  have hsub := h.offset_sub
  have hafter := h.length_after_le
  rw [Direct.rest, if_pos (by omega), List.length_drop, List.length_append] at hlen
  simp only [Buffer.left, Direct.left, Direct.stop]
  omega

theorem take {byte : UInt8} {after : Bytes} (ha : b.after = byte :: after) :
    Shows medium { b with before := byte :: b.before, after } { d with offset := d.offset + 1 } := by
  have hblock : { b with before := byte :: b.before, after }.block = b.block := by
    simp [block, ha]
  refine { h.toOver.replaced hblock, h with block_le := ?_, block_eq := ?_, offset_eq := ?_ }
  · rw [hblock]
    exact h.block_le
  · rw [hblock]
    exact h.block_eq
  · have := h.offset_eq
    simp only [Buffer.offset, ha, List.length_cons] at this ⊢
    omega

theorem endedAt (hblock : b.block = []) (hrest : b.source.rest = []) :
    Shows medium { b with isEnded := true } { d with isEnded := true } :=
  { h with ended := fun _ => ⟨hblock, hrest⟩, isEnded_eq := rfl }

theorem stop_eq_offset (ha : b.after = []) : b.stop = d.offset := by
  have := h.offset_eq
  simp only [Buffer.offset, ha, List.length_nil] at this
  omega

end Shows

namespace Shows
variable {medium : Medium} {b : Buffer} {d : Direct} (h : Shows medium b d)
include h

theorem afterRead : Shows medium b.afterRead { d with offset := b.stop } := by
  have hpos : b.afterRead.source.position = b.source.position + (b.source.block b.room).length := by
    simp [Buffer.afterRead, Source.read, h.steady.unrefused]
  have hrest := b.source.block_append_rest b.room
  refine { h.toOver.afterRead, h with
    stop_eq := ?_, block_le := ?_, block_eq := ?_, offset_eq := ?_ }
  · rw [hpos, Buffer.afterRead, h.stop_eq]
    simp only
    omega
  · rw [hpos]
    simp [block, Buffer.afterRead]
  · rw [hpos, ← h.data_eq]
    simp only [block, Buffer.afterRead, List.reverse_nil, List.nil_append, Nat.add_sub_cancel]
    simpa [Source.rest, Source.moveTo, Source.read, h.steady.unrefused] using hrest.symm
  · simp [Buffer.offset, Buffer.afterRead]

end Shows

/-- The filler at the end leaves the place where it is, and any other byte can be given back. -/
theorem next_agree (medium : Medium) (tolerant : Bool) :
    Agree (Shows medium) (next tolerant) (Direct.next tolerant)
      (fun byte b d => Shows medium b d ∧ (byte.isSome → Shows medium b.back d.back))
      (fun _ => Shows medium) := by
  intro b d h
  cases ha : b.after with
  | cons byte after =>
    have hb : next tolerant b = .ok (some byte) { b with before := byte :: b.before, after } := by
      simp [next, Buffer.take, ha]
    have hd : Direct.next tolerant d = .ok (some byte) { d with offset := d.offset + 1 } := by
      simp [Direct.next, h.byte?_eq, ha]
    have hback : Shows medium (back { b with before := byte :: b.before, after })
        (Direct.back { d with offset := d.offset + 1 }) := by
      simpa [back, Direct.back, ← ha] using h
    rw [hb, hd]
    exact .ok ⟨h.take ha, fun _ => hback⟩
  | nil =>
    have hstop := h.stop_eq_offset ha
    have hread := h.afterRead
    rw [hstop] at hread
    by_cases hrest : b.source.rest = []
    · have hnone : d.byte? = none := by rw [h.byte?_eq, ha, hrest]; rfl
      have hrefill := h.refill_of_rest_eq_nil hrest tolerant
      cases tolerant with
      | true =>
        have hb : next true b = .ok none { b.afterRead with isEnded := true } := by
          simp [next, Buffer.take, ha, hrefill]
        have hd : Direct.next true d = .ok none { d with isEnded := true } := by
          simp [Direct.next, hnone, Direct.atEnd]
        obtain ⟨hblock, hrest'⟩ := h.afterRead_eq_nil hrest
        rw [hb, hd]
        exact .ok ⟨hread.endedAt hblock hrest', fun h => by cases h⟩
      | false =>
        have hb : next false b = .error (.unexpectedEnd b.stop) b.afterRead := by
          simp [next, Buffer.take, ha, hrefill]
        have hd : Direct.next false d = .error (.unexpectedEnd b.stop) d := by
          simp [Direct.next, hnone, Direct.atEnd, hstop]
        rw [hb, hd]
        exact .error hread
    · obtain ⟨hrefill, hne⟩ := h.refill_of_rest_ne_nil hrest tolerant
      obtain ⟨byte, after, hafter⟩ := List.exists_cons_of_ne_nil hne
      have hb : next tolerant b = .ok (some byte)
          { b.afterRead with before := byte :: b.afterRead.before, after } := by
        simp [next, Buffer.take, ha, hrefill, hafter]
      have hd : Direct.next tolerant d = .ok (some byte) { d with offset := d.offset + 1 } := by
        have hbyte := hread.byte?_eq
        rw [hafter] at hbyte
        have hbyte : d.byte? = some byte := hbyte
        simp [Direct.next, hbyte]
      have hback : Shows medium (back { b.afterRead with before := byte :: b.afterRead.before, after })
          (Direct.back { d with offset := d.offset + 1 }) := by
        simpa [back, Direct.back, ← hafter] using hread
      rw [hb, hd]
      exact .ok ⟨hread.take hafter, fun _ => hback⟩

/-- Wherever a buffer stands, a seek takes it to the target, with nothing left of where it stood. -/
theorem Over.seek {medium : Medium} {b : Buffer} (h : Over medium b) {target : Int}
    (ht : medium.Reaches target) :
    ∃ b', Buffer.seek target b = .ok () b' ∧ Shows medium b' (medium.cursorAt target) := by
  obtain ⟨hmovable, hle⟩ := ht
  have horigin : b.origin = some medium.origin := by rw [h.origin_eq, if_pos hmovable]
  refine ⟨{ b with
      before := [], after := [], stop := target, isEnded := false,
      source := b.source.moveTo (target - medium.origin).toNat }, ?_, ?_⟩
  · simp only [Buffer.seek, horigin]
    rw [if_neg (by omega)]
  · refine { h with
      steady := h.steady.moveTo _, stop_eq := ?_, block_le := ?_, block_eq := ?_, data_eq' := rfl,
      origin_eq' := rfl, offset_eq := ?_, isEnded_eq := rfl, ended := fun hended => by cases hended }
    · simp only [Source.moveTo]
      omega
    · simp [block]
    · simp [block, Source.moveTo, Source.rest, h.data_eq]
    · simp [Buffer.offset, Medium.cursorAt]

theorem seek_keep {medium : Medium} {target : Int} (ht : medium.Reaches target) :
    Keep Failure (Shows medium) (seek target) (Direct.seek target) := by
  intro b d h
  obtain ⟨b', hb, hb'⟩ := h.toOver.seek ht
  have hd : Direct.seek target d = .ok () (medium.cursorAt target) := by
    simp only [Direct.seek, h.data_eq', h.origin_eq', Medium.cursorAt]
    rw [if_neg (by have := ht.2; omega)]
  rw [hb, hd]
  exact .ok hb'

/-- A buffer cannot be told from a direct cursor. -/
theorem simulation (medium : Medium) : Simulation (Shows medium) medium.Reaches where
  next := next_agree medium
  offset h := h.offset_eq
  isEnded h := h.isEnded_eq
  left h := h.left_eq
  seek := seek_keep

end Buffer
end PdfSyntax
