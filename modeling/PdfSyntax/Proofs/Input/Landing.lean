import PdfSyntax.Proofs.Input.Ahead
import PdfSyntax.Proofs.Input.Coherence
import PdfSyntax.Proofs.Input.Supply

/-!
# Where skipping forward ends

A buffer over a steady source that skips forward to an offset of its block or of what the source has
left ends just there, in front of the bytes from there on. Beyond that there is the end of the data, and
it gets no further. Whatever the source does, it is not put back, and the block is always a slice of its
data that ends where the source stands.
-/

set_option autoImplicit false

namespace PdfSyntax.Buffer

/-- The bytes from the start of the block on. -/
def fromStart (b : Buffer) : Bytes :=
  b.block ++ b.source.rest

/-- The offset of the end of what the source has left. -/
def finish (b : Buffer) : Int :=
  b.stop + b.source.rest.length

/-- What a buffer has come to at an offset of those that it had in its block or to come. -/
structure Lands (b : Buffer) (target : Int) (b' : Buffer) : Prop where
  offset_eq : b'.offset = target
  ahead_eq : b'.ahead = b.fromStart.drop (target - b.start).toNat
  isEnded_eq : b'.isEnded = b.isEnded

section Place
variable {b b' : Buffer} {target : Int}

theorem start_le_offset (b : Buffer) : b.start ≤ b.offset := by
  have := b.length_block
  simp only [start, offset]
  omega

theorem offset_le_stop (b : Buffer) : b.offset ≤ b.stop := by
  simp only [offset]
  omega

theorem lands_moveTo (hstart : b.start ≤ target) (hstop : target ≤ b.stop) :
    Lands b target (b.moveTo target) where
  offset_eq := by
    simp only [offset, moveTo, List.length_drop, start] at *
    omega
  ahead_eq := by
    have hplace : (target - b.start).toNat ≤ b.block.length := by
      simp only [start] at *
      omega
    rw [ahead, fromStart, List.drop_append_of_le_length hplace]
    rfl
  isEnded_eq := rfl

variable {medium : Medium} (h : Over medium b)
include h

theorem finish_afterRead : b.afterRead.finish = b.finish := by
  have hlength := congrArg List.length h.inFront_afterRead.bytes_eq
  have hstop : b.afterRead.stop = b.stop + b.afterRead.after.length := rfl
  rw [List.length_append] at hlength
  simp only [finish]
  omega

/-- The next block and what is left after it are what was left before. -/
theorem Lands.of_afterRead (hstop : b.stop < target) (hlands : Lands b.afterRead target b') :
    Lands b target b' where
  offset_eq := hlands.offset_eq
  ahead_eq := by
    have hrest : b.afterRead.fromStart = b.source.rest := h.inFront_afterRead.bytes_eq
    have hsplit : (target - b.start).toNat = b.block.length + (target - b.stop).toNat := by
      simp only [start]
      omega
    rw [hlands.ahead_eq, hrest, Shows.start_afterRead, fromStart, hsplit, ← List.drop_drop,
      List.drop_left]
  isEnded_eq := hlands.isEnded_eq

end Place

section Skip
variable {medium : Medium} {b : Buffer} {target : Int} (tolerant : Bool)

/-- By induction on what the source has left, of which each block takes something. -/
theorem skipTo_lands (h : Over medium b) (hstart : b.start ≤ target) (hend : target ≤ b.finish) :
    ∃ b', skipTo tolerant target b = .ok () b' ∧ Over medium b' ∧ Lands b target b' := by
  induction hn : b.source.rest.length using Nat.strongRecOn generalizing b with
  | _ n ih =>
    by_cases hstop : b.stop < target
    · have hrest : b.source.rest ≠ [] := by
        intro hnil
        rw [finish, hnil, List.length_nil] at hend
        omega
      obtain ⟨hrefill, hne⟩ := h.refill_of_rest_ne_nil hrest tolerant
      have hless := left_refill hrefill
      have hpos := List.length_pos_iff.mpr hne
      obtain ⟨b', hskip, hover, hlands⟩ := ih _ (by omega) h.afterRead
        (by rw [Shows.start_afterRead]; omega) (by rwa [finish_afterRead h]) rfl
      exact ⟨b', (skipTo_of_refill hstop hrefill).trans hskip, hover, hlands.of_afterRead h hstop⟩
    · have hle : target ≤ b.stop := by omega
      exact ⟨_, skipTo_of_le hle, h.moveTo target, lands_moveTo hstart hle⟩

/-- Beyond the end of the data block after block is read, until nothing is left. -/
theorem skipTo_runs_out (h : Over medium b) (hend : b.finish < target) :
    ∃ b', Over medium { b' with isEnded := true } ∧ b'.ahead = [] ∧ b'.offset = b.finish ∧ skipTo tolerant target b =
      if tolerant then .ok () { b' with isEnded := true } else .error (.unexpectedEnd b.finish) b' := by
  induction hn : b.source.rest.length using Nat.strongRecOn generalizing b with
  | _ n ih =>
    have hstop : b.stop < target := by
      simp only [finish] at hend
      omega
    by_cases hrest : b.source.rest = []
    · have hrefill := h.refill_of_rest_eq_nil hrest tolerant
      have hfinish : b.finish = b.stop := by
        rw [finish, hrest, List.length_nil]
        exact Int.add_zero _
      have hahead : b.afterRead.ahead = [] := h.inFront_afterRead.bytes_eq.trans hrest
      have hafter := (List.append_eq_nil_iff.mp hahead).1
      have hoffset : b.afterRead.offset = b.finish := by
        have hread : b.afterRead.stop = b.stop + b.afterRead.after.length := rfl
        rw [offset_of_after_nil hafter, hread, hafter, hfinish]
        exact Int.add_zero _
      have hover : Over medium { b.afterRead with isEnded := true } :=
        { h.afterRead with ended := fun _ => h.afterRead_eq_nil hrest }
      refine ⟨b.afterRead, hover, hahead, hoffset, ?_⟩
      rw [hfinish]
      cases tolerant with
      | true => exact skipTo_of_end hstop hrefill
      | false => exact skipTo_of_error hstop hrefill
    · obtain ⟨hrefill, hne⟩ := h.refill_of_rest_ne_nil hrest tolerant
      have hless := left_refill hrefill
      have hpos := List.length_pos_iff.mpr hne
      have hfinish := finish_afterRead h
      obtain ⟨b', hover, hahead, hoffset, hskip⟩ := ih _ (by omega) h.afterRead (by rwa [hfinish]) rfl
      rw [hfinish] at hoffset hskip
      exact ⟨b', hover, hahead, hoffset, (skipTo_of_refill hstop hrefill).trans hskip⟩

end Skip

section Kept
variable {I : Buffer → Prop}
variable (hemptied : ∀ {b : Buffer} (isEnded : Bool), I b → I { b.emptied with isEnded })
variable (hread : ∀ {b : Buffer}, b.refusal? = none → I b → I b.afterRead)
include hemptied hread

theorem refill_keeps (tolerant : Bool) :
    Ensures I (refill tolerant) (fun _ => I) (fun _ => I) := by
  intro b h
  rcases Nat.eq_zero_or_pos b.blockSize with hsize | hsize
  · simpa only [refill, hsize, if_true] using h
  · have hrefill := refill_refills hsize tolerant
    generalize refill tolerant b = result at hrefill ⊢
    cases hrefill with
    | refused => exact hemptied _ h
    | ended => exact hemptied _ h
    | cutShort => exact hemptied _ h
    | refilled hrefusal => exact hread hrefusal h

theorem next_keeps (hpassed : ∀ {b : Buffer} {byte : UInt8} {after : Bytes}, b.after = byte :: after →
    I b → I (b.passed byte after)) (tolerant : Bool) :
    Ensures I (next tolerant) (fun _ => I) (fun _ => I) := by
  intro b h
  cases ha : b.after with
  | cons byte after =>
    rw [next_of_after tolerant ha]
    exact hpassed ha h
  | nil =>
    rcases Nat.eq_zero_or_pos b.blockSize with hsize | hsize
    · simpa only [next, take, refill, ha, hsize, if_true] using h
    · have hnext := next_nexts hsize tolerant
      generalize next tolerant b = result at hnext ⊢
      cases hnext with
      | inBlock ha => exact hpassed ha h
      | refused => exact hemptied _ h
      | ended => exact hemptied _ h
      | cutShort => exact hemptied _ h
      | refilled _ hrefusal hblock => exact hpassed hblock (hread hrefusal h)

end Kept

section Source
variable {b : Buffer}

theorem position_afterRead (hrefusal : b.refusal? = none) :
    b.afterRead.source.position = b.source.position + (b.source.block b.room).length := by
  rw [afterRead_source hrefusal]
  rfl

/-- Skipping forward does not put the source back, however it ends. -/
theorem forward_position (tolerant : Bool) (target : Int) (position : Nat) :
    Ensures (fun b => position ≤ b.source.position) (forward tolerant target)
      (fun _ b => position ≤ b.source.position) (fun _ b => position ≤ b.source.position) := by
  refine forward_ensures (refill_keeps (fun _ h => h) ?_ tolerant) (fun _ h => h) (fun _ h => h) target
  intro b hrefusal h
  rw [position_afterRead hrefusal]
  exact Nat.le_add_right_of_le h

end Source

/-- A block that is what the data hold right before the position of the source. -/
structure IsSlice (b : Buffer) : Prop where
  block_le : b.block.length ≤ b.source.position
  block_eq : b.source.data.drop (b.source.position - b.block.length) = b.fromStart

namespace IsSlice
variable {b : Buffer}

theorem of_block_eq_nil (h : b.block = []) : IsSlice b where
  block_le := by rw [h]; exact Nat.zero_le _
  block_eq := by rw [fromStart, h]; rfl

/-- Where the place is in the block does not matter. -/
theorem of_same (h : IsSlice b) {b' : Buffer} (hblock : b'.block = b.block)
    (hsource : b'.source = b.source) : IsSlice b' := by
  constructor
  · rw [hblock, hsource]
    exact h.block_le
  · rw [fromStart, hblock, hsource]
    exact h.block_eq

theorem afterRead (hrefusal : b.refusal? = none) : IsSlice b.afterRead := by
  have hblock : b.afterRead.block = b.source.block b.room := by simp [block, Buffer.afterRead]
  constructor
  · rw [hblock, position_afterRead hrefusal]
    exact Nat.le_add_left _ _
  · rw [fromStart, hblock, position_afterRead hrefusal, Nat.add_sub_cancel, afterRead_source hrefusal]
    exact (b.source.block_append_rest b.room).symm

theorem passed {byte : UInt8} {after : Bytes} (ha : b.after = byte :: after) (h : IsSlice b) :
    IsSlice (b.passed byte after) := by
  refine h.of_same ?_ rfl
  simp only [block, Buffer.passed, ha, List.reverse_cons, List.append_assoc, List.cons_append,
    List.nil_append]

theorem back (h : IsSlice b) : IsSlice b.back := by
  cases hbefore : b.before with
  | nil => simpa only [Buffer.back, hbefore] using h
  | cons byte before =>
    simp only [Buffer.back, hbefore]
    refine h.of_same ?_ rfl
    simp only [block, hbefore, List.reverse_cons, List.append_assoc, List.cons_append, List.nil_append]

theorem moveTo (h : IsSlice b) (target : Int) : IsSlice (b.moveTo target) :=
  h.of_same (by simp only [Buffer.moveTo, block, List.reverse_reverse, List.take_append_drop]) rfl

/-- What is there from an offset on, if the source stands at the end of the block. -/
theorem drop_eq (h : IsSlice b) {origin target : Int} (hstop : b.stop = origin + b.source.position)
    (hstart : b.start ≤ target) :
    b.source.data.drop (target - origin).toNat = b.fromStart.drop (target - b.start).toNat := by
  have hle := h.block_le
  have hplace : (target - origin).toNat =
      b.source.position - b.block.length + (target - b.start).toNat := by
    simp only [start] at *
    omega
  rw [hplace, ← List.drop_drop, h.block_eq]

end IsSlice

theorem seek_slice (target : Int) : Ensures IsSlice (seek target) (fun _ => IsSlice)
    (fun _ => IsSlice) := by
  intro b _
  cases ho : b.origin with
  | none =>
    rw [seek_of_none ho]
    exact .of_block_eq_nil rfl
  | some origin =>
    by_cases hlt : target < origin
    · rw [seek_of_lt ho hlt]
      exact .of_block_eq_nil rfl
    · rw [seek_of_le ho (by omega)]
      exact .of_block_eq_nil rfl

/-- The block is a slice of the data whatever is done, also where the source does not follow a seek. -/
theorem slice_invariant : Cursor.Invariant IsSlice where
  next := next_keeps (fun _ _ => .of_block_eq_nil rfl) (fun hrefusal _ => .afterRead hrefusal)
    (fun ha h => h.passed ha)
  back h := h.back
  seek := seek_slice
  forward tolerant target := forward_ensures
    (refill_keeps (fun _ _ => .of_block_eq_nil rfl) (fun hrefusal _ => .afterRead hrefusal) tolerant)
    (fun target h => h.moveTo target) (fun _ h => h) target

/-- The source stands at the end of the block, if the first byte of the data has a certain offset. -/
def IsAnchored (origin : Int) (b : Buffer) : Prop :=
  b.stop = origin + b.source.position

theorem IsAnchored.afterRead {origin : Int} {b : Buffer} (hrefusal : b.refusal? = none)
    (h : IsAnchored origin b) : IsAnchored origin b.afterRead := by
  have hstop : b.afterRead.stop = b.stop + (b.source.block b.room).length := rfl
  have hposition := position_afterRead hrefusal
  unfold IsAnchored at *
  omega

theorem IsAnchored.back {origin : Int} {b : Buffer} (h : IsAnchored origin b) :
    IsAnchored origin b.back := by
  have hback : b.back.stop = b.stop ∧ b.back.source = b.source := by
    unfold Buffer.back
    split <;> exact ⟨rfl, rfl⟩
  rw [IsAnchored, hback.1, hback.2]
  exact h

/-- Wherever the first byte of the data is taken to be, it stays there as long as the buffer is sent
nowhere. -/
theorem anchored_at_rest (origin : Int) : Cursor.Law (fun _ => False) (IsAnchored origin) where
  next := next_keeps (fun _ h => h) .afterRead (fun _ h => h)
  back h := h.back
  seek h := h.elim
  forward tolerant target := forward_ensures (refill_keeps (fun _ h => h) .afterRead tolerant)
    (fun _ h => h) (fun _ h => h) target

/-- The offset of the first byte of the data stays what it was, as long as the source follows where the
buffer is sent. -/
theorem anchored_law (source : Source) (offset : Int) (blockSize : Nat) :
    Cursor.Law (Medium.ofSource source offset).Reaches fun b =>
      StemsFrom (atOffset source offset blockSize) b ∧ IsAnchored (offset - source.position) b where
  next tolerant := (next_stems _ tolerant).and ((anchored_at_rest _).next tolerant)
  back h := ⟨h.1.back, h.2.back⟩
  seek {target} ht := by
    intro b h
    have hstems := seek_stems (atOffset source offset blockSize) target b h.1
    have hseek : Cursor.seek target b = _ := h.1.seek ht
    have hseek' : Buffer.seek target b = _ := hseek
    rw [hseek'] at hstems
    rw [hseek]
    refine ⟨hstems, ?_⟩
    have hle := ht.2
    simp only [Medium.ofSource] at hle
    simp only [IsAnchored, atOffset, Source.recount, Source.moveTo, Medium.ofSource]
    omega
  forward tolerant target := (forward_stems _ tolerant target).and
    ((anchored_at_rest _).forward tolerant target)

end PdfSyntax.Buffer
