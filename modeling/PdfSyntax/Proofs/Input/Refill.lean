import PdfSyntax.Proofs.Input.Frame

/-!
# What a buffer can come to when it needs a byte

A buffer that needs a byte has one in its block, or it reads the next block. The source may refuse, it
may yield nothing, or it may yield the next block; nothing else can happen, whatever the source is. A
source is conclusive if a read that yields nothing is no accident: then it never yields anything there.
-/

set_option autoImplicit false

namespace PdfSyntax

/-- Whether a source that yields nothing when it is asked for so many bytes never yields anything when
it is. -/
def Source.IsConclusive (s : Source) : Prop :=
  ∀ read read' count, 0 < count → s.grant read count = 0 → s.grant read' count = 0

theorem Source.IsGenerous.isConclusive {s : Source} (h : s.IsGenerous) : s.IsConclusive := by
  intro read _ count hcount hzero
  have := h read count hcount
  omega

namespace Buffer

theorem StemsFrom.isConclusive {start b : Buffer} (h : StemsFrom start b)
    (hstart : start.source.IsConclusive) : b.source.IsConclusive := by
  rw [Source.IsConclusive, h.grant_eq]
  exact hstart

/-- The buffer after a read that yielded nothing. -/
def emptied (b : Buffer) : Buffer :=
  { b with source := b.source.recount (b.source.reads + 1), before := [], after := [] }

/-- The buffer after its next byte, which is in the block. -/
def passed (b : Buffer) (byte : UInt8) (after : Bytes) : Buffer :=
  { b with before := byte :: b.before, after }

/-- Why the next read is refused, if it is. -/
def refusal? (b : Buffer) : Option String :=
  b.source.refusal b.source.reads b.source.position

/-- What becomes of a buffer that reads the next block. -/
inductive Refills (tolerant : Bool) (b : Buffer) : EStateM.Result Failure Buffer Bool → Prop where
  | refused {reason : String} : b.refusal? = some reason →
    Refills tolerant b (.error (.unreadable b.stop reason) b.emptied)
  | ended : b.refusal? = none → b.source.block b.room = [] → tolerant = true →
    Refills tolerant b (.ok false { b.emptied with isEnded := true })
  | cutShort : b.refusal? = none → b.source.block b.room = [] → tolerant = false →
    Refills tolerant b (.error (.unexpectedEnd b.stop) b.emptied)
  | refilled : b.refusal? = none → b.source.block b.room ≠ [] → Refills tolerant b (.ok true b.afterRead)

/-- What becomes of a buffer that is asked for a byte. -/
inductive Nexts (tolerant : Bool) (b : Buffer) :
    EStateM.Result Failure Buffer (Option UInt8) → Prop where
  | inBlock {byte : UInt8} {after : Bytes} : b.after = byte :: after →
    Nexts tolerant b (.ok (some byte) (b.passed byte after))
  | refused {reason : String} : b.after = [] → b.refusal? = some reason →
    Nexts tolerant b (.error (.unreadable b.stop reason) b.emptied)
  | ended : b.after = [] → b.refusal? = none → b.source.block b.room = [] → tolerant = true →
    Nexts tolerant b (.ok none { b.emptied with isEnded := true })
  | cutShort : b.after = [] → b.refusal? = none → b.source.block b.room = [] → tolerant = false →
    Nexts tolerant b (.error (.unexpectedEnd b.stop) b.emptied)
  | refilled {byte : UInt8} {after : Bytes} : b.after = [] → b.refusal? = none →
    b.source.block b.room = byte :: after →
    Nexts tolerant b (.ok (some byte) (b.afterRead.passed byte after))

section Cases
variable {b : Buffer}

theorem afterRead_source (h : b.refusal? = none) : b.afterRead.source =
    (b.source.moveTo (b.source.position + (b.source.block b.room).length)).recount
      (b.source.reads + 1) := by
  have hnone : b.source.refusal b.source.reads b.source.position = none := h
  simp only [afterRead, Source.read, hnone, Source.recount, Source.moveTo]

/-- What a read leaves to come is what there was to come from the source. -/
theorem afterRead_append_rest (h : b.refusal? = none) :
    b.afterRead.after ++ b.afterRead.source.rest = b.source.rest := by
  rw [afterRead_source h]
  exact b.source.block_append_rest b.room

theorem refill_refills (hsize : 0 < b.blockSize) (tolerant : Bool) :
    Refills tolerant b (refill tolerant b) := by
  have hsize : b.blockSize ≠ 0 := by omega
  cases hrefusal : b.source.refusal b.source.reads b.source.position with
  | some reason =>
    simp only [refill, if_neg hsize, Source.read, hrefusal]
    exact .refused hrefusal
  | none =>
    cases hblock : b.source.block b.room with
    | nil =>
      simp only [refill, if_neg hsize, Source.read, hrefusal, hblock]
      cases tolerant with
      | true => exact .ended hrefusal hblock rfl
      | false => exact .cutShort hrefusal hblock rfl
    | cons byte after =>
      have hrefilled : Refills tolerant b (.ok true b.afterRead) :=
        .refilled hrefusal (by rw [hblock]; simp)
      simpa only [refill, if_neg hsize, Source.read, hrefusal, hblock, Buffer.afterRead] using hrefilled

theorem next_nexts (hsize : 0 < b.blockSize) (tolerant : Bool) :
    Nexts tolerant b (next tolerant b) := by
  cases hafter : b.after with
  | cons byte after =>
    simp only [next, Buffer.take, hafter]
    exact .inBlock hafter
  | nil =>
    have hrefill := refill_refills hsize tolerant
    simp only [next, Buffer.take, hafter]
    generalize refill tolerant b = result at hrefill ⊢
    cases hrefill with
    | refused h => exact .refused hafter h
    | ended h hblock htolerant => exact .ended hafter h hblock htolerant
    | cutShort h hblock htolerant => exact .cutShort hafter h hblock htolerant
    | refilled h hblock =>
      obtain ⟨byte, after, heq⟩ := List.exists_cons_of_ne_nil hblock
      have hnext : b.afterRead.after = byte :: after := heq
      simp only [hnext]
      exact .refilled hafter h heq

/-- The byte that a buffer yields is the first of those that come after its place, in the block or after
it. -/
theorem next_head (hsize : 0 < b.blockSize) (tolerant : Bool) : match next tolerant b with
    | .ok (some byte) _ => (b.after ++ b.source.rest).head? = some byte
    | .ok none b' => b'.isEnded = true
    | .error _ _ => True := by
  have hnext := next_nexts hsize tolerant (b := b)
  generalize next tolerant b = result at hnext ⊢
  cases hnext with
  | inBlock hafter =>
    rw [hafter]
    rfl
  | refused _ _ => trivial
  | ended _ _ _ _ => rfl
  | cutShort _ _ _ _ => trivial
  | refilled hafter _ hblock =>
    have hrest := b.source.block_append_rest b.room
    rw [hafter, List.nil_append, ← hrest, hblock]
    rfl

section Yields
variable {byte : UInt8} {after : Bytes} (tolerant : Bool)

theorem next_of_after (h : b.after = byte :: after) :
    next tolerant b = .ok (some byte) (b.passed byte after) := by
  simp only [next, Buffer.take, h, passed]

theorem next_of_block (hsize : 0 < b.blockSize) (hafter : b.after = []) (hrefusal : b.refusal? = none)
    (hblock : b.source.block b.room = byte :: after) :
    next tolerant b = .ok (some byte) (b.afterRead.passed byte after) := by
  have hnext := next_nexts hsize tolerant
  generalize next tolerant b = result at hnext ⊢
  cases hnext with
  | inBlock h =>
    rw [hafter] at h
    cases h
  | refused _ h =>
    rw [hrefusal] at h
    cases h
  | ended _ _ h _ =>
    rw [hblock] at h
    cases h
  | cutShort _ _ h _ =>
    rw [hblock] at h
    cases h
  | refilled _ _ h =>
    rw [hblock] at h
    cases h
    rfl

end Yields

theorem back_passed {byte : UInt8} {after : Bytes} (h : b.after = byte :: after) :
    (b.passed byte after).back = b := by
  simp only [back, passed, ← h]

theorem room_pos (hsize : 0 < b.blockSize) : 0 < b.room := by
  have := Int.emod_lt_of_pos b.stop (Int.natCast_pos.mpr hsize)
  simp only [room]
  omega

end Cases

/-- The block is empty, and the source yields nothing, however often it is read. -/
structure IsDrained (b : Buffer) : Prop where
  block_eq : b.block = []
  yields_nothing : b.source.rest = [] ∨ ∀ read, b.source.grant read b.room = 0

namespace IsDrained
variable {b : Buffer}

/-- What yields nothing once yields nothing for ever. -/
theorem of_block_eq_nil (hsize : 0 < b.blockSize) (hconclusive : b.source.IsConclusive)
    (hblock : b.source.block b.room = []) : IsDrained b.emptied where
  block_eq := rfl
  yields_nothing := by
    have hroom := room_pos hsize
    rcases List.take_eq_nil_iff.mp hblock with hzero | hrest
    · refine .inr fun read => ?_
      exact hconclusive b.source.reads read b.room hroom (by omega)
    · exact .inl hrest

theorem before_eq (h : IsDrained b) : b.before = [] :=
  List.reverse_eq_nil_iff.mp (List.append_eq_nil_iff.mp h.block_eq).1

theorem after_eq (h : IsDrained b) : b.after = [] :=
  (List.append_eq_nil_iff.mp h.block_eq).2

theorem block_eq_nil (h : IsDrained b) : b.source.block b.room = [] := by
  rcases h.yields_nothing with hrest | hgrant
  · simp only [Source.block, hrest, List.take_nil]
  · simp only [Source.block, hgrant, Nat.min_zero, List.take_zero]

theorem emptied (h : IsDrained b) : IsDrained b.emptied :=
  ⟨rfl, h.yields_nothing⟩

theorem rest_eq_nil (h : IsDrained b) (hsize : 0 < b.blockSize) (hgenerous : b.source.IsGenerous) :
    b.source.rest = [] := by
  rcases h.yields_nothing with hrest | hgrant
  · exact hrest
  · have := hgenerous 0 b.room (room_pos hsize)
    have := hgrant 0
    omega

theorem back (h : IsDrained b) : IsDrained b.back := by
  simp only [Buffer.back, h.before_eq]
  exact h

theorem moveTo (h : IsDrained b) (target : Int) : IsDrained (b.moveTo target) where
  block_eq := by
    simp only [Buffer.moveTo, block, List.reverse_reverse, List.take_append_drop]
    exact h.block_eq
  yields_nothing := h.yields_nothing

end IsDrained

section Drained
variable (tolerant : Bool)

/-- A drained buffer yields no byte, and is drained ever after. -/
theorem next_drained : Ensures IsDrained (next tolerant) (fun byte b => byte = none ∧ IsDrained b)
    (fun _ => IsDrained) := by
  intro b h
  rcases Nat.eq_zero_or_pos b.blockSize with hsize | hsize
  · simp only [next, take, refill, h.after_eq, hsize, if_true]
    exact h
  · have hnext := next_nexts hsize tolerant
    generalize next tolerant b = result at hnext ⊢
    cases hnext with
    | inBlock hafter =>
      rw [h.after_eq] at hafter
      cases hafter
    | refused => exact h.emptied
    | ended => exact ⟨rfl, rfl, h.yields_nothing⟩
    | cutShort => exact h.emptied
    | refilled _ _ hblock =>
      rw [h.block_eq_nil] at hblock
      cases hblock

theorem refill_drained : Ensures IsDrained (refill tolerant) (fun _ => IsDrained)
    (fun _ => IsDrained) := by
  intro b h
  rcases Nat.eq_zero_or_pos b.blockSize with hsize | hsize
  · simp only [refill, hsize, if_true]
    exact h
  · have hrefill := refill_refills hsize tolerant
    generalize refill tolerant b = result at hrefill ⊢
    cases hrefill with
    | refused => exact h.emptied
    | ended => exact ⟨rfl, h.yields_nothing⟩
    | cutShort => exact h.emptied
    | refilled _ hblock => exact absurd h.block_eq_nil hblock

/-- A buffer over a conclusive source is drained where it comes to the end. -/
theorem drained_of_next_eq_none {b b' : Buffer} (hconclusive : b.source.IsConclusive)
    (h : next tolerant b = .ok none b') : b'.IsDrained := by
  rcases Nat.eq_zero_or_pos b.blockSize with hsize | hsize
  · cases hafter : b.after with
    | nil =>
      simp only [next, take, refill, hafter, hsize, if_true] at h
      cases h
    | cons byte after =>
      rw [next_of_after tolerant hafter] at h
      cases h
  · have hnext := next_nexts hsize tolerant (b := b)
    rw [h] at hnext
    cases hnext with
    | ended _ _ hblock _ => exact ⟨rfl, (IsDrained.of_block_eq_nil hsize hconclusive hblock).yields_nothing⟩

end Drained
end Buffer
end PdfSyntax
