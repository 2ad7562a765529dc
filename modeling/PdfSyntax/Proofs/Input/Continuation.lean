import PdfSyntax.Proofs.Input.Refill

/-!
# More data behind the data

A source may be followed by more data, and yield and refuse as before. A buffer over the longer data,
whether it tolerates the end or not, yields what the buffer over the data yields, until that one comes to
the end. The blocks are the same as long as the shorter source has anything left; the last block of the
shorter source may be cut short.
-/

set_option autoImplicit false

namespace PdfSyntax

/-- A source with more data, that yields and refuses as before. -/
def Source.followedBy (s : Source) (more : Bytes) : Source :=
  { s with data := s.data ++ more }

/-- Whether a source never refuses. -/
def Source.IsWilling (s : Source) : Prop :=
  ∀ read position, s.refusal read position = none

namespace Buffer

/-- A buffer that can be read and has come to a tolerated end. -/
def IsOver (b : Buffer) : Prop :=
  0 < b.blockSize ∧ b.isEnded = true

section Over
variable (tolerant : Bool)

theorem next_over : Ensures IsOver (next tolerant) (fun _ => IsOver) (fun _ => IsOver) := by
  intro b hb
  have hnext := next_nexts hb.1 tolerant
  generalize next tolerant b = result at hnext ⊢
  cases hnext with
  | ended _ _ _ _ => exact ⟨hb.1, rfl⟩
  | _ => exact hb

theorem refill_over : Ensures IsOver (refill tolerant) (fun _ => IsOver) (fun _ => IsOver) := by
  intro b hb
  have hrefill := refill_refills hb.1 tolerant
  generalize refill tolerant b = result at hrefill ⊢
  cases hrefill with
  | ended _ _ _ => exact ⟨hb.1, rfl⟩
  | _ => exact hb

theorem IsOver.back {b : Buffer} (hb : b.IsOver) : b.back.IsOver := by
  rw [Buffer.back]
  cases b.before <;> exact hb

end Over

/-- The first buffer has not come to the end, and the second one goes on with the same bytes, behind
which there may be more. While the first source has anything left, the blocks are the same. -/
structure Precedes (b c : Buffer) : Prop where
  blockSize_pos : 0 < b.blockSize
  blockSize_eq : c.blockSize = b.blockSize
  willing : b.source.IsWilling
  grant_eq : c.source.grant = b.source.grant
  refusal_eq : c.source.refusal = b.source.refusal
  offset_eq : c.offset = b.offset
  isEnded_eq : b.isEnded = false ∧ c.isEnded = false
  rest_prefix : b.after ++ b.source.rest <+: c.after ++ c.source.rest
  after_prefix : b.after <+: c.after
  same_block : b.source.rest ≠ [] → c.after = b.after ∧ c.source.reads = b.source.reads

section Precedes
variable {b c : Buffer}

theorem precedes_atOffset (source : Source) (more : Bytes) (offset : Int) {blockSize : Nat}
    (hsize : 0 < blockSize) (hwilling : source.IsWilling) :
    Precedes (atOffset source offset blockSize) (atOffset (source.followedBy more) offset blockSize) where
  blockSize_pos := hsize
  blockSize_eq := rfl
  willing := hwilling
  grant_eq := rfl
  refusal_eq := rfl
  offset_eq := rfl
  isEnded_eq := ⟨rfl, rfl⟩
  rest_prefix := by
    change source.data.drop source.position <+: (source.data ++ more).drop source.position
    rw [List.drop_append]
    exact List.prefix_append _ _
  after_prefix := List.nil_prefix
  same_block _ := ⟨rfl, rfl⟩

namespace Precedes
variable (h : Precedes b c)
include h

theorem passed {byte : UInt8} {after after' : Bytes} (hb : b.after = byte :: after)
    (hc : c.after = byte :: after') : Precedes (b.passed byte after) (c.passed byte after') := by
  have hrest := h.rest_prefix
  have hafter := h.after_prefix
  have hoffset := h.offset_eq
  rw [hb, hc] at hrest hafter
  simp only [offset, hb, hc, List.length_cons] at hoffset
  refine { h with offset_eq := ?_, rest_prefix := ?_, after_prefix := ?_, same_block := ?_ }
  · simp only [offset, Buffer.passed]
    omega
  · exact (List.cons_prefix_cons.mp hrest).2
  · exact (List.cons_prefix_cons.mp hafter).2
  · intro hne
    obtain ⟨hsame, hreads⟩ := h.same_block hne
    rw [hb, hc] at hsame
    exact ⟨(List.cons.inj hsame).2, hreads⟩

/-- With nothing left in the blocks, the next blocks of the two sources are of one size, unless the
first source has less. -/
theorem block_prefix (hafter : b.after = []) (hrest : b.source.rest ≠ []) :
    c.after = [] ∧ ∃ count, b.source.block b.room = b.source.rest.take count ∧
      c.source.block c.room = c.source.rest.take count ∧ b.source.rest <+: c.source.rest := by
  obtain ⟨hsame, hreads⟩ := h.same_block hrest
  have hnil : c.after = [] := hsame.trans hafter
  have hstop : c.stop = b.stop := by
    have := h.offset_eq
    simp only [offset, hafter, hnil, List.length_nil] at this
    omega
  have hroom : c.room = b.room := by rw [room, room, h.blockSize_eq, hstop]
  have hprefix := h.rest_prefix
  rw [hafter, hnil] at hprefix
  refine ⟨hnil, min b.room (b.source.grant b.source.reads b.room), rfl, ?_, hprefix⟩
  rw [Source.block, hroom, h.grant_eq, hreads]

theorem refusal?_eq_none : b.refusal? = none ∧ c.refusal? = none := by
  refine ⟨h.willing _ _, ?_⟩
  rw [refusal?, h.refusal_eq]
  exact h.willing _ _

theorem afterRead (hafter : b.after = []) (hrest : b.source.rest ≠ []) :
    Precedes b.afterRead c.afterRead := by
  obtain ⟨hnil, count, hb, hc, hprefix⟩ := h.block_prefix hafter hrest
  obtain ⟨hrefusal, hrefusal'⟩ := h.refusal?_eq_none
  have hsource := afterRead_source hrefusal
  have hsource' := afterRead_source hrefusal'
  have hreads := (h.same_block hrest).2
  have hleft := afterRead_append_rest hrefusal
  have hleft' := afterRead_append_rest hrefusal'
  obtain ⟨more, hmore⟩ := hprefix
  refine ⟨h.blockSize_pos, h.blockSize_eq, ?_, ?_, ?_, ?_, h.isEnded_eq, ?_, ?_, ?_⟩
  · rw [hsource]
    exact h.willing
  · rw [hsource, hsource']
    exact h.grant_eq
  · rw [hsource, hsource']
    exact h.refusal_eq
  · have := h.offset_eq
    simp only [offset, hafter, hnil, List.length_nil, Buffer.afterRead] at this ⊢
    omega
  · rw [hleft, hleft', ← hmore]
    exact List.prefix_append _ _
  · change b.source.block b.room <+: c.source.block c.room
    rw [hb, hc, ← hmore, List.take_append]
    exact List.prefix_append _ _
  · intro hne
    have hlt : count < b.source.rest.length := by
      refine Nat.lt_of_not_le fun hge => ?_
      have hall : b.afterRead.after = b.source.rest := hb.trans (List.take_of_length_le hge)
      rw [hall, List.append_right_eq_self] at hleft
      exact hne hleft
    refine ⟨?_, by rw [hsource, hsource', Source.recount, Source.recount, hreads]⟩
    change c.source.block c.room = b.source.block b.room
    rw [hb, hc, ← hmore, List.take_append_of_le_length (Nat.le_of_lt hlt)]

end Precedes

/-- Both yield the same byte, or the first one comes to the end. -/
theorem next_precedes (h : Precedes b c) (tolerant : Bool) : match next true b with
    | .ok (some byte) b' => ∃ c', next tolerant c = .ok (some byte) c' ∧ Precedes b' c' ∧
      Precedes b'.back c'.back
    | .ok none b' => b'.IsOver
    | .error _ _ => False := by
  have hnext := next_nexts h.blockSize_pos true
  obtain ⟨hrefusal, hrefusal'⟩ := h.refusal?_eq_none
  generalize next true b = result at hnext ⊢
  cases hnext with
  | @inBlock byte after hafter =>
    have hprefix := h.after_prefix
    rw [hafter] at hprefix
    obtain ⟨more, hmore⟩ := hprefix
    have hafter' : c.after = byte :: (after ++ more) := hmore.symm
    refine ⟨_, next_of_after tolerant hafter', h.passed hafter hafter', ?_⟩
    rw [back_passed hafter, back_passed hafter']
    exact h
  | refused _ hrefused =>
    rw [hrefusal] at hrefused
    cases hrefused
  | ended _ _ _ _ => exact ⟨h.blockSize_pos, rfl⟩
  | cutShort _ _ _ htolerant => cases htolerant
  | @refilled byte after hafter _ hblock =>
    have hrest : b.source.rest ≠ [] := by
      intro hnil
      simp [Source.block, hnil] at hblock
    have hread := h.afterRead hafter hrest
    have hblock' : b.afterRead.after = byte :: after := hblock
    have hprefix := hread.after_prefix
    rw [hblock'] at hprefix
    obtain ⟨more, hmore⟩ := hprefix
    have hafter' : c.afterRead.after = byte :: (after ++ more) := hmore.symm
    refine ⟨_, next_of_block tolerant (h.blockSize_eq ▸ h.blockSize_pos) (h.block_prefix hafter hrest).1
      hrefusal' hafter', hread.passed hblock' hafter', ?_⟩
    rw [back_passed hblock', back_passed hafter']
    exact hread

end Precedes
end Buffer
end PdfSyntax
