import PdfSyntax.Proofs.Input.Passing
import PdfSyntax.Proofs.Input.Refill
import PdfSyntax.Proofs.Reader.Invariant

/-!
# The bytes ahead of a buffer

A buffer over a steady source has the bytes ahead that come after its place in the block, and then those
that its source has left. Wherever the buffer was sent before, it does what a direct cursor does that
stands in front of these bytes and has no others. It has come to the end only if there are none.
-/

set_option autoImplicit false

namespace PdfSyntax

theorem Direct.next_of_rest_cons {d : Direct} {byte : UInt8} {rest : Bytes} (tolerant : Bool)
    (h : d.rest = byte :: rest) :
    Direct.next tolerant d = .ok (some byte) { d with offset := d.offset + 1 } := by
  have hbyte : d.byte? = some byte := by rw [d.byte?_eq_head?, h]; rfl
  simp only [Direct.next, hbyte]

theorem Direct.next_of_rest_nil {d : Direct} (tolerant : Bool) (h : d.rest = []) :
    Direct.next tolerant d = if tolerant then .ok none { d with isEnded := true }
      else .error (.unexpectedEnd d.offset) d := by
  have hbyte : d.byte? = none := by rw [d.byte?_eq_head?, h]; rfl
  cases tolerant <;> simp [Direct.next, hbyte, Direct.atEnd]

namespace Buffer

def ahead (b : Buffer) : Bytes :=
  b.after ++ b.source.rest

/-- A buffer over a medium and a direct cursor at the same offset, in front of the same bytes. -/
structure Faces (medium : Medium) (b : Buffer) (d : Direct) : Prop extends Over medium b where
  inside : d.IsInside
  rest_eq : d.rest = b.ahead
  offset_eq : b.offset = d.offset
  isEnded_eq : b.isEnded = d.isEnded

/-- The direct cursor over nothing but the bytes ahead. -/
def front (b : Buffer) : Direct :=
  ⟨b.ahead, b.offset, b.offset, b.isEnded⟩

section Faces
variable {medium : Medium} {b : Buffer} {d : Direct} {byte : UInt8} {after : Bytes}

theorem rest_front (b : Buffer) : b.front.rest = b.ahead := by
  simp [Direct.rest, front]

theorem Over.ahead_eq_nil (h : Over medium b) (hended : b.isEnded = true) : b.ahead = [] := by
  obtain ⟨hblock, hrest⟩ := h.ended hended
  rw [ahead, (List.append_eq_nil_iff.mp hblock).2, hrest]
  rfl

theorem Over.faces (h : Over medium b) : Faces medium b b.front :=
  { h with
    inside := ⟨Int.le_refl _, fun hended => b.rest_front.trans (h.ahead_eq_nil hended)⟩
    rest_eq := b.rest_front
    offset_eq := rfl
    isEnded_eq := rfl }

theorem offset_of_after_nil (h : b.after = []) : b.offset = b.stop := by
  simp only [offset, h, List.length_nil]
  omega

theorem Faces.passed (h : Faces medium b d) (ha : b.after = byte :: after) :
    Faces medium (b.passed byte after) { d with offset := d.offset + 1 } := by
  have hrest : d.rest = byte :: (after ++ b.source.rest) := by
    rw [h.rest_eq, ahead, ha, List.cons_append]
  have hbyte : d.byte? = some byte := by rw [d.byte?_eq_head?, hrest]; rfl
  have hpass := Direct.Passes.of_byte? h.inside hbyte
  have hblock : (b.passed byte after).block = b.block := by simp [block, Buffer.passed, ha]
  refine { h.toOver.replaced hblock, h with
    inside := hpass.isInside h.inside, rest_eq := ?_, offset_eq := ?_ }
  · have hcons := hpass.rest_eq
    rw [hrest] at hcons
    exact (List.cons.inj hcons).2.symm
  · have hoffset := h.offset_eq
    simp only [offset, Buffer.passed, ha, List.length_cons] at hoffset ⊢
    omega

theorem Faces.afterRead (h : Faces medium b d) (ha : b.after = []) (hrefusal : b.refusal? = none) :
    Faces medium b.afterRead d := by
  refine { h.toOver.afterRead, h with rest_eq := ?_, offset_eq := ?_ }
  · rw [ahead, afterRead_append_rest hrefusal, h.rest_eq, ahead, ha, List.nil_append]
  · rw [← h.offset_eq, offset_of_after_nil ha]
    simp only [offset, Buffer.afterRead]
    omega

theorem Over.emptied (h : Over medium b) : Over medium b.emptied :=
  { h with
    steady := ⟨h.steady.generous, h.steady.unrefused⟩
    ended := fun hended => ⟨rfl, (h.ended hended).2⟩ }

theorem Faces.emptied (h : Faces medium b d) (ha : b.after = []) : Faces medium b.emptied d := by
  refine { h.toOver.emptied, h with rest_eq := ?_, offset_eq := ?_ }
  · rw [h.rest_eq, ahead, ha]
    rfl
  · rw [← h.offset_eq, offset_of_after_nil ha]
    exact offset_of_after_nil rfl

theorem Faces.rest_eq_nil (h : Faces medium b d) (ha : b.after = [])
    (hblock : b.source.block b.room = []) : d.rest = [] := by
  have hrest := (Source.block_eq_nil_iff h.steady.generous h.room_pos).mp hblock
  rw [h.rest_eq, ahead, ha, hrest, List.append_nil]

end Faces

/-- By cases of what a buffer comes to when it is asked for a byte; a steady source never refuses. -/
theorem next_faces (medium : Medium) (tolerant : Bool) :
    Agree (Faces medium) (next tolerant) (Direct.next tolerant)
      (fun byte b d => Faces medium b d ∧ (byte.isSome → Faces medium b.back d.back))
      (fun _ => Faces medium) := by
  intro b d h
  have hback : ({ d with offset := d.offset + 1 } : Direct).back = d := by simp [Direct.back]
  have hnext := next_nexts h.blockSize_pos tolerant (b := b)
  generalize next tolerant b = result at hnext ⊢
  cases hnext with
  | @inBlock byte after ha =>
    have hrest : d.rest = byte :: (after ++ b.source.rest) := by
      rw [h.rest_eq, ahead, ha, List.cons_append]
    rw [Direct.next_of_rest_cons tolerant hrest]
    refine .ok ⟨h.passed ha, fun _ => ?_⟩
    rw [back_passed ha, hback]
    exact h
  | refused _ hrefusal =>
    have hnone := h.steady.unrefused b.source.reads b.source.position
    exact absurd (hrefusal.symm.trans hnone) (by simp)
  | ended ha _ hblock htolerant =>
    have hnil := h.rest_eq_nil ha hblock
    rw [Direct.next_of_rest_nil tolerant hnil, if_pos htolerant]
    have hrest : b.source.rest = [] := (List.append_eq_nil_iff.mp (h.rest_eq.symm.trans hnil)).2
    have hended : Faces medium { b.emptied with isEnded := true } { d with isEnded := true } :=
      { h.emptied ha with
        inside := ⟨h.inside.origin_le, fun _ => hnil⟩
        isEnded_eq := rfl
        ended := fun _ => ⟨rfl, hrest⟩ }
    exact .ok ⟨hended, fun hsome => by cases hsome⟩
  | cutShort ha _ hblock htolerant =>
    rw [Direct.next_of_rest_nil tolerant (h.rest_eq_nil ha hblock), htolerant,
      ← offset_of_after_nil ha, h.offset_eq]
    exact .error (h.emptied ha)
  | @refilled byte after ha hrefusal hblock =>
    have hread := h.afterRead ha hrefusal
    have hafter : b.afterRead.after = byte :: after := hblock
    have hrest : d.rest = byte :: (after ++ b.afterRead.source.rest) := by
      rw [hread.rest_eq, ahead, hafter, List.cons_append]
    rw [Direct.next_of_rest_cons tolerant hrest]
    refine .ok ⟨hread.passed hafter, fun _ => ?_⟩
    rw [back_passed hafter, hback]
    exact hread

/-- A buffer cannot be told from a direct cursor in front of the same bytes, unless it is sent
elsewhere. -/
theorem faces_simulation (medium : Medium) : Simulation (Faces medium) (fun _ => False) where
  next := next_faces medium
  offset h := h.offset_eq
  isEnded h := h.isEnded_eq
  left {b d} h := by
    have hlength := congrArg List.length h.rest_eq
    rw [Direct.length_rest h.inside, ahead, List.length_append] at hlength
    exact hlength.symm
  seek h := h.elim

/-- A buffer that has gone over some of the bytes ahead. -/
structure Advances (medium : Medium) (b : Buffer) (bytes : Bytes) (b' : Buffer) : Prop
    extends Over medium b' where
  ahead_eq : b.ahead = bytes ++ b'.ahead
  offset_eq : b'.offset = b.offset + bytes.length

theorem Over.advances {medium : Medium} {b b' : Buffer} {bytes : Bytes} {d : Direct}
    (hpass : b.front.Passes bytes d) (h' : Faces medium b' d) : Advances medium b bytes b' :=
  { h' with
    ahead_eq := by
      rw [← h'.rest_eq, ← hpass.rest_eq, rest_front]
    offset_eq := h'.offset_eq.trans hpass.offset_eq }

theorem Advances.ahead_eq_nil {medium : Medium} {b b' : Buffer} {bytes : Bytes}
    (h : Advances medium b bytes b') (hoffset : b'.offset = b.offset + b.ahead.length) :
    b'.ahead = [] := by
  have hlength := congrArg List.length h.ahead_eq
  rw [List.length_append] at hlength
  have hpassed := h.offset_eq
  exact List.length_eq_zero_iff.mp (by omega)

section Ended
variable {b b' : Buffer} {tolerant : Bool}

theorem Over.of_next {medium : Medium} {byte : Option UInt8} (h : Over medium b)
    (hnext : next tolerant b = .ok byte b') : Over medium b' := by
  have hagree := next_faces medium tolerant b b.front h.faces
  rw [hnext] at hagree
  obtain ⟨d, -, hfaces, -⟩ := hagree.exists_ok
  exact hfaces.toOver

theorem Over.isEnded_of_next {medium : Medium} {byte : UInt8} (h : Over medium b)
    (hnext : next tolerant b = .ok (some byte) b') : b'.isEnded = false := by
  have hagree := next_faces medium tolerant b b.front h.faces
  rw [hnext] at hagree
  obtain ⟨d, hd, hfaces, -⟩ := hagree.exists_ok
  exact hfaces.isEnded_eq.trans (Direct.of_next_some h.faces.inside hd).2.1

theorem isEnded_of_next_eq_some {byte : UInt8} (h : next tolerant b = .ok (some byte) b') :
    b'.isEnded = b.isEnded := by
  cases ha : b.after with
  | cons byte' after =>
    rw [next_of_after tolerant ha] at h
    cases h
    rfl
  | nil =>
    rcases Nat.eq_zero_or_pos b.blockSize with hsize | hsize
    · simp only [next, take, refill, ha, hsize, if_true, reduceCtorEq] at h
    · have hnext := next_nexts hsize tolerant (b := b)
      rw [h] at hnext
      cases hnext <;> rfl

theorem isEnded_of_next_eq_none (hsize : 0 < b.blockSize) (h : next tolerant b = .ok none b') :
    b'.isEnded = true := by
  have hnext := next_nexts hsize tolerant (b := b)
  rw [h] at hnext
  cases hnext
  rfl

theorem isEnded_back (b : Buffer) : b.back.isEnded = b.isEnded := by
  unfold back
  split <;> rfl

/-- Where a buffer is over its medium, the lexer runs into the end exactly if its verdict is about the end. -/
theorem Over.isEnded_of_lex {medium : Medium} {state : Lexer.State} {verdict : Lexer.Verdict}
    (h : Over medium b) (hlexed : Reader.lex tolerant state b = .ok verdict b') :
    (b'.isEnded = false ∧ ∃ state' byte, (Lexer.State.step state' byte).verdict? = some verdict) ∨
      b'.isEnded = true ∧ ∃ state' : Lexer.State, state'.finish = verdict := by
  induction state, b using Reader.lex_induction (σ := Buffer) tolerant with
  | error _ hlex => cases hlex.symm.trans hlexed
  | again hnext _ hlex ih => exact ih (h.of_next hnext) (hlex.symm.trans hlexed)
  | finished hnext hfill hlex =>
    cases hlex.symm.trans hlexed
    exact .inr ⟨isEnded_of_next_eq_none h.blockSize_pos hnext, _, Lexer.finish_of_fill hfill⟩
  | more hnext _ hlex ih => exact ih (h.of_next hnext) (hlex.symm.trans hlexed)
  | done hnext hs hlex =>
    have hended := h.isEnded_of_next hnext
    cases hlex.symm.trans hlexed
    have hstep := (Lexer.State.take_of_not_ended hended _ _).symm.trans hs
    exact .inl ⟨hended, _, _, by rw [hstep]; rfl⟩
  | doneBefore hnext hs hlex =>
    have hended := h.isEnded_of_next hnext
    cases hlex.symm.trans hlexed
    have hstep := (Lexer.State.take_of_not_ended hended _ _).symm.trans hs
    exact .inl ⟨(isEnded_back _).trans hended, _, _, by rw [hstep]; rfl⟩

end Ended

/-- A buffer that has come to the end, if it has, has nothing at hand and nothing to come. -/
def IsSpent (b : Buffer) : Prop :=
  b.isEnded = true → b.IsDrained

namespace IsSpent
variable {b : Buffer} (h : IsSpent b)
include h

theorem emptied : IsSpent b.emptied :=
  fun hended => (h hended).emptied

theorem passed {byte : UInt8} {after : Bytes} (ha : b.after = byte :: after) :
    IsSpent (b.passed byte after) := by
  intro hended
  rw [(h hended).after_eq] at ha
  cases ha

theorem afterRead (hblock : b.source.block b.room ≠ []) : IsSpent b.afterRead :=
  fun hended => absurd (h hended).block_eq_nil hblock

theorem back : IsSpent b.back := by
  intro hended
  rw [isEnded_back] at hended
  exact (h hended).back

theorem moveTo (target : Int) : IsSpent (b.moveTo target) :=
  fun hended => (h hended).moveTo target

/-- A byte comes only where the end was not reached. -/
theorem isEnded_of_next {b' : Buffer} {tolerant : Bool} {byte : UInt8}
    (hnext : next tolerant b = .ok (some byte) b') : b'.isEnded = false := by
  rw [isEnded_of_next_eq_some hnext]
  cases hended : b.isEnded with
  | true =>
    have hdrained := next_drained tolerant b (h hended)
    rw [hnext] at hdrained
    cases hdrained.1
  | false => rfl

end IsSpent

/-- A seek makes a buffer forget that it has come to the end, also one in vain. -/
theorem seek_spent (start : Buffer) (target : Int) : Ensures (fun b => StemsFrom start b ∧ IsSpent b)
    (seek target) (fun _ b => StemsFrom start b ∧ IsSpent b)
    (fun _ b => StemsFrom start b ∧ IsSpent b) := by
  rintro b ⟨hstems, -⟩
  have hstems' := seek_stems start target b hstems
  cases ho : b.origin with
  | none =>
    rw [seek_of_none ho] at hstems' ⊢
    exact ⟨hstems', fun hended => by cases hended⟩
  | some origin =>
    by_cases hlt : target < origin
    · rw [seek_of_lt ho hlt] at hstems' ⊢
      exact ⟨hstems', fun hended => by cases hended⟩
    · rw [seek_of_le ho (by omega)] at hstems' ⊢
      exact ⟨hstems', fun hended => by cases hended⟩

theorem StemsFrom.isOver_of_isSpent {medium : Medium} {start b : Buffer} (h : StemsFrom start b)
    (hspent : IsSpent b) (hstart : Over medium start) : Over medium b := by
  refine h.isOver hstart fun hended => ⟨(hspent hended).block_eq, (hspent hended).rest_eq_nil ?_ ?_⟩
  · exact h.blockSize_eq ▸ hstart.blockSize_pos
  · exact h.isGenerous hstart.steady.generous

section Spent
variable {start : Buffer} (hconclusive : start.source.IsConclusive)
include hconclusive

theorem StemsFrom.isSpent_of_block_eq_nil {b : Buffer} (hsize : 0 < b.blockSize) (h : StemsFrom start b)
    (hblock : b.source.block b.room = []) : IsSpent { b.emptied with isEnded := true } := by
  intro _
  have hdrained := IsDrained.of_block_eq_nil hsize (h.isConclusive hconclusive) hblock
  exact ⟨rfl, hdrained.yields_nothing⟩

theorem refill_spent (tolerant : Bool) : Ensures (fun b => StemsFrom start b ∧ IsSpent b)
    (refill tolerant) (fun _ b => StemsFrom start b ∧ IsSpent b)
    (fun _ b => StemsFrom start b ∧ IsSpent b) := by
  rintro b ⟨hstems, hspent⟩
  rcases Nat.eq_zero_or_pos b.blockSize with hsize | hsize
  · simpa only [refill, hsize, if_true] using ⟨hstems, hspent⟩
  · have hstems' := refill_stems start tolerant b hstems
    have hrefill := refill_refills hsize tolerant (b := b)
    generalize refill tolerant b = result at hstems' hrefill ⊢
    cases hrefill with
    | refused _ => exact ⟨hstems', hspent.emptied⟩
    | ended _ hblock _ => exact ⟨hstems', hstems.isSpent_of_block_eq_nil hconclusive hsize hblock⟩
    | cutShort _ _ _ => exact ⟨hstems', hspent.emptied⟩
    | refilled _ hblock => exact ⟨hstems', hspent.afterRead hblock⟩

theorem next_spent (tolerant : Bool) : Ensures (fun b => StemsFrom start b ∧ IsSpent b)
    (next tolerant) (fun _ b => StemsFrom start b ∧ IsSpent b)
    (fun _ b => StemsFrom start b ∧ IsSpent b) := by
  rintro b ⟨hstems, hspent⟩
  cases ha : b.after with
  | cons byte after =>
    rw [next_of_after tolerant ha]
    exact ⟨hstems, hspent.passed ha⟩
  | nil =>
    have hrefill := refill_spent hconclusive tolerant b ⟨hstems, hspent⟩
    simp only [next, take, ha]
    generalize refill tolerant b = result at hrefill ⊢
    cases result with
    | error e b' => exact hrefill
    | ok more b' =>
      cases more with
      | false => exact hrefill
      | true =>
        cases ha' : b'.after with
        | nil => simpa only [ha'] using hrefill
        | cons byte after => simpa only [ha'] using ⟨hrefill.1, hrefill.2.passed ha'⟩

/-- Whatever moves there were, a buffer over a conclusive source is ended only where nothing comes. -/
theorem spent_invariant : Cursor.Invariant fun b => StemsFrom start b ∧ IsSpent b where
  next := next_spent hconclusive
  back h := ⟨h.1.back, h.2.back⟩
  seek := seek_spent start
  forward tolerant target := forward_ensures (refill_spent hconclusive tolerant)
    (fun target h => ⟨h.1, h.2.moveTo target⟩) (fun _ h => h) target

end Spent
end Buffer
end PdfSyntax
