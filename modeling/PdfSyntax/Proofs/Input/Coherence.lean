import PdfSyntax.Proofs.Input.Refill

/-!
# The block is where the source was

A buffer is coherent if its block is what the data hold right before the position of the source, if the
end of the block is that position in offsets, and if no multiple of the block size lies inside the
block. Every move keeps a buffer coherent, whatever the source yields or refuses, as long as nobody
sends it before the start of the data. After a tolerated end the block is empty, and if the source is
conclusive there is nothing to come.
-/

set_option autoImplicit false

namespace PdfSyntax.Buffer

/-- A buffer over a movable source, the first byte of which has the given offset. -/
structure Coherent (origin : Int) (b : Buffer) : Prop where
  origin_eq : b.origin = some origin
  blockSize_pos : 0 < b.blockSize
  stop_eq : b.stop = origin + b.source.position
  block_le : b.block.length ≤ b.source.position
  block_eq : b.source.data.drop (b.source.position - b.block.length) = b.block ++ b.source.rest
  uncrossed : ∀ k : Int, b.start < k * b.blockSize → b.stop ≤ k * b.blockSize
  ended : b.source.IsConclusive → b.isEnded = true → b.IsDrained

section Room
variable (b : Buffer)

theorem length_block : b.block.length = b.before.length + b.after.length := by
  simp only [block, List.length_append, List.length_reverse]

/-- A block that fills the room at most ends at the next multiple of the block size, or before. -/
theorem add_le_of_le_room {b : Buffer} (hsize : 0 < b.blockSize) {count : Nat} (hcount : count ≤ b.room)
    {k : Int} (hk : b.stop < k * b.blockSize) : b.stop + count ≤ k * b.blockSize := by
  have hsize' : (0 : Int) < b.blockSize := Int.natCast_pos.mpr hsize
  have hroom : (b.room : Int) = b.blockSize - b.stop % b.blockSize := by
    have := Int.emod_lt_of_pos b.stop hsize'
    have := Int.emod_nonneg b.stop (Int.ne_of_gt hsize')
    simp only [room]
    omega
  have hdiv := Int.mul_ediv_add_emod b.stop b.blockSize
  have hlt : b.stop / b.blockSize < k := Int.ediv_lt_of_lt_mul hsize' hk
  have hle : b.blockSize * (b.stop / b.blockSize + 1) ≤ (b.blockSize : Int) * k :=
    Int.mul_le_mul_of_nonneg_left hlt (Int.le_of_lt hsize')
  rw [Int.mul_add, Int.mul_one, Int.mul_comm _ k] at hle
  omega

end Room

theorem coherent_atOffset (source : Source) (offset : Int) {blockSize : Nat}
    (hmovable : source.isMovable = true) (hsize : 0 < blockSize) :
    Coherent (offset - source.position) (atOffset source offset blockSize) where
  origin_eq := if_pos hmovable
  blockSize_pos := hsize
  stop_eq := by simp only [atOffset]; omega
  block_le := by simp [atOffset, block]
  block_eq := by simp [atOffset, block, Source.rest]
  uncrossed k hk := by
    simp only [start, block, atOffset, List.reverse_nil, List.append_nil, List.length_nil] at hk ⊢
    omega
  ended _ h := by cases h

namespace Coherent
variable {origin : Int} {b : Buffer} (h : Coherent origin b)
include h

/-- Where the place is in the block does not matter. -/
theorem replaced {before after : Bytes} (hblock : before.reverse ++ after = b.block) :
    Coherent origin { b with before, after } := by
  have hblock' : { b with before, after }.block = b.block := hblock
  refine { h with block_le := ?_, block_eq := ?_, uncrossed := ?_, ended := ?_ }
  · rw [hblock']
    exact h.block_le
  · rw [hblock']
    exact h.block_eq
  · simp only [start, hblock']
    exact h.uncrossed
  · intro hconclusive hended
    have hdrained := h.ended hconclusive hended
    exact ⟨hblock'.trans hdrained.block_eq, hdrained.yields_nothing⟩

theorem passed {byte : UInt8} {after : Bytes} (hafter : b.after = byte :: after) :
    Coherent origin (b.passed byte after) := by
  apply h.replaced
  simp only [block, hafter, List.reverse_cons, List.append_assoc, List.cons_append, List.nil_append]

theorem back : Coherent origin b.back := by
  cases hbefore : b.before with
  | nil => simpa only [Buffer.back, hbefore] using h
  | cons byte before =>
    simp only [Buffer.back, hbefore]
    apply h.replaced
    simp only [block, hbefore, List.reverse_cons, List.append_assoc, List.cons_append, List.nil_append]

theorem moveTo (target : Int) : Coherent origin (b.moveTo target) := by
  apply h.replaced
  rw [List.reverse_reverse, List.take_append_drop]

theorem emptied : Coherent origin b.emptied where
  origin_eq := h.origin_eq
  blockSize_pos := h.blockSize_pos
  stop_eq := h.stop_eq
  block_le := Nat.zero_le _
  block_eq := rfl
  uncrossed k hk := by
    simp only [start, block, Buffer.emptied, List.reverse_nil, List.append_nil, List.length_nil] at hk ⊢
    omega
  ended hconclusive hended := (h.ended hconclusive hended).emptied

theorem ended_of_block_eq_nil (hblock : b.source.block b.room = []) :
    Coherent origin { b.emptied with isEnded := true } :=
  { h.emptied with
    ended := fun hconclusive _ =>
      have hdrained := IsDrained.of_block_eq_nil h.blockSize_pos hconclusive hblock
      ⟨rfl, hdrained.yields_nothing⟩ }

theorem afterRead (hrefusal : b.refusal? = none) (hblock : b.source.block b.room ≠ []) :
    Coherent origin b.afterRead := by
  have hsource := afterRead_source hrefusal
  have hlength : b.afterRead.block.length = (b.source.block b.room).length := by
    simp [block, Buffer.afterRead]
  have hposition : b.afterRead.source.position =
      b.source.position + (b.source.block b.room).length := by
    rw [hsource]
    rfl
  have hstop : b.afterRead.stop = b.stop + (b.source.block b.room).length := rfl
  refine ⟨h.origin_eq, h.blockSize_pos, ?_, ?_, ?_, ?_, ?_⟩
  · rw [hstop, hposition, h.stop_eq]
    omega
  · omega
  · rw [hlength, hposition, Nat.add_sub_cancel, hsource]
    exact (b.source.block_append_rest b.room).symm
  · intro k hk
    have hstart : b.afterRead.start = b.stop := by
      simp only [start, hlength, hstop]
      omega
    rw [hstart] at hk
    exact add_le_of_le_room h.blockSize_pos (b.source.length_block_le b.room) hk
  · intro hconclusive hended
    rw [hsource] at hconclusive
    have hdrained := h.ended hconclusive hended
    exact absurd hdrained.block_eq_nil hblock

end Coherent

section Moves
variable (origin : Int)

theorem refill_coherent (tolerant : Bool) : Ensures (Coherent origin) (refill tolerant)
    (fun _ => Coherent origin) (fun _ => Coherent origin) := by
  intro b h
  have hrefill := refill_refills h.blockSize_pos tolerant
  generalize refill tolerant b = result at hrefill ⊢
  cases hrefill with
  | refused _ => exact h.emptied
  | ended _ hblock _ => exact h.ended_of_block_eq_nil hblock
  | cutShort _ _ _ => exact h.emptied
  | refilled hrefusal hblock => exact h.afterRead hrefusal hblock

theorem next_coherent (tolerant : Bool) : Ensures (Coherent origin) (next tolerant)
    (fun _ => Coherent origin) (fun _ => Coherent origin) := by
  intro b h
  have hnext := next_nexts h.blockSize_pos tolerant
  generalize next tolerant b = result at hnext ⊢
  cases hnext with
  | inBlock hafter => exact h.passed hafter
  | refused _ _ => exact h.emptied
  | ended _ _ hblock _ => exact h.ended_of_block_eq_nil hblock
  | cutShort _ _ _ _ => exact h.emptied
  | refilled _ hrefusal hblock => exact (h.afterRead hrefusal (by rw [hblock]; simp)).passed hblock

theorem seek_coherent {target : Int} (htarget : origin ≤ target) : Ensures (Coherent origin)
    (seek target) (fun _ => Coherent origin) (fun _ => Coherent origin) := by
  intro b h
  rw [seek_of_le h.origin_eq htarget]
  refine ⟨h.origin_eq, h.blockSize_pos, ?_, Nat.zero_le _, rfl, ?_, fun _ hended => by cases hended⟩
  · simp only [Source.moveTo]
    omega
  · intro k hk
    simp only [start, block, List.reverse_nil, List.append_nil, List.length_nil] at hk ⊢
    omega

theorem forward_coherent (tolerant : Bool) (target : Int) : Ensures (Coherent origin)
    (forward tolerant target) (fun _ => Coherent origin) (fun _ => Coherent origin) :=
  forward_ensures (refill_coherent origin tolerant) (fun target h => h.moveTo target) (fun _ h => h)
    target

end Moves

namespace Coherent
variable {origin : Int} {b : Buffer} (h : Coherent origin b)
include h

theorem origin_le_start : origin ≤ b.start := by
  have hstop := h.stop_eq
  have hle := h.block_le
  simp only [start]
  omega

theorem length_block_le : b.block.length ≤ b.blockSize := by
  have hsize : (0 : Int) < b.blockSize := Int.natCast_pos.mpr h.blockSize_pos
  have hdiv := Int.mul_ediv_add_emod b.start b.blockSize
  have hlt := Int.emod_lt_of_pos b.start hsize
  have hge := Int.emod_nonneg b.start (Int.ne_of_gt hsize)
  have hnext : (b.start / b.blockSize + 1) * (b.blockSize : Int) =
      b.blockSize * (b.start / b.blockSize) + b.blockSize := by
    rw [Int.add_mul, Int.one_mul, Int.mul_comm]
  have hstop := h.uncrossed (b.start / b.blockSize + 1) (by omega)
  have hstart : b.start = b.stop - b.block.length := rfl
  omega

/-- The block is what the data hold between the offsets of its start and of its end. -/
theorem block_eq_slice : b.block =
    (b.source.data.take (b.stop - origin).toNat).drop (b.start - origin).toNat := by
  have hstop : (b.stop - origin).toNat = b.source.position := by
    have := h.stop_eq
    omega
  have hstart : (b.start - origin).toNat = b.source.position - b.block.length := by
    have := h.stop_eq
    have := h.block_le
    simp only [start]
    omega
  have hlength : b.source.position - (b.source.position - b.block.length) = b.block.length := by
    have := h.block_le
    omega
  rw [hstop, hstart, List.drop_take, hlength, h.block_eq]
  exact List.take_left.symm

/-- What is after the place is what the data hold from the offset of the place on. -/
theorem drop_offset : b.source.data.drop (b.offset - origin).toNat = b.after ++ b.source.rest := by
  have hplace : (b.offset - origin).toNat =
      b.source.position - b.block.length + b.before.length := by
    have := h.stop_eq
    have := h.block_le
    have := b.length_block
    simp only [offset]
    omega
  rw [hplace, ← List.drop_drop, h.block_eq, block, List.append_assoc]
  exact List.drop_left' List.length_reverse

/-- The byte that a buffer yields is the one that the data hold at the offset of its place. -/
theorem next_byte (tolerant : Bool) : match next tolerant b with
    | .ok (some byte) _ => b.source.data[(b.offset - origin).toNat]? = some byte
    | .ok none b' => b'.isEnded = true
    | .error _ _ => True := by
  have hhead := next_head h.blockSize_pos tolerant
  rw [← h.drop_offset, List.head?_drop] at hhead
  exact hhead

end Coherent
end PdfSyntax.Buffer
