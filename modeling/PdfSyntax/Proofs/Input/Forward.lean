import PdfSyntax.Proofs.Input.Blocks

/-!
# Skipping forward over blocks

A buffer goes forward to an offset by throwing blocks away until one reaches that far. Within the data
it ends up where a direct cursor simply goes.
-/

set_option autoImplicit false

namespace PdfSyntax.Buffer

section Skip
variable {b b' : Buffer} {tolerant : Bool} {target : Int}

theorem skipTo_of_error {e : Failure} (h : b.stop < target) (hr : refill tolerant b = .error e b') :
    skipTo tolerant target b = .error e b' := by
  rw [skipTo, if_pos h]
  split <;> simp_all

theorem skipTo_of_end (h : b.stop < target) (hr : refill tolerant b = .ok false b') :
    skipTo tolerant target b = .ok () b' := by
  rw [skipTo, if_pos h]
  split <;> simp_all

theorem skipTo_of_refill (h : b.stop < target) (hr : refill tolerant b = .ok true b') :
    skipTo tolerant target b = skipTo tolerant target b' := by
  rw [skipTo, if_pos h]
  split <;> simp_all

theorem skipTo_of_le (h : target ≤ b.stop) :
    skipTo tolerant target b = .ok () (b.moveTo target) := by
  rw [skipTo, if_neg (by omega)]

end Skip

section Kept
variable {I : Buffer → Prop} {E : Failure → Buffer → Prop} {tolerant : Bool}
variable (hrefill : Ensures I (refill tolerant) (fun _ => I) E)
variable (hmove : ∀ {b : Buffer} (target : Int), I b → I (b.moveTo target))
include hrefill hmove

/-- What the next block and a move inside a block keep is kept by skipping, by induction on what the
source has left, of which each block takes something. -/
theorem skipTo_ensures (target : Int) : Ensures I (skipTo tolerant target) (fun _ => I) E := by
  intro b h
  induction hn : b.source.rest.length using Nat.strongRecOn generalizing b with
  | _ n ih =>
    by_cases hlt : b.stop < target
    · have hrefilled := hrefill b h
      cases hr : refill tolerant b with
      | error e b' =>
        rw [hr] at hrefilled
        rw [skipTo_of_error hlt hr]
        exact hrefilled
      | ok more b' =>
        rw [hr] at hrefilled
        cases more with
        | false =>
          rw [skipTo_of_end hlt hr]
          exact hrefilled
        | true =>
          rw [skipTo_of_refill hlt hr]
          obtain ⟨hne, hsum⟩ := left_refill hr
          have hpos := List.length_pos_iff.mpr hne
          exact ih _ (by omega) b' hrefilled rfl
    · rw [skipTo_of_le (by omega)]
      exact hmove target h

theorem forward_ensures (hbackward : ∀ {b : Buffer} (target : Int), I b → E (.backward b.offset target) b)
    (target : Int) : Ensures I (forward tolerant target) (fun _ => I) E := by
  intro b h
  by_cases hlt : target < b.start
  · rw [forward, if_pos hlt]
    exact hbackward target h
  · rw [forward, if_neg hlt]
    exact skipTo_ensures hrefill hmove target b h

end Kept

namespace Shows
variable {medium : Medium} {b : Buffer} {d : Direct}

theorem moveTo (h : Shows medium b d) {target : Int} (hstart : b.start ≤ target)
    (hstop : target ≤ b.stop) : Shows medium (b.moveTo target) { d with offset := target } := by
  have hblock : (b.moveTo target).block = b.block := by
    simp only [Buffer.moveTo, block, List.reverse_reverse]
    exact List.take_append_drop _ _
  refine { h.toOver.replaced hblock, h with block_le := ?_, block_eq := ?_, offset_eq := ?_ }
  · rw [hblock]
    exact h.block_le
  · rw [hblock]
    exact h.block_eq
  · simp only [Buffer.moveTo, Buffer.offset, List.length_drop, start] at *
    omega

theorem start_afterRead (b : Buffer) : b.afterRead.start = b.stop := by
  simp [start, block, Buffer.afterRead]

/-- Skipping reads on only as long as there is something to read. -/
theorem skipTo {tolerant : Bool} {target : Int} (h : Shows medium b d) (hstart : b.start ≤ target)
    (hend : target ≤ medium.origin + medium.data.length) :
    ∃ b', Buffer.skipTo tolerant target b = .ok () b' ∧
      Shows medium b' { d with offset := target } := by
  induction hn : b.source.rest.length using Nat.strongRecOn generalizing b d with
  | _ n ih =>
    by_cases hstop : b.stop < target
    · have hrest : b.source.rest ≠ [] := by
        have hplace := h.stop_eq
        rw [Source.rest, h.data_eq]
        intro hnil
        have := List.drop_eq_nil_iff.mp hnil
        omega
      obtain ⟨hrefill, hne⟩ := h.refill_of_rest_ne_nil hrest tolerant
      have hless := left_refill hrefill
      have hpos := List.length_pos_iff.mpr hne
      obtain ⟨b', hskip, hshows⟩ := ih _ (by omega) h.afterRead
        (by rw [start_afterRead]; omega) rfl
      exact ⟨b', (skipTo_of_refill hstop hrefill).trans hskip, hshows⟩
    · exact ⟨_, skipTo_of_le (by omega), h.moveTo hstart (by omega)⟩

theorem forward (tolerant : Bool) {target : Int} (h : Shows medium b d) (hle : d.offset ≤ target)
    (hend : target ≤ medium.origin + medium.data.length) :
    ∃ b', Buffer.forward tolerant target b = .ok () b' ∧
      Shows medium b' { d with offset := target } := by
  have hstart : b.start ≤ target := by
    have hoffset := h.offset_eq
    simp only [start, Buffer.offset, block, List.length_append] at *
    omega
  rw [Buffer.forward, if_neg (by omega)]
  exact h.skipTo hstart hend

end Shows
end PdfSyntax.Buffer
