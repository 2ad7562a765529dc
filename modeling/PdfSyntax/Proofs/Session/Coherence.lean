import PdfSyntax.File
import PdfSyntax.Proofs.Input.Coherence
import PdfSyntax.Proofs.Reader.Token
import PdfSyntax.Proofs.Session.Invariant

/-!
# The block of a session

Whatever a session does, as long as it goes nowhere before the start of the data, the block of the
buffer is what the data hold right before the position of the source, and the byte that is read next is
the one that the data hold at the offset of the place. A tolerated end is where the source yields
nothing; that is the end of the data only if the source yields something as long as there is something.
-/

set_option autoImplicit false

namespace PdfSyntax

theorem Buffer.coherent_law (origin : Int) : Cursor.Law (origin ≤ ·) (Buffer.Coherent origin) where
  next := Buffer.next_coherent origin
  back h := h.back
  seek h := Buffer.seek_coherent origin h
  forward := Buffer.forward_coherent origin

namespace Session

section Byte
variable {σ : Type} [Cursor σ] {r : Reader σ} {c : σ}

theorem step_byte_of_ok {byte : Option UInt8} (scope : Scope)
    (h : Cursor.next r.settings.tolerant r.cursor = .ok byte c) : step scope .byte r =
      ⟨.ok (.number (byte.getD Byte.lineFeed).toNat), [], [], { r.cleared with cursor := c }⟩ := by
  have hbyte : Reader.byte r.cleared = _ := Reader.byte_of_ok h
  rw [step_of_includes (by cases scope <;> rfl)]
  change Report.ofResult ((Reader.byte >>= fun byte => Pure.pure (.number byte.toNat)) r.cleared) = _
  simp only [Bind.bind, EStateM.bind, hbyte]
  rfl

theorem step_byte_of_error {e : Failure} (scope : Scope)
    (h : Cursor.next r.settings.tolerant r.cursor = .error e c) :
    step scope .byte r = ⟨.error e, [], [], { r.cleared with cursor := c }⟩ := by
  have hbyte : Reader.byte r.cleared = _ := Reader.byte_of_error h
  rw [step_of_includes (by cases scope <;> rfl)]
  change Report.ofResult ((Reader.byte >>= fun byte => Pure.pure (.number byte.toNat)) r.cleared) = _
  simp only [Bind.bind, EStateM.bind, hbyte]
  rfl

end Byte

/-- What is at hand after any operations that go nowhere before the start of the data: the place is in
the block, which is no longer than a block may be; the block is what the data hold from the offset of
its start to the offset of its end, where the source stands, and no multiple of the block size lies
inside. After a tolerated end the block is empty if the source is conclusive, and no data are left if it
is generous. A byte that is read without a tolerated end is the one at the place. -/
theorem coherent_after (source : Source) (offset : Int) (blockSize : Nat) (settings : Settings)
    (decrypt : Decipherment) (quiet : Bool) (scope : Scope) (steps : List (Operation × Nat))
    (hmovable : source.isMovable = true) (hsize : 0 < blockSize)
    (hsteps : ∀ step ∈ steps, step.1.GoesWithin (offset - source.position ≤ ·)) :
    let origin := offset - source.position
    let fresh : Reader Buffer := .new (.atOffset source offset blockSize) settings decrypt quiet
    let r := readerAfter (run scope steps fresh) fresh
    let b := r.cursor
    b.before.length ≤ b.block.length ∧ b.block.length ≤ blockSize ∧ origin ≤ b.start ∧
    b.block = (source.data.take (b.stop - origin).toNat).drop (b.start - origin).toNat ∧
    b.source.position = b.stop - origin ∧
    (∀ k : Int, b.start < k * blockSize → b.stop ≤ k * blockSize) ∧
    (b.isEnded = true →
      (source.IsConclusive → b.block = []) ∧
      (source.IsGenerous → b.block = [] ∧ source.data.drop (b.stop - origin).toNat = [])) ∧
    ∀ n, (step scope .byte r).outcome = .ok (.number n) →
      (step scope .byte r).reader.cursor.isEnded = false →
      ∃ byte, source.data[(b.offset - origin).toNat]? = some byte ∧ n = byte.toNat := by
  intro origin fresh r b
  have hstems : Cursor.Law (origin ≤ ·) (Buffer.StemsFrom fresh.cursor) :=
    (Buffer.stemsFrom_invariant _).law.of_imp fun _ _ => trivial
  have hover := readerAfter_over_of_law (hstems.and (Buffer.coherent_law origin)) scope hsteps
    (Reader.over_new (c := Buffer.atOffset source offset blockSize)
      ⟨Buffer.stemsFrom_self _, Buffer.coherent_atOffset source offset hmovable hsize⟩ settings decrypt
      quiet)
  obtain ⟨hfresh, hb⟩ : Buffer.StemsFrom fresh.cursor b ∧ Buffer.Coherent origin b := hover.cursor
  have hstop : b.stop = origin + b.source.position := hb.stop_eq
  have hdata : b.source.data = source.data := hfresh.data_eq
  have hblockSize : b.blockSize = blockSize := hfresh.blockSize_eq
  refine ⟨?_, ?_, hb.origin_le_start, ?_, ?_, ?_, ?_, ?_⟩
  · rw [Buffer.length_block]
    omega
  · rw [← hblockSize]
    exact hb.length_block_le
  · rw [← hdata]
    exact hb.block_eq_slice
  · omega
  · rw [← hblockSize]
    exact hb.uncrossed
  · intro hended
    have hempty : source.IsConclusive → b.IsDrained :=
      fun hconclusive => hb.ended (hfresh.isConclusive hconclusive) hended
    refine ⟨fun hconclusive => (hempty hconclusive).block_eq, fun hgenerous => ?_⟩
    have hdrained := hempty hgenerous.isConclusive
    refine ⟨hdrained.block_eq, ?_⟩
    have hrest := hdrained.rest_eq_nil hb.blockSize_pos (hfresh.isGenerous hgenerous)
    rw [show (b.stop - origin).toNat = b.source.position by omega, ← hdata]
    exact hrest
  · intro n houtcome hended
    have hbyte := hb.next_byte r.settings.tolerant
    cases hnext : Buffer.next r.settings.tolerant b with
    | error e c =>
      rw [step_byte_of_error scope hnext] at houtcome
      cases houtcome
    | ok byte c =>
      rw [hnext] at hbyte
      rw [step_byte_of_ok scope hnext] at houtcome hended
      cases byte with
      | none =>
        have hended : c.isEnded = false := hended
        rw [hbyte] at hended
        cases hended
      | some byte =>
        cases houtcome
        exact ⟨byte, hdata ▸ hbyte, rfl⟩

/-- Short reads, a refused read in the middle, an unaligned start before offset zero, and a byte that is
given back. -/
theorem coherent_after_of_refusal :
    let source : Source := ⟨Latin1.ascii "<41 [x] 12 0 R", 1, true, 0, fun read _ => read % 2 + 1,
      fun read _ => if read = 3 then some "disk on fire" else none⟩
    let steps : List (Operation × Nat) :=
      [(.byte, 2), (.object, 1), (.back, 1), (.forward 4, 1), (.seek (-2), 1), (.object, 2)]
    let fresh : Reader Buffer := .new (.atOffset source (-3) 4) .strict Request.decrypt false
    let b := (readerAfter (run .objects steps fresh) fresh).cursor
    let origin : Int := -3 - source.position
    source.isMovable = true ∧ 0 < 4 ∧ (∀ step ∈ steps, step.1.GoesWithin (origin ≤ ·)) ∧
    b.block = (source.data.take (b.stop - origin).toNat).drop (b.start - origin).toNat ∧
    b.block ≠ [] := by
  intro source steps
  have hsteps : ∀ step ∈ steps, step.1.GoesWithin (-3 - source.position ≤ ·) := by
    intro step hstep
    simp only [steps, List.mem_cons, List.not_mem_nil, or_false] at hstep
    rcases hstep with rfl | rfl | rfl | rfl | rfl | rfl
    any_goals trivial
    change (-4 : Int) ≤ -2
    decide
  obtain ⟨-, -, -, hblock, -⟩ := coherent_after source (-3) 4 .strict Request.decrypt false .objects
    steps rfl (by decide) hsteps
  exact ⟨rfl, by decide, hsteps, hblock, by decide +kernel⟩

/-- A source that yields nothing looks like the end of the data: the end is tolerated, although all the
data are left. -/
theorem isEnded_of_nothing_yielded :
    let source : Source := ⟨Latin1.ascii "1 2 R", 0, true, 0, fun _ _ => 0, fun _ _ => none⟩
    let fresh : Reader Buffer := .new (.atOffset source 0 5) .lenient Request.decrypt false
    let b := (readerAfter (run .objects [(.byte, 1)] fresh) fresh).cursor
    b.isEnded = true ∧ source.data.drop b.stop.toNat ≠ [] := by
  decide

end Session
end PdfSyntax
