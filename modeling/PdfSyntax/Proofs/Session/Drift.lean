import PdfSyntax.Proofs.Input.Landing
import PdfSyntax.Proofs.Session.Coherence
import PdfSyntax.Proofs.Session.History

/-!
# Offsets after a seek in vain

A buffer that is sent before the data takes up the offset, but its source stays where it is. From then
on all bytes lie further on in the data than the offsets tell, by the distance from the offset to the
source, until a seek succeeds: that puts offsets and bytes together again, whatever was done before.
-/

set_option autoImplicit false

namespace PdfSyntax

/-- A byte that is read is the one that the data hold at the offset of the place, counted from where the
end of the block would have its source stand. -/
theorem Buffer.IsAnchored.next_byte {origin : Int} {b : Buffer} (h : IsAnchored origin b)
    (hslice : b.IsSlice) (hsize : 0 < b.blockSize) (tolerant : Bool) :
    origin ≤ b.offset ∧ match next tolerant b with
    | .ok (some byte) _ => b.source.data[(b.offset - origin).toNat]? = some byte
    | .ok none b' => b'.isEnded = true
    | .error _ _ => True := by
  have hstart := b.start_le_offset
  have hplace : (b.offset - b.start).toNat = b.before.reverse.length := by
    have := b.length_block
    simp only [offset, start, List.length_reverse]
    omega
  have hdrop : b.source.data.drop (b.offset - origin).toNat = b.after ++ b.source.rest := by
    rw [hslice.drop_eq h hstart, hplace, fromStart, block, List.append_assoc]
    exact List.drop_left
  constructor
  · have hle := hslice.block_le
    simp only [IsAnchored] at h
    simp only [start] at hstart
    omega
  · have hhead := next_head hsize tolerant
    rw [← hdrop, List.head?_drop] at hhead
    exact hhead

namespace Session

section Seek
variable {σ : Type} [Cursor σ] {target : Int} {r : Reader σ} {c : σ} (scope : Scope)

theorem step_seek_of_ok (h : Cursor.seek target r.cursor = .ok () c) :
    step scope (.seek target) r = ⟨.ok .nothing, [], [], r.sought c⟩ := by
  have hseek : Reader.seek target r.cleared = .ok () (r.sought c) :=
    Reader.onCursor_of_ok (r := { r.cleared with pending := [] }) h
  rw [step_of_includes (by cases scope <;> rfl)]
  change Report.ofResult ((Reader.seek target >>= fun _ => Pure.pure .nothing) r.cleared) = _
  simp only [Bind.bind, EStateM.bind, hseek]
  rfl

theorem step_seek_of_error {e : Failure} (h : Cursor.seek target r.cursor = .error e c) :
    step scope (.seek target) r = ⟨.error e, [], [], r.sought c⟩ := by
  have hseek : Reader.seek target r.cleared = .error e (r.sought c) :=
    Reader.onCursor_of_error (r := { r.cleared with pending := [] }) h
  rw [step_of_includes (by cases scope <;> rfl)]
  change Report.ofResult ((Reader.seek target >>= fun _ => Pure.pure .nothing) r.cleared) = _
  simp only [Bind.bind, EStateM.bind, hseek]
  rfl

end Seek

/-- The number that is read without a tolerated end is a byte that the buffer yields. -/
theorem byte_of_step {P : UInt8 → Prop} {r : Reader Buffer} {n : Int} (scope : Scope)
    (h : match Buffer.next r.settings.tolerant r.cursor with
      | .ok (some byte) _ => P byte
      | .ok none b' => b'.isEnded = true
      | .error _ _ => True)
    (houtcome : (step scope .byte r).outcome = .ok (.number n))
    (hended : (step scope .byte r).reader.cursor.isEnded = false) :
    ∃ byte, P byte ∧ n = byte.toNat := by
  cases hnext : Buffer.next r.settings.tolerant r.cursor with
  | error e b =>
    rw [step_byte_of_error scope hnext] at houtcome
    cases houtcome
  | ok byte b =>
    rw [hnext] at h
    rw [step_byte_of_ok scope hnext] at houtcome hended
    cases byte with
    | none => exact absurd (hended.symm.trans h) (by decide)
    | some byte =>
      cases houtcome
      exact ⟨byte, h, rfl⟩

section Sought
variable {source : Source} {offset : Int} {blockSize : Nat} {target : Int} {r : Reader Buffer}
variable (scope : Scope) (hmovable : source.isMovable = true)
variable (hstems : Buffer.StemsFrom (.atOffset source offset blockSize) r.cursor)
include hmovable hstems

/-- A seek before the data fails, and the source stays where it is. -/
theorem step_seek_before (h : target < offset - source.position) : ∃ c : Buffer,
    Buffer.StemsFrom (.atOffset source offset blockSize) c ∧ c.block = [] ∧
    c.IsAnchored (target - r.cursor.source.position) ∧ step scope (.seek target) r =
      ⟨.error (.negativePosition (target - (offset - source.position))), [], [], r.sought c⟩ := by
  have horigin : r.cursor.origin = some (offset - source.position) :=
    hstems.origin_eq.trans (if_pos hmovable)
  refine ⟨_, hstems.replaced rfl .., rfl, ?_,
    step_seek_of_error scope (Buffer.seek_of_lt horigin h)⟩
  simp only [Buffer.IsAnchored]
  omega

/-- Any other seek succeeds, and the source follows. -/
theorem step_seek_within (h : offset - source.position ≤ target) : ∃ c : Buffer,
    Buffer.StemsFrom (.atOffset source offset blockSize) c ∧ c.block = [] ∧
    c.IsAnchored (offset - source.position) ∧
    step scope (.seek target) r = ⟨.ok .nothing, [], [], r.sought c⟩ := by
  have horigin : r.cursor.origin = some (offset - source.position) :=
    hstems.origin_eq.trans (if_pos hmovable)
  have hseek : Cursor.seek target r.cursor = _ := Buffer.seek_of_le horigin h
  have hframe : (r.cursor.source.moveTo (target - (offset - source.position)).toNat).frame =
      r.cursor.source.frame := rfl
  refine ⟨_, hstems.replaced hframe [] [] target false, rfl, ?_, step_seek_of_ok scope hseek⟩
  simp only [Buffer.IsAnchored, Source.moveTo]
  omega

end Sought

/-- Wherever a session has come to, a seek fails exactly if it goes before the data. However it ends, a
byte that is read later is the one that the data hold at a constant distance from the offset of the
place, unless a tolerated end is reached. After a seek that succeeded the distance is zero, and it stays
zero as long as all later ones succeed. After one that failed it is not zero, and it stays what it is
until there is another seek. -/
theorem bytes_after_seek (source : Source) (offset : Int) (blockSize : Nat) (settings : Settings)
    (decrypt : Decipherment) (quiet : Bool) (scope : Scope) (steps later : List (Operation × Nat))
    (target : Int) (hmovable : source.isMovable = true) (hsize : 0 < blockSize)
    (hlater : ∀ step ∈ later, step.1.GoesWithin fun next =>
      offset - source.position ≤ target ∧ offset - source.position ≤ next) :
    let origin := offset - source.position
    let fresh : Reader Buffer := .new (.atOffset source offset blockSize) settings decrypt quiet
    let r := readerAfter (run scope steps fresh) fresh
    let sought := step scope (.seek target) r
    let last := readerAfter (run scope later sought.reader) sought.reader
    let drift : Int := if target < origin then origin - target + r.cursor.source.position else 0
    sought.outcome =
      (if target < origin then .error (.negativePosition (target - origin)) else .ok .nothing) ∧
    (drift = 0 ↔ origin ≤ target) ∧ origin ≤ last.cursor.offset + drift ∧
    ∀ n, (step scope .byte last).outcome = .ok (.number n) →
      (step scope .byte last).reader.cursor.isEnded = false →
      ∃ byte, source.data[(last.cursor.offset + drift - origin).toNat]? = some byte ∧
        n = byte.toNat := by
  intro origin fresh r sought last drift
  have hover : r.Over (Buffer.StemsFrom fresh.cursor) decrypt quiet :=
    readerAfter_over (Buffer.stemsFrom_invariant _) scope steps
      (Reader.over_new (Buffer.stemsFrom_self _) settings decrypt quiet)
  -- However the seek ends, it leaves an empty block and a source that is anchored.
  obtain ⟨c, hstems, hblock, hanchored, hsought⟩ : ∃ c : Buffer,
      Buffer.StemsFrom fresh.cursor c ∧ c.block = [] ∧ c.IsAnchored (origin - drift) ∧
      sought = ⟨if target < origin then .error (.negativePosition (target - origin))
        else .ok .nothing, [], [], r.sought c⟩ := by
    by_cases hlt : target < origin
    · have hdrift : origin - drift = target - r.cursor.source.position := by
        simp only [drift, if_pos hlt]
        omega
      rw [if_pos hlt, hdrift]
      exact step_seek_before scope hmovable hover.cursor hlt
    · have hdrift : origin - drift = origin := by
        simp only [drift, if_neg hlt]
        omega
      rw [if_neg hlt, hdrift]
      exact step_seek_within scope hmovable hover.cursor (by omega)
  have hlaw : Cursor.Law (fun next => origin ≤ target ∧ origin ≤ next) fun b =>
      (Buffer.StemsFrom fresh.cursor b ∧ Buffer.IsAnchored (origin - drift) b) ∧ b.IsSlice := by
    refine .and ?_ (Buffer.slice_invariant.law.of_imp fun _ _ => trivial)
    by_cases hlt : target < origin
    · refine .and ((Buffer.stemsFrom_invariant _).law.of_imp fun _ _ => trivial) ?_
      exact (Buffer.anchored_at_rest _).of_imp fun _ h => by omega
    · have hdrift : origin - drift = origin := by
        simp only [drift, if_neg hlt]
        omega
      rw [hdrift]
      exact (Buffer.anchored_law source offset blockSize).of_imp fun _ h => ⟨hmovable, h.2⟩
  have hsought' : sought.reader.Over (fun b => (Buffer.StemsFrom fresh.cursor b ∧
      Buffer.IsAnchored (origin - drift) b) ∧ b.IsSlice) decrypt quiet := by
    rw [hsought]
    exact { hover with cursor := ⟨⟨hstems, hanchored⟩, .of_block_eq_nil hblock⟩ }
  obtain ⟨⟨hlast, hanchored'⟩, hslice⟩ := (readerAfter_over_of_law hlaw scope hlater hsought').cursor
  have hdata : last.cursor.source.data = source.data := hlast.data_eq
  have hblockSize : 0 < last.cursor.blockSize := hlast.blockSize_eq ▸ hsize
  have hnext := hanchored'.next_byte hslice hblockSize last.settings.tolerant
  have hplace : origin - drift ≤ last.cursor.offset := hnext.1
  refine ⟨by rw [hsought], ?_, by omega, ?_⟩
  · simp only [drift]
    split <;> omega
  · intro n houtcome hended
    obtain ⟨byte, hbyte, rfl⟩ := byte_of_step scope hnext.2 houtcome hended
    have hindex : last.cursor.offset + drift - origin = last.cursor.offset - (origin - drift) := by omega
    refine ⟨byte, ?_, rfl⟩
    rw [hindex, ← hdata]
    exact hbyte

/-- A seek in vain after two bytes, then a byte, a refused read and an attempt to give a byte back. The
next byte is four further on than its offset tells. -/
theorem bytes_after_seek_of_refusal :
    let source : Source := ⟨Latin1.ascii "0123456789", 1, true, 0, fun _ _ => 1,
      fun read _ => if read = 3 then some "disk on fire" else none⟩
    let steps : List (Operation × Nat) := [(.byte, 2), (.push .null, 1)]
    let later : List (Operation × Nat) := [(.byte, 2), (.back, 1)]
    let fresh : Reader Buffer := .new (.atOffset source 5 4) .strict Request.decrypt false
    let r := readerAfter (run .objects steps fresh) fresh
    let sought := step .objects (.seek 3) r
    let last := readerAfter (run .objects later sought.reader) sought.reader
    source.isMovable = true ∧ 0 < 4 ∧
    (∀ step ∈ later, step.1.GoesWithin fun next => (4 : Int) ≤ 3 ∧ 4 ≤ next) ∧
    sought.outcome = .error (.negativePosition (-1)) ∧ last.cursor.offset = 4 ∧
    ∃ byte, source.data[4]? = some byte ∧
      (step .objects .byte last).outcome = .ok (.number byte.toNat) := by
  intro source steps later fresh r sought last
  have hlater : ∀ step ∈ later, step.1.GoesWithin fun next => (4 : Int) ≤ 3 ∧ 4 ≤ next := by
    intro step hstep
    simp only [later, List.mem_cons, List.not_mem_nil, or_false] at hstep
    rcases hstep with rfl | rfl <;> trivial
  obtain ⟨houtcome, -, -, hbytes⟩ := bytes_after_seek source 5 4 .strict Request.decrypt false .objects
    steps later 3 rfl (by decide) hlater
  have hread : (step .objects .byte last).outcome = .ok (.number 0x34) := by
    subst last sought r fresh later steps source
    rfl
  obtain ⟨byte, hbyte, hnumber⟩ := hbytes 0x34 hread (by decide)
  have hfifth : source.data[4]? = some byte := by
    subst last sought r fresh later steps source
    exact hbyte
  exact ⟨rfl, by decide, hlater, houtcome, by decide, byte, hfifth, hnumber ▸ hread⟩

/-- Right after a seek before the data, the first byte is read; then the offset is that of the first
byte, but it is the second one that is read. -/
theorem offset_off_after_failed_seek :
    let source := Source.ofData (Latin1.ascii "AB")
    let fresh : Reader Buffer := .new (.atOffset source 0 4096) .lenient Request.decrypt false
    let r := readerAfter (run .bytes [(.seek (-1), 1), (.byte, 1)] fresh) fresh
    r.cursor.offset = 0 ∧ source.data[0]? = some 0x41 ∧
    (step .bytes .byte r).outcome = .ok (.number 0x42) ∧
    (step .bytes .byte r).reader.cursor.isEnded = false :=
  ⟨rfl, rfl, rfl, rfl⟩

end Session
end PdfSyntax
