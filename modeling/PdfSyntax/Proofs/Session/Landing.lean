import PdfSyntax.Proofs.Input.Landing
import PdfSyntax.Proofs.Session.Ahead

/-!
# Skipping forward in a session

Whatever was done before, skipping forward ends at the very offset, or at the end of the data, or it is
refused; then it has changed nothing. The bytes that are read next are those of the data from there on,
and after them come the line feeds that stand for a tolerated end.
-/

set_option autoImplicit false

namespace PdfSyntax

namespace Reader

section Bytes
variable {medium : Medium} {r : Reader Buffer} {bytes : Bytes}

/-- The bytes in front of a reader, and then line feeds if it is tolerant. -/
theorem bytes_of_inFront (h : Buffer.InFront medium r.cursor bytes) (count : Nat)
    (hcount : r.settings.tolerant = true ∨ count ≤ bytes.length) : ∃ b,
      Reader.bytes count r = .ok
        (bytes.take count ++ List.replicate (count - bytes.length) Byte.lineFeed)
        { r with cursor := b } := by
  induction count generalizing r bytes with
  | zero =>
    refine ⟨r.cursor, ?_⟩
    rw [List.take_zero, Nat.zero_sub]
    rfl
  | succ count ih =>
    cases bytes with
    | nil =>
      have htolerant : r.settings.tolerant = true := hcount.resolve_right (by simp)
      have hnext := Buffer.next_nil medium r.settings.tolerant r.cursor h
      cases hr : Buffer.next r.settings.tolerant r.cursor with
      | error e b =>
        rw [hr] at hnext
        rw [hnext.1] at htolerant
        cases htolerant
      | ok byte b =>
        rw [hr] at hnext
        obtain ⟨rfl, -, hb⟩ := hnext
        have hbyte := byte_of_ok (r := r) hr
        obtain ⟨b', hrest⟩ := ih (r := { r with cursor := b }) hb (.inl htolerant)
        refine ⟨b', ?_⟩
        simp only [Reader.bytes, Bind.bind, EStateM.bind, hbyte, hrest, List.take_nil, List.length_nil,
          Nat.sub_zero, List.replicate_succ]
        rfl
    | cons first bytes =>
      obtain ⟨b, hr, hb, -⟩ := Buffer.next_cons h r.settings.tolerant
      have hbyte := byte_of_ok (r := r) hr
      have hcount' : r.settings.tolerant = true ∨ count ≤ bytes.length :=
        hcount.imp_right Nat.le_of_succ_le_succ
      obtain ⟨b', hrest⟩ := ih (r := { r with cursor := b }) hb hcount'
      refine ⟨b', ?_⟩
      simp only [Reader.bytes, Bind.bind, EStateM.bind, hbyte, hrest, List.take_succ_cons,
        List.length_cons, Nat.add_sub_add_right]
      rfl

end Bytes

section Forward
variable {r : Reader Buffer} {target : Int} {c : Buffer}

theorem forward_of_ok (h : Buffer.forward r.settings.tolerant target r.cursor = .ok () c) :
    Reader.forward target r = .ok () { r with cursor := c } := by
  have hforward : Cursor.forward r.settings.tolerant target r.cursor = .ok () c := h
  simp only [Reader.forward, getSettings, Bind.bind, EStateM.bind]
  exact onCursor_of_ok hforward

theorem forward_of_error {e : Failure}
    (h : Buffer.forward r.settings.tolerant target r.cursor = .error e c) :
    Reader.forward target r = .error e { r with cursor := c } := by
  have hforward : Cursor.forward r.settings.tolerant target r.cursor = .error e c := h
  simp only [Reader.forward, getSettings, Bind.bind, EStateM.bind]
  exact onCursor_of_error hforward

/-- Skipping forward changes nothing but the cursor, does not put the source back, and leaves the place
in the block. -/
theorem forward_leaves (target : Int) (r : Reader Buffer) :
    Leaves (fun r' => r' = { r with cursor := r'.cursor } ∧
      r.cursor.source.position ≤ r'.cursor.source.position ∧
      r'.cursor.start ≤ r'.cursor.offset ∧ r'.cursor.offset ≤ r'.cursor.stop)
      (Reader.forward target r) := by
  have hposition := Buffer.forward_position r.settings.tolerant target r.cursor.source.position
    r.cursor (Nat.le_refl _)
  cases hr : Buffer.forward r.settings.tolerant target r.cursor with
  | ok _ c =>
    rw [hr] at hposition
    rw [forward_of_ok hr]
    exact ⟨rfl, hposition, c.start_le_offset, c.offset_le_stop⟩
  | error e c =>
    rw [hr] at hposition
    rw [forward_of_error hr]
    exact ⟨rfl, hposition, c.start_le_offset, c.offset_le_stop⟩

/-- Behind the block nothing can be reached, and nothing is changed. -/
theorem forward_backward (h : target < r.cursor.start) :
    Reader.forward target r = .error (.backward r.cursor.offset target) r := by
  have hforward : Buffer.forward r.settings.tolerant target r.cursor =
      .error (.backward r.cursor.offset target) r.cursor := by
    rw [Buffer.forward, if_pos h]
  exact forward_of_error hforward

section Reach
variable {medium : Medium} (hover : Buffer.Over medium r.cursor)
include hover

/-- From the block up to the end of the data every offset is reached. -/
theorem forward_within (hslice : r.cursor.IsSlice) (hstart : r.cursor.start ≤ target)
    (hend : target ≤ r.cursor.finish) : ∃ c, Reader.forward target r = .ok () { r with cursor := c } ∧
      c.offset = target ∧ Buffer.InFront medium c (r.cursor.source.data.drop
        (target - (r.cursor.stop - r.cursor.source.position)).toNat) := by
  obtain ⟨c, hskip, hcover, hlands⟩ := Buffer.skipTo_lands r.settings.tolerant hover hstart hend
  have hforward : Buffer.forward r.settings.tolerant target r.cursor = .ok () c := by
    rw [Buffer.forward, if_neg (by omega), hskip]
  have hahead : c.ahead = r.cursor.source.data.drop
      (target - (r.cursor.stop - r.cursor.source.position)).toNat :=
    hlands.ahead_eq.trans (hslice.drop_eq (by omega) hstart).symm
  exact ⟨c, forward_of_ok hforward, hlands.offset_eq, { hcover with bytes_eq := hahead }⟩

/-- Beyond the end of the data the end is reached, which the reader tolerates or names. -/
theorem forward_beyond (hend : r.cursor.finish < target) : ∃ c, c.offset = r.cursor.finish ∧
    (r.settings.tolerant = true → Reader.forward target r = .ok () { r with cursor := c } ∧
      c.isEnded = true ∧ Buffer.InFront medium c []) ∧
    (r.settings.tolerant = false →
      Reader.forward target r = .error (.unexpectedEnd r.cursor.finish) { r with cursor := c }) := by
  have hstart : ¬ target < r.cursor.start := by
    have := r.cursor.start_le_offset
    have := r.cursor.offset_le_stop
    simp only [Buffer.finish] at hend
    omega
  obtain ⟨c, hcover, hahead, hoffset, hskip⟩ := Buffer.skipTo_runs_out r.settings.tolerant hover hend
  cases htolerant : r.settings.tolerant with
  | true =>
    have hforward : Buffer.forward r.settings.tolerant target r.cursor =
        .ok () { c with isEnded := true } := by
      rw [Buffer.forward, if_neg hstart, hskip, htolerant, if_pos rfl]
    exact ⟨{ c with isEnded := true }, hoffset, fun _ => ⟨forward_of_ok hforward, rfl,
      { hcover with bytes_eq := hahead }⟩, fun h => absurd h (by decide)⟩
  | false =>
    have hforward : Buffer.forward r.settings.tolerant target r.cursor =
        .error (.unexpectedEnd r.cursor.finish) c := by
      rw [Buffer.forward, if_neg hstart, hskip, htolerant, if_neg (by decide)]
    exact ⟨c, hoffset, fun h => absurd h (by decide), fun _ => forward_of_error hforward⟩

end Reach
end Forward
end Reader

namespace Session

/-- Wherever a session has come to, skipping forward refuses to go behind the block, and then it has
changed nothing. Up to the end of the data it ends at the very offset, in front of the data from there
on. Beyond the end it ends where the data end: tolerantly, and then only line feeds follow, or with a
failure that names this place. However it ends, it does not put the source back, it changes neither what
is pushed back nor anything else about the reader but its cursor, and the place is in the block. Offsets
are those of the buffer; its source may have been left behind by a seek that it did not follow. -/
theorem forward_lands (source : Source) (offset : Int) (blockSize : Nat) (settings : Settings)
    (decrypt : Decipherment) (quiet : Bool) (scope : Scope) (steps : List (Operation × Nat))
    (target : Int) (hsteady : source.IsSteady) (hsize : 0 < blockSize) :
    let fresh : Reader Buffer := .new (.atOffset source offset blockSize) settings decrypt quiet
    let r := readerAfter (run scope steps fresh) fresh
    let b := r.cursor
    let origin := b.stop - b.source.position
    let finish := origin + source.data.length
    let result := Reader.forward target r
    ((∀ step ∈ steps, step.1.GoesWithin (Medium.ofSource source offset).Reaches) →
      origin = offset - source.position) ∧
    (b.stop ≤ finish →
      (target < b.start → result = .error (.backward b.offset target) r) ∧
      (b.start ≤ target → target ≤ finish → ∃ c, result = .ok () { r with cursor := c } ∧
        c.offset = target ∧
        ∀ count : Nat, r.settings.tolerant = true ∨ (count : Int) ≤ finish - target → ∃ last,
          Reader.bytes count { r with cursor := c } =
            .ok ((source.data.drop (target - origin).toNat).take count ++
              List.replicate (count - (finish - target).toNat) Byte.lineFeed) last) ∧
      (finish < target → ∃ c, c.offset = finish ∧
        (r.settings.tolerant = true → result = .ok () { r with cursor := c } ∧ c.isEnded = true ∧
          ∀ count, ∃ last, Reader.bytes count { r with cursor := c } =
            .ok (List.replicate count Byte.lineFeed) last) ∧
        (r.settings.tolerant = false →
          result = .error (.unexpectedEnd finish) { r with cursor := c }))) ∧
    Leaves (fun r' => r' = { r with cursor := r'.cursor } ∧
      b.source.position ≤ r'.cursor.source.position ∧
      r'.cursor.start ≤ r'.cursor.offset ∧ r'.cursor.offset ≤ r'.cursor.stop) result := by
  intro fresh r b origin finish result
  have hover : Buffer.Over (.ofSource source offset) b :=
    over_after offset settings decrypt quiet scope steps hsteady hsize
  have hslice : b.IsSlice :=
    (readerAfter_over Buffer.slice_invariant scope steps (Reader.over_new (c := fresh.cursor)
      (.of_block_eq_nil rfl) settings decrypt quiet)).cursor
  have hdata : b.source.data = source.data := hover.data_eq
  refine ⟨fun hsteps => ?_, fun hstop => ?_, Reader.forward_leaves target r⟩
  · have hfresh : Buffer.IsAnchored (offset - source.position) fresh.cursor := by
      simp only [Buffer.IsAnchored, fresh, Reader.new, Buffer.atOffset]
      omega
    obtain ⟨-, hanchored⟩ := (readerAfter_over_of_law (Buffer.anchored_law source offset blockSize) scope
      hsteps (Reader.over_new (c := fresh.cursor) ⟨Buffer.stemsFrom_self _, hfresh⟩ settings decrypt
      quiet)).cursor
    have hanchored : b.stop = offset - source.position + b.source.position := hanchored
    simp only [origin]
    omega
  · have hfinish : b.finish = finish := by
      have hlength : b.source.rest.length = source.data.length - b.source.position := by
        rw [Source.rest, hdata, List.length_drop]
      simp only [Buffer.finish, finish, origin] at hstop ⊢
      omega
    refine ⟨fun hbackward => Reader.forward_backward hbackward, fun hstart hend => ?_, fun hend => ?_⟩
    · obtain ⟨c, hforward, hoffset, hfront⟩ := Reader.forward_within hover hslice hstart
        (by rwa [hfinish])
      rw [hdata] at hfront
      have hlength : (source.data.drop (target - origin).toNat).length = (finish - target).toNat := by
        have := hslice.block_le
        rw [List.length_drop]
        simp only [Buffer.start, finish, origin] at *
        omega
      refine ⟨c, hforward, hoffset, fun count hcount => ?_⟩
      obtain ⟨last, hbytes⟩ := Reader.bytes_of_inFront (r := { r with cursor := c }) hfront count
        (hcount.imp_right fun h => by rw [hlength]; omega)
      rw [hlength] at hbytes
      exact ⟨_, hbytes⟩
    · obtain ⟨c, hoffset, hended, hnamed⟩ := Reader.forward_beyond hover
        (show b.finish < target by rwa [hfinish])
      rw [hfinish] at hoffset hnamed
      refine ⟨c, hoffset, fun htolerant => ?_, hnamed⟩
      obtain ⟨hforward, hisEnded, hfront⟩ := hended htolerant
      refine ⟨hforward, hisEnded, fun count => ?_⟩
      obtain ⟨last, hbytes⟩ := Reader.bytes_of_inFront (r := { r with cursor := c }) hfront count
        (.inl htolerant)
      simp only [List.take_nil, List.nil_append, List.length_nil, Nat.sub_zero] at hbytes
      exact ⟨_, hbytes⟩

/-- Blocks of three bytes from offset 4 on, of which one or two are yielded at a time. -/
theorem forward_lands_of_short_reads :
    let source : Source := ⟨Latin1.ascii "0123456789", 0, true, 0, fun read _ => read % 2 + 1,
      fun _ _ => none⟩
    let settings : Settings := ⟨false, true, true, none, .rc4⟩
    let fresh : Reader Buffer := .new (.atOffset source 4 3) settings Request.decrypt false
    let r := readerAfter (run .bytes [(.byte, 2)] fresh) fresh
    source.IsSteady ∧ 0 < 3 ∧ ∃ c, Reader.forward 9 r = .ok () { r with cursor := c } ∧ c.offset = 9 ∧
      ∃ last, Reader.bytes 4 { r with cursor := c } = .ok (Latin1.ascii "5678") last := by
  intro source settings fresh r
  have hsteady : source.IsSteady := ⟨fun read _ _ => Nat.succ_pos (read % 2), fun _ _ => rfl⟩
  obtain ⟨-, hlands, -⟩ := forward_lands source 4 3 settings Request.decrypt false .bytes [(.byte, 2)] 9
    hsteady (by omega)
  obtain ⟨c, hforward, hoffset, hbytes⟩ := (hlands (by decide)).2.1 (by decide) (by decide)
  obtain ⟨last, hlast⟩ := hbytes 4 (.inr (by decide))
  exact ⟨hsteady, by omega, c, hforward, hoffset, last,
    hlast.trans (congrArg (EStateM.Result.ok · last) (by decide))⟩

end Session
end PdfSyntax
