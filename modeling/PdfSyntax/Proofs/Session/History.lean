import PdfSyntax.File
import PdfSyntax.Proofs.Reader.Token
import PdfSyntax.Proofs.Session.Invariant

/-!
# Going to an offset forgets the past

Whatever was done with a reader, and however it failed, once it goes to an offset nothing is left of it
but the settings, the object at hand, the count of reads and what a quiet reader has told. The block,
the place, the mark of the end and all that was pushed back are gone, and the source stands where it is
sent. So a reader that goes to an offset does what a fresh one does that starts there.
-/

set_option autoImplicit false

namespace PdfSyntax

variable {σ : Type}

/-- Whether an operation reads, changes settings or pushes back, but neither gives back bytes nor skips
nor tells something of its own, and goes only to some of the offsets. -/
def Operation.Reads (within : Int → Prop) : Operation → Prop
  | .back | .forward _ | .tell .. | .record .. => False
  | .seek target | .objectAt target => within target
  | _ => True

theorem Operation.Reads.keepsWithin {within : Int → Prop} {operation : Operation}
    (h : operation.Reads within) : operation.KeepsWithin within := by
  cases operation <;> first | exact h | trivial

/-- What can be seen of a report apart from what is told. -/
def View.hushed (view : View) : View :=
  { view with records := [] }

namespace Reader

/-- Readers that differ in what they have told only. -/
def Hushed (r s : Reader σ) : Prop :=
  ∃ told records, s = { r with told, records }

section Hushed
variable [Cursor σ]

omit [Cursor σ] in
theorem decipher_hushed (data : Bytes) :
    Keep Failure Hushed (decipher (σ := σ) data) (decipher data) := by
  apply decipher_keep_of_same
  · rintro r s ⟨told, records, rfl⟩
    rfl
  · rintro r s ⟨told, records, rfl⟩
    rfl
  · rintro r s ⟨told, records, rfl⟩
    rfl
  · rintro r s request ⟨told, records, rfl⟩
    exact ⟨told, records, rfl⟩

theorem hushed_likeness : Likeness (σ := σ) Eq Hushed where
  cursor := by
    rintro r s ⟨told, records, rfl⟩
    rfl
  withCursor := by
    rintro r s c d ⟨told, records, rfl⟩ rfl
    exact ⟨told, records, rfl⟩
  pending := by
    rintro r s ⟨told, records, rfl⟩
    rfl
  withPending := by
    rintro r s pending ⟨told, records, rfl⟩
    exact ⟨told, records, rfl⟩
  switches := by
    rintro r s ⟨told, records, rfl⟩
    exact r.settings.sameSwitches_self
  context := by
    rintro r s ⟨told, records, rfl⟩
    rfl
  record := by
    rintro level message text - r s ⟨told, records, rfl⟩
    rw [record_eq, record_eq]
    obtain ⟨told₁, records₁, h₁⟩ := exists_recorded level message text r
    obtain ⟨told₂, records₂, h₂⟩ := exists_recorded level message text { r with told, records }
    rw [h₁, h₂]
    exact .ok ⟨told₂, records₂, rfl⟩
  withContext := by
    rintro r s context ⟨told, records, rfl⟩
    exact ⟨told, records, rfl⟩
  decipher := decipher_hushed

theorem isKept_hushed {within : Int → Prop} {operation : Operation} (h : operation.Reads within) :
    operation.IsKept (Hushed (σ := σ)) := by
  have hseek : ∀ target, Keep Failure (Hushed (σ := σ)) (seek target) (seek target) :=
    fun target => hushed_likeness.seek_keep (Simulation.same fun _ => True) trivial
  cases operation with
  | back => exact h.elim
  | forward target => exact h.elim
  | seek target => exact hseek target
  | objectAt target => exact hseek target
  | set setting =>
    rintro r s ⟨told, records, rfl⟩
    cases setting <;> exact .ok ⟨told, records, rfl⟩
  | tell template arguments => exact h.elim
  | record level template arguments => exact h.elim
  | _ => trivial

end Hushed

/-- What becomes of a reader whose cursor has gone to an offset. -/
def sought (r : Reader σ) (cursor : σ) : Reader σ :=
  { r.cleared with cursor, pending := [] }

end Reader

theorem Report.hushed_view_eq [Cursor σ] {a b : Report σ} (h : a.Like Reader.Hushed b) :
    a.view.hushed = b.view.hushed := by
  obtain ⟨houtcome, -, ⟨ha, hb⟩, told, records, hreader⟩ := h
  simp only [Report.view, View.hushed, houtcome, ha, hb, hreader]

namespace Session

section Sought
variable [Cursor σ] {target : Int} {later : List (Operation × Nat)}

/-- The first thing that an operation at an offset does is to leave everything behind. -/
theorem step_objectAt {r : Reader σ} {c : σ} (h : Cursor.seek target r.cursor = .ok () c) :
    step .objects (.objectAt target) r = step .objects .object (r.sought c) := by
  have hseek : Reader.seek target r.cleared = .ok () (r.sought c) :=
    Reader.onCursor_of_ok (r := { r.cleared with pending := [] }) h
  rw [step_of_includes rfl, step_of_includes rfl]
  change Report.ofResult (((Reader.seek target >>= fun _ => Reader.object) >>= fun object =>
    Pure.pure (.object (some object))) r.cleared) = _
  simp only [Bind.bind, EStateM.bind, hseek]
  rfl

theorem run_objectAt {r : Reader σ} {c : σ} (h : Cursor.seek target r.cursor = .ok () c) :
    run .objects ((.objectAt target, 1) :: later) r =
      run .objects ((.object, 1) :: later) (r.sought c) := by
  rw [run_one, step_objectAt h, ← run_one]

/-- What readers show whose cursors have gone to an offset differs in what is told only, and in nothing
if they have told the same. -/
theorem views_sought {R : σ → σ → Prop} {within : Int → Prop} (sim : Simulation R within)
    {r s : Reader σ} {c d : σ} (hR : R c d) (hsettings : r.settings = s.settings)
    (hcontext : r.context = s.context) (hdecrypt : r.decrypt = s.decrypt)
    (hlater : ∀ step ∈ later, step.1.Reads within) :
    let shown := (run .objects ((.object, 1) :: later) (r.sought c)).map Report.view
    let shown' := (run .objects ((.object, 1) :: later) (s.sought d)).map Report.view
    shown.map View.hushed = shown'.map View.hushed ∧ (r.told = s.told → shown = shown') := by
  intro shown shown'
  have hsought : s.sought d = { r.sought d with told := s.told } := by
    simp only [Reader.sought, Reader.cleared, hsettings, hcontext, hdecrypt]
  have hmoved : shown = (run .objects ((.object, 1) :: later) (r.sought d)).map Report.view := by
    refine map_view_run_eq sim .objects (fun step hs => ?_) ⟨d, hR, rfl⟩
    rcases List.mem_cons.mp hs with rfl | hs
    · trivial
    · exact (hlater step hs).keepsWithin
  have hkept : ∀ step ∈ ((.object, 1) :: later : List (Operation × Nat)),
      step.1.IsKept (Reader.Hushed (σ := σ)) := by
    intro step hs
    rcases List.mem_cons.mp hs with rfl | hs
    · trivial
    · exact Reader.isKept_hushed (hlater step hs)
  rw [hmoved]
  constructor
  · have hlike := run_like Reader.hushed_likeness (Simulation.same within)
      (fun h => by
        obtain ⟨told, records, rfl⟩ := h
        exact ⟨told, [], rfl⟩)
      .objects hkept (r := r.sought d) (s := s.sought d) ⟨s.told, [], hsought⟩
    have hviews := hlike.imp fun _ _ hab => Report.hushed_view_eq hab
    rw [List.map_map, List.map_map, ← List.forall₂_eq_eq_eq, List.forall₂_map_left_iff,
      List.forall₂_map_right_iff]
    exact hviews
  · intro htold
    have hsame : s.sought d = r.sought d := by
      rw [hsought, ← htold]
      rfl
    rw [← hsame]

end Sought

/-- Readers over the same source show the same from an offset on, whatever was done with them. -/
theorem views_objectAt {source : Source} {size size' : Nat} (hserves : source.Serves size size')
    {offset target : Int} (ht : (Medium.ofSource source offset).Reaches target)
    {later : List (Operation × Nat)}
    (hlater : ∀ step ∈ later, step.1.Reads (Medium.ofSource source offset).Reaches)
    {r s : Reader Buffer} (hr : Buffer.StemsFrom (.atOffset source offset size) r.cursor)
    (hs : Buffer.StemsFrom (.atOffset source offset size') s.cursor)
    (hsettings : r.settings = s.settings) (hcontext : r.context = s.context)
    (hdecrypt : r.decrypt = s.decrypt) :
    let shown := (run .objects ((.objectAt target, 1) :: later) r).map Report.view
    let shown' := (run .objects ((.objectAt target, 1) :: later) s).map Report.view
    shown.map View.hushed = shown'.map View.hushed ∧ (r.told = s.told → shown = shown') := by
  intro shown shown'
  let position := (target - (Medium.ofSource source offset).origin).toNat
  obtain ⟨R, sim, hR⟩ := (hserves.moveTo position).exists_simulation target
  have hmedium : Medium.ofSource (source.moveTo position) target = Medium.ofSource source offset := by
    have hle := ht.2
    simp only [Medium.ofSource, Source.moveTo, position] at hle ⊢
    congr 1
    omega
  rw [hmedium] at sim
  have hshown : shown = _ := congrArg _ (run_objectAt (hr.seek ht))
  have hshown' : shown' = _ := congrArg _ (run_objectAt (hs.seek ht))
  rw [hshown, hshown']
  exact views_sought sim (hR _ _) hsettings hcontext hdecrypt hlater

/-- A reader over a source, and all that was done with it. -/
structure Past where
  blockSize : Nat
  settings : Settings
  quiet : Bool
  operations : List (Operation × Nat)

/-- Where a past leads: to the reader after the last operation. -/
def Past.reader (past : Past) (source : Source) (offset : Int) (decrypt : Decipherment) :
    Reader Buffer :=
  let start := Reader.new (Buffer.atOffset source offset past.blockSize) past.settings decrypt past.quiet
  readerAfter (run .objects past.operations start) start

theorem Past.reader_over (past : Past) (source : Source) (offset : Int) (decrypt : Decipherment) :
    (past.reader source offset decrypt).Over
      (Buffer.StemsFrom (.atOffset source offset past.blockSize)) decrypt past.quiet :=
  readerAfter_over (Buffer.stemsFrom_invariant _) .objects past.operations
    (Reader.over_new (Buffer.stemsFrom_self _) past.settings decrypt past.quiet)

theorem told_eq_none_of_over {I : σ → Prop} {decrypt : Decipherment} {r : Reader σ}
    (h : r.Over I decrypt false) : r.told = none := by
  have := h.told_eq
  rwa [Option.isSome_eq_false_iff, Option.isNone_iff_eq_none] at this

/-- Reading the object at an offset comes to the same after any two pasts, and so does whatever is read
later: two readers with the same settings and the same object at hand show the same, and they show what
a fresh one shows that starts at the offset, over the source put there. What is told may differ, unless
nobody is quiet. The source need not be generous, nor willing, if it does not go by the count of reads;
but then all must read blocks of one size. -/
theorem objectAt_forgets_past (source : Source) (offset target : Int) (decrypt : Decipherment)
    (past past' : Past) (blockSize : Nat) (quiet : Bool) (later : List (Operation × Nat))
    (hserves : source.Serves past.blockSize past'.blockSize)
    (hfresh : source.Serves past.blockSize blockSize)
    (ht : (Medium.ofSource source offset).Reaches target)
    (hlater : ∀ step ∈ later, step.1.Reads (Medium.ofSource source offset).Reaches) :
    let r := past.reader source offset decrypt
    let r' := past'.reader source offset decrypt
    let position := (target - (Medium.ofSource source offset).origin).toNat
    let fresh : Reader Buffer :=
      { Reader.new (.atOffset (source.moveTo position) target blockSize) r.settings decrypt quiet with
        context := r.context }
    let shown := (run .objects ((.objectAt target, 1) :: later) r).map Report.view
    let shown' := (run .objects ((.objectAt target, 1) :: later) r').map Report.view
    let shownFresh := (run .objects ((.object, 1) :: later) fresh).map Report.view
    (r.settings = r'.settings → r.context = r'.context →
      shown.map View.hushed = shown'.map View.hushed ∧
      (past.quiet = false → past'.quiet = false → shown = shown')) ∧
    shown.map View.hushed = shownFresh.map View.hushed ∧
    (past.quiet = false → quiet = false → shown = shownFresh) := by
  intro r r' position fresh shown shown' shownFresh
  have hr := past.reader_over source offset decrypt
  have hr' := past'.reader_over source offset decrypt
  constructor
  · intro hsettings hcontext
    have hboth := views_objectAt hserves ht hlater hr.cursor hr'.cursor hsettings hcontext
      (hr.decrypt_eq.trans hr'.decrypt_eq.symm)
    refine ⟨hboth.1, fun hquiet hquiet' => hboth.2 ?_⟩
    rw [told_eq_none_of_over (hquiet ▸ hr), told_eq_none_of_over (hquiet' ▸ hr')]
  · -- The fresh reader is what becomes of one without a past that goes to the offset.
    let start : Reader Buffer :=
      { Reader.new (.atOffset source offset blockSize) r.settings decrypt quiet with
        context := r.context }
    have hstart : Buffer.StemsFrom (.atOffset source offset blockSize) start.cursor :=
      Buffer.stemsFrom_self _
    have hshownFresh : (run .objects ((.objectAt target, 1) :: later) start).map Report.view =
        shownFresh :=
      congrArg _ (run_objectAt (hstart.seek ht))
    rw [← hshownFresh]
    have hboth := views_objectAt hfresh ht hlater hr.cursor hstart rfl rfl hr.decrypt_eq
    refine ⟨hboth.1, fun hquiet hfreshQuiet => hboth.2 ?_⟩
    rw [told_eq_none_of_over (hquiet ▸ hr)]
    simp only [start, Reader.new, hfreshQuiet]
    rfl

/-- A reader that was sent before the data, had the end pushed back and was made tolerant, and one in
other blocks that gave a byte back. -/
theorem objectAt_forgets_past_of_failed_seek :
    let source : Source := ⟨Latin1.ascii "<</A 1>> (x) 2 0 R ) 7", 0, true, 0,
      fun read _ => read % 2 + 1, fun _ _ => none⟩
    let past : Past := ⟨3, .strict, false,
      [(.byte, 5), (.seek 3, 1), (.push .endOfInput, 1), (.set (.tolerant true), 1)]⟩
    let past' : Past := ⟨2, .lenient, true, [(.bytes 2, 1), (.back, 1)]⟩
    let later : List (Operation × Nat) := [(.object, 2), (.objectAt 12, 1)]
    let r := past.reader source 4 Request.decrypt
    let r' := past'.reader source 4 Request.decrypt
    source.Serves past.blockSize past'.blockSize ∧ source.Serves past.blockSize 16 ∧
    (Medium.ofSource source 4).Reaches 13 ∧
    (∀ step ∈ later, step.1.Reads (Medium.ofSource source 4).Reaches) ∧
    r.settings = r'.settings ∧ r.context = r'.context ∧
    ((run .objects ((.objectAt 13, 1) :: later) r).map Report.view).map View.hushed =
      ((run .objects ((.objectAt 13, 1) :: later) r').map Report.view).map View.hushed := by
  intro source past past' later r r'
  have hsteady : source.IsSteady := ⟨fun read _ _ => Nat.succ_pos (read % 2), fun _ _ => rfl⟩
  have ht : (Medium.ofSource source 4).Reaches 13 := ⟨rfl, by decide⟩
  have hlater : ∀ step ∈ later, step.1.Reads (Medium.ofSource source 4).Reaches := by
    intro step hstep
    simp only [later, List.mem_cons, List.not_mem_nil, or_false] at hstep
    rcases hstep with rfl | rfl
    · trivial
    · exact ⟨rfl, by decide⟩
  have hsettings : r.settings = r'.settings := by decide +kernel
  have hcontext : r.context = r'.context := by decide +kernel
  have hserves : source.Serves past.blockSize past'.blockSize := .inl ⟨hsteady, by decide, by decide⟩
  have hfresh : source.Serves past.blockSize 16 := .inl ⟨hsteady, by decide, by decide⟩
  exact ⟨hserves, hfresh, ht, hlater, hsettings, hcontext,
    ((objectAt_forgets_past source 4 13 Request.decrypt past past' 16 false later hserves hfresh ht
      hlater).1 hsettings hcontext).1⟩

end Session
end PdfSyntax
