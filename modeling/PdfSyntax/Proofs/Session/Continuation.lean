import PdfSyntax.File
import PdfSyntax.Proofs.Reader.Continuation
import PdfSyntax.Proofs.Session.Blocks

/-!
# Sessions before the end

A session that only reads on, and tolerates the end, shows the same as one that does not tolerate the
end, or that has more data to read, as long as it has not come to the end of its data. A file that is
cut short, and the tolerance of its end, can only make themselves felt from the first operation on that
comes to the end.
-/

set_option autoImplicit false

namespace PdfSyntax

variable {σ τ : Type}

/-- Whether an operation takes bytes or tokens from where the reader is, puts tokens back, or changes
anything but the tolerance. -/
def Operation.ReadsOnly : Operation → Prop
  | .byte | .bytes _ | .offset | .push _ | .pop | .token | .tokens _ | .tokenOr _ | .object => True
  | .set setting => ∀ value, setting ≠ .tolerant value
  | _ => False

theorem Operation.ReadsOnly.keepsWithin {within : Int → Prop} {operation : Operation}
    (h : operation.ReadsOnly) : operation.KeepsWithin within := by
  cases operation <;> trivial

/-- What can be seen of a report, the tolerance apart. -/
def View.lenient (view : View) : View :=
  { view with settings := { view.settings with tolerant := true } }

/-- Reports of the same, until the first reader is past the end. From then on nothing is said of
either. -/
inductive Report.LikeUntil (past : σ → Prop) (L : Reader σ → Reader τ → Prop) :
    List (Report σ) → List (Report τ) → Prop where
  | nil : LikeUntil past L [] []
  | cons {a : Report σ} {b : Report τ} {as : List (Report σ)} {bs : List (Report τ)} :
    a.Like L b → LikeUntil past L as bs → LikeUntil past L (a :: as) (b :: bs)
  | past {a : Report σ} {as : List (Report σ)} {bs : List (Report τ)} :
    past a.reader.cursor → LikeUntil past L (a :: as) bs

theorem Report.LikeUntil.append {past : σ → Prop} {L : Reader σ → Reader τ → Prop}
    {as as' : List (Report σ)} {bs bs' : List (Report τ)} (h : LikeUntil past L as bs) {r : Reader σ}
    {s : Reader τ} (hrs : L r s)
    (h' : L (Session.readerAfter as r) (Session.readerAfter bs s) → LikeUntil past L as' bs') :
    LikeUntil past L (as ++ as') (bs ++ bs') := by
  induction h generalizing r s with
  | nil => exact h' hrs
  | cons hab _ ih =>
    refine .cons hab (ih hab.reader ?_)
    rwa [Session.readerAfter_cons, Session.readerAfter_cons] at h'
  | past hpast => exact .past hpast

section Continuation
variable [Cursor σ] [Cursor τ] {R : σ → τ → Prop} {past : σ → Prop} {tolerant : Bool}
variable (cont : Continuation R past tolerant)
include cont

theorem Report.lenient_view_eq {a : Report σ} {b : Report τ}
    (h : a.Like (Reader.Precedes R tolerant) b) : a.view.isEnded = false ∧ a.view = b.view.lenient := by
  obtain ⟨houtcome, hrecords, hrequests, htolerant, d, hR, hb⟩ := h
  obtain ⟨hended, hended'⟩ := cont.isEnded hR
  have hsettings : { b.reader.settings with tolerant := true } = a.reader.settings := by
    rw [hb]
    change { a.reader.settings with tolerant := true } = a.reader.settings
    rw [← htolerant]
  refine ⟨hended, ?_⟩
  simp only [view, View.lenient, hsettings, houtcome, hrecords.1, hrecords.2, hrequests.1, hrequests.2]
  simp only [hb, Reader.shifted, cont.offset hR, hended, hended']

/-- What is shown before the end is the beginning of what the second session shows. -/
theorem Report.LikeUntil.views_before {as : List (Report σ)} {bs : List (Report τ)}
    (h : LikeUntil past (Reader.Precedes R tolerant) as bs) :
    (as.map view).takeWhile (fun view => !view.isEnded) <+: (bs.map view).map View.lenient := by
  induction h with
  | nil => exact List.prefix_rfl
  | cons hab _ ih =>
    obtain ⟨hended, hview⟩ := lenient_view_eq cont hab
    rw [List.map_cons, List.takeWhile_cons_of_pos (by rw [hended]; rfl), hview]
    exact List.cons_prefix_cons.mpr ⟨rfl, ih⟩
  | @past a as bs hpast =>
    have hended : a.view.isEnded = true := cont.ended hpast
    rw [List.map_cons, List.takeWhile_cons_of_neg (by rw [hended]; decide)]
    exact List.nil_prefix

variable {I : σ → Prop} {J : τ → Prop} {complete complete' : Prop}
variable (wanes : Cursor.Wanes I complete) (wanes' : Cursor.Wanes J complete')
variable (hfront : ∀ {c d}, R c d → I c ∧ J d)
include wanes wanes' hfront

theorem Reader.perform_until {operation : Operation} (h : operation.ReadsOnly) :
    AgreeUntil (fun r => past r.cursor) (Precedes R tolerant) (perform (σ := σ) operation)
      (perform operation) (fun _ => Precedes R tolerant) (fun _ => Precedes R tolerant) := by
  have congr := congruence_until cont
  have out : ∀ {α : Type} {m : Reading σ α} {n : Reading τ α} {f : α → Outcome},
      AgreeUntil (fun r => past r.cursor) (Precedes R tolerant) m n (fun _ => Precedes R tolerant)
        (fun _ => Precedes R tolerant) →
      AgreeUntil (fun r => past r.cursor) (Precedes R tolerant) (m >>= fun a => Pure.pure (f a))
        (n >>= fun a => Pure.pure (f a)) (fun _ => Precedes R tolerant)
        (fun _ => Precedes R tolerant) :=
    fun hmn => congr.bind hmn fun _ => congr.pure _
  cases operation with
  | byte => exact out ((byte_until cont).weaken (fun _ _ h => h) fun _ _ _ h => h.1)
  | bytes count => exact out (bytes_until cont count)
  | offset => exact out congr.place
  | push token => exact out (congr.push token)
  | pop => exact out (.of_agree pop_shifted (stays_of_keep fun _ _ => over_likeness.pop_keep))
  | token => exact out congr.token
  | tokens count =>
    apply AgreeUntil.ite
    · exact fun _ => out (congr.tokens _)
    · exact fun _ => .of_agree (.throw fun _ _ h => h) (.throw fun _ h => h)
  | tokenOr fallback => exact out (congr.tokenOr fallback)
  | object => exact out (object_until cont wanes wanes' hfront)
  | set setting =>
    exact out (.of_agree (set_shifted h) (stays_of_keep fun _ _ => (set_over setting).keep))
  | _ => exact h.elim

namespace Session

theorem step_until (scope : Scope) {operation : Operation} (h : operation.ReadsOnly) {r : Reader σ}
    {s : Reader τ} (hrs : Reader.Precedes R tolerant r s) :
    (step scope operation r).Like (Reader.Precedes R tolerant) (step scope operation s) ∨
      past (step scope operation r).reader.cursor := by
  have hcleared : Reader.Precedes R tolerant r.cleared s.cleared := by
    obtain ⟨htolerant, d, hR, rfl⟩ := hrs
    exact ⟨htolerant, d, hR, rfl⟩
  by_cases hscope : scope.includes operation.scope = true
  · rw [step_of_includes hscope, step_of_includes hscope]
    have hperform := (Reader.perform_until cont wanes wanes' hfront h).agree hcleared
    refine hperform.imp Report.ofResult_like fun hpast => ?_
    change past (Report.ofResult (Reader.perform operation r.cleared)).reader.cursor
    generalize Reader.perform operation r.cleared = result at hpast ⊢
    cases result <;> exact hpast
  · rw [step_of_not_includes hscope, step_of_not_includes hscope]
    exact .inl ⟨rfl, ⟨rfl, rfl⟩, ⟨rfl, rfl⟩, hcleared⟩

theorem repeated_until (scope : Scope) {operation : Operation} (h : operation.ReadsOnly) (count : Nat)
    {r : Reader σ} {s : Reader τ} (hrs : Reader.Precedes R tolerant r s) :
    Report.LikeUntil past (Reader.Precedes R tolerant) (repeated scope operation count r)
      (repeated scope operation count s) := by
  induction count generalizing r s with
  | zero => exact .nil
  | succ count ih =>
    rw [repeated, repeated]
    rcases step_until cont wanes wanes' hfront scope h hrs with hstep | hpast
    · have hend : (step scope operation r).isEnd = (step scope operation s).isEnd := by
        simp only [Report.isEnd, hstep.outcome]
      rw [hend]
      cases (step scope operation s).isEnd with
      | true => exact .cons hstep .nil
      | false => exact .cons hstep (ih hstep.reader)
    · cases (step scope operation r).isEnd <;> exact .past hpast

theorem run_until (scope : Scope) {steps : List (Operation × Nat)}
    (h : ∀ step ∈ steps, step.1.ReadsOnly) {r : Reader σ} {s : Reader τ}
    (hrs : Reader.Precedes R tolerant r s) :
    Report.LikeUntil past (Reader.Precedes R tolerant) (run scope steps r) (run scope steps s) := by
  induction steps generalizing r s with
  | nil => exact .nil
  | cons head rest ih =>
    obtain ⟨operation, count⟩ := head
    have hhead := repeated_until cont wanes wanes' hfront scope (h _ List.mem_cons_self) count hrs
    exact hhead.append hrs (ih fun step hs => h step (List.mem_cons_of_mem _ hs))

end Session
end Continuation

theorem Source.IsSteady.followedBy {source : Source} (h : source.IsSteady) (more : Bytes) :
    (source.followedBy more).IsSteady :=
  ⟨h.generous, h.unrefused⟩

namespace Session

/-- Whatever is shown before the end of the data is tolerated is shown too if the end is not tolerated,
and if more data follow, tolerance or not. So it is by a source that yields and refuses as the first one
does, and, if the first one is steady, by any steady source of the longer data in any blocks. -/
theorem views_before_end (source : Source) (more : Bytes) (offset : Int) (blockSize : Nat)
    (settings : Settings) (tolerant : Bool) (decrypt : Decipherment) (quiet : Bool) (scope : Scope)
    (steps : List (Operation × Nat)) (hwilling : source.IsWilling) (hsize : 0 < blockSize)
    (hsteps : ∀ step ∈ steps, step.1.ReadsOnly) :
    let shown := views scope steps (Buffer.atOffset source offset blockSize)
      { settings with tolerant := true } decrypt quiet
    let before := shown.takeWhile fun view => !view.isEnded
    before <+: (views scope steps (Buffer.atOffset (source.followedBy more) offset blockSize)
      { settings with tolerant } decrypt quiet).map View.lenient ∧
    ∀ (other : Source) (otherSize : Nat), source.IsSteady → other.IsSteady → 0 < otherSize →
      other.data = source.data ++ more → other.position = source.position →
      other.isMovable = source.isMovable →
      before <+: (views scope steps (Buffer.atOffset other offset otherSize) { settings with tolerant }
        decrypt quiet).map View.lenient := by
  intro shown before
  have hbefore : before <+: (views scope steps
      (Buffer.atOffset (source.followedBy more) offset blockSize) { settings with tolerant } decrypt
      quiet).map View.lenient := by
    have cont := Buffer.continuation tolerant
    have hfront : ∀ {b c : Buffer}, b.Precedes c → 0 < b.blockSize ∧ 0 < c.blockSize :=
      fun h => ⟨h.blockSize_pos, by rw [h.blockSize_eq]; exact h.blockSize_pos⟩
    have hfresh := Buffer.precedes_atOffset source more offset hsize hwilling
    exact (run_until cont Buffer.wanes Buffer.wanes hfront scope hsteps
      (r := .new _ { settings with tolerant := true } decrypt quiet)
      (s := .new _ { settings with tolerant } decrypt quiet) ⟨rfl, _, hfresh, rfl⟩).views_before cont
  refine ⟨hbefore, ?_⟩
  intro other otherSize hsteady hother hotherSize hdata hposition hmovable
  have hmedium : Medium.ofSource other offset = Medium.ofSource (source.followedBy more) offset := by
    simp only [Medium.ofSource, hdata, hposition, hmovable, Source.followedBy]
  have hwithin : ∀ {within : Int → Prop}, ∀ step ∈ steps, step.1.KeepsWithin within :=
    fun step hs => (hsteps step hs).keepsWithin
  rw [views_buffer_eq_direct (hsteady.followedBy more) hsize scope hwithin, ← hmedium] at hbefore
  rwa [views_buffer_eq_direct hother hotherSize scope hwithin]

/-- A string that is cut short between a carriage return and a line feed, in blocks of three bytes of
which one or two are yielded at a time. Two objects come before the end. -/
theorem views_before_end_of_cut_string :
    let source : Source := ⟨Latin1.ascii "7 0 R [1 2] (a\r", 0, true, 0, fun read _ => read % 2 + 1,
      fun _ _ => none⟩
    let more := Latin1.ascii "\n)"
    let steps : List (Operation × Nat) := [(.object, 4), (.push (.int 1), 1), (.token, 2)]
    let shown := views .objects steps (Buffer.atOffset source 0 3) .lenient Request.decrypt false
    let before := shown.takeWhile fun view => !view.isEnded
    source.IsWilling ∧ 0 < 3 ∧ (∀ step ∈ steps, step.1.ReadsOnly) ∧ before.length = 2 ∧
    before <+: (views .objects steps (Buffer.atOffset (source.followedBy more) 0 3) .strict
      Request.decrypt false).map View.lenient ∧
    before <+: (views .objects steps (Buffer.atOffset (.ofData (source.data ++ more)) 0 5) .strict
      Request.decrypt false).map View.lenient := by
  intro source more steps
  have hsteps : ∀ step ∈ steps, step.1.ReadsOnly := by
    intro step hstep
    simp only [steps, List.mem_cons, List.not_mem_nil, or_false] at hstep
    rcases hstep with rfl | rfl | rfl
    all_goals trivial
  have hwilling : source.IsWilling := fun _ _ => rfl
  have hsteady : source.IsSteady := ⟨fun read _ _ => Nat.succ_pos (read % 2), fun _ _ => rfl⟩
  obtain ⟨hbefore, hother⟩ := views_before_end source more 0 3 .lenient false Request.decrypt false
    .objects steps hwilling (by decide) hsteps
  exact ⟨hwilling, by decide, hsteps, by decide +kernel, hbefore,
    hother (.ofData (source.data ++ more)) 5 hsteady (Source.isSteady_ofData _) (by decide) rfl rfl rfl⟩

end Session
end PdfSyntax
