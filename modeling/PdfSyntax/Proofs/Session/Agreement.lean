import PdfSyntax.Proofs.Reader.Agreement
import PdfSyntax.Proofs.Session.Likeness

/-!
# Sessions over cursors that cannot be told apart

What can be seen of a report is its outcome, what was told and deciphered, and of the reader afterwards
the offset, the tokens pushed back and whether the end was reached. Over related cursors a session
shows the same, report by report.
-/

set_option autoImplicit false

namespace PdfSyntax

variable {σ τ : Type}

/-- Whether an operation neither gives back bytes nor skips, and goes only to some of the offsets. -/
def Operation.KeepsWithin (within : Int → Prop) : Operation → Prop
  | .back | .forward _ => False
  | .seek target | .objectAt target => within target
  | _ => True

/-- What can be seen of a report. -/
structure View where
  outcome : Except Failure Outcome
  records : List Record
  requests : List Request
  offset : Int
  isEnded : Bool
  pending : List Obj
  settings : Settings
  context : Ref

def Report.view [Cursor σ] (report : Report σ) : View where
  outcome := report.outcome
  records := report.records
  requests := report.requests
  offset := Cursor.offset report.reader.cursor
  isEnded := Cursor.isEnded report.reader.cursor
  pending := report.reader.pending
  settings := report.reader.settings
  context := report.reader.context

/-- Reports of the same, with readers that differ in related cursors only. -/
structure Report.Alike (R : σ → τ → Prop) (a : Report σ) (b : Report τ) : Prop where
  outcome : a.outcome = b.outcome
  records : a.records = b.records
  requests : a.requests = b.requests
  reader : a.reader.Alike R b.reader

theorem Report.Like.alike {R : σ → τ → Prop} {a : Report σ} {b : Report τ}
    (h : a.Like (Reader.Alike R) b) : a.Alike R b where
  outcome := h.outcome
  records := by
    obtain ⟨d, -, hd⟩ := h.reader
    rw [h.records.1, h.records.2, hd]
    rfl
  requests := by
    obtain ⟨d, -, hd⟩ := h.reader
    rw [h.requests.1, h.requests.2, hd]
    rfl
  reader := h.reader

theorem Reader.Alike.cleared {R : σ → τ → Prop} {r : Reader σ} {s : Reader τ} (h : r.Alike R s) :
    r.cleared.Alike R s.cleared := by
  obtain ⟨d, hR, rfl⟩ := h
  exact ⟨d, hR, rfl⟩

section Simulated
variable [Cursor σ] [Cursor τ] {R : σ → τ → Prop} {within : Int → Prop}
variable (sim : Simulation R within)
include sim

theorem Report.view_eq {a : Report σ} {b : Report τ} (h : a.Alike R b) : a.view = b.view := by
  obtain ⟨ho, hr, hq, d, hR, hb⟩ := h
  simp only [Report.view, ho, hr, hq, hb, Reader.withCursor, sim.offset hR, sim.isEnded hR]

theorem Operation.KeepsWithin.isKept {operation : Operation} (h : operation.KeepsWithin within) :
    operation.IsKept (Reader.Alike R) := by
  have like := Reader.alike_likeness sim
  cases operation with
  | back => exact h.elim
  | forward target => exact h.elim
  | seek target => exact like.seek_keep sim h
  | objectAt target => exact like.seek_keep sim h
  | set setting => exact Reader.set_keep setting
  | tell template arguments => exact Reader.tell_keep sim _ _
  | record level template arguments => exact Reader.record_keep sim _ _ _
  | _ => trivial

namespace Session

theorem step_alike (scope : Scope) (operation : Operation) (h : operation.KeepsWithin within)
    {r : Reader σ} {s : Reader τ} (hrs : r.Alike R s) :
    (step scope operation r).Alike R (step scope operation s) :=
  (step_like (Reader.alike_likeness sim) sim Reader.Alike.cleared scope operation (h.isKept sim)
    hrs).alike

theorem repeated_alike (scope : Scope) (operation : Operation) (h : operation.KeepsWithin within)
    (count : Nat) {r : Reader σ} {s : Reader τ} (hrs : r.Alike R s) :
    List.Forall₂ (Report.Alike R) (repeated scope operation count r)
      (repeated scope operation count s) :=
  (repeated_like (Reader.alike_likeness sim) sim Reader.Alike.cleared scope operation (h.isKept sim)
    count hrs).imp fun _ _ => Report.Like.alike

omit [Cursor σ] [Cursor τ] sim in
theorem readerAfter_alike {as : List (Report σ)} {bs : List (Report τ)}
    (h : List.Forall₂ (Report.Alike R) as bs) {r : Reader σ} {s : Reader τ} (hrs : r.Alike R s) :
    (readerAfter as r).Alike R (readerAfter bs s) := by
  induction h generalizing r s with
  | nil => exact hrs
  | cons hab htail ih =>
    rw [readerAfter_cons, readerAfter_cons]
    exact ih hab.reader

theorem run_alike (scope : Scope) {steps : List (Operation × Nat)}
    (h : ∀ step ∈ steps, step.1.KeepsWithin within) {r : Reader σ} {s : Reader τ}
    (hrs : r.Alike R s) :
    List.Forall₂ (Report.Alike R) (run scope steps r) (run scope steps s) :=
  (run_like (Reader.alike_likeness sim) sim Reader.Alike.cleared scope
    (fun step hs => (h step hs).isKept sim) hrs).imp fun _ _ => Report.Like.alike

theorem map_view_run_eq (scope : Scope) {steps : List (Operation × Nat)}
    (h : ∀ step ∈ steps, step.1.KeepsWithin within) {r : Reader σ} {s : Reader τ}
    (hrs : r.Alike R s) :
    (run scope steps r).map Report.view = (run scope steps s).map Report.view := by
  have hviews := (run_alike sim scope h hrs).imp fun _ _ hab => Report.view_eq sim hab
  rw [← List.forall₂_eq_eq_eq, List.forall₂_map_left_iff, List.forall₂_map_right_iff]
  exact hviews

end Session
end Simulated
end PdfSyntax
