import PdfSyntax.Proofs.Reader.Invariant
import PdfSyntax.Proofs.Session.Agreement

/-!
# What no operation changes

What every move of a cursor keeps is kept by every session, whatever its operations are and however
they fail: giving back, skipping forward and seeking in vain included.
-/

set_option autoImplicit false

namespace PdfSyntax

variable {σ α : Type}

/-- Whether an operation sends the cursor to some of the offsets only, if it sends it anywhere. -/
def Operation.GoesWithin (within : Int → Prop) : Operation → Prop
  | .seek target | .objectAt target => within target
  | _ => True

theorem Operation.goesWithin_anywhere (operation : Operation) :
    operation.GoesWithin fun _ => True := by
  cases operation <;> trivial

namespace Reader

theorem isKept_over [Cursor σ] {I : σ → Prop} {decrypt : Decipherment} {quiet : Bool}
    {within : Int → Prop} (law : Cursor.Law within I) {operation : Operation}
    (h : operation.GoesWithin within) : operation.IsKept (Fixed (Over I decrypt quiet)) := by
  have hseek : ∀ {target}, within target →
      Keep Failure (Fixed (Over I decrypt quiet)) (seek target) (seek target) :=
    fun htarget => over_likeness.seek_keep law.simulation htarget
  cases operation with
  | back => exact Ensures.keep fun r hr => { hr with cursor := law.back hr.cursor }
  | forward target =>
    apply Ensures.keep
    have hsettings : Ensures (Over I decrypt quiet) getSettings (fun _ => Over I decrypt quiet)
        (fun _ => Over I decrypt quiet) := fun _ h => h
    exact hsettings.bind fun settings => onCursor_over (law.forward settings.tolerant target)
  | seek target => exact hseek h
  | objectAt target => exact hseek h
  | set setting => exact (set_over setting).keep
  | tell template arguments =>
    exact (tell_ensures (fun told hsome h => Over.told h told hsome) _ _).keep
  | record level template arguments => exact (record_over level _ _).keep
  | _ => trivial

end Reader

namespace Session

section Keeps
variable [Cursor σ] {P : Reader σ → Prop} {Q : Report σ → Prop} {r : Reader σ}

theorem repeated_keeps (scope : Scope) {operation : Operation}
    (h : ∀ r, P r → Q (step scope operation r) ∧ P (step scope operation r).reader) (count : Nat)
    (hr : P r) : (∀ report ∈ repeated scope operation count r, Q report) ∧
      P (readerAfter (repeated scope operation count r) r) := by
  induction count generalizing r with
  | zero => exact ⟨fun _ hmem => (List.not_mem_nil hmem).elim, hr⟩
  | succ count ih =>
    obtain ⟨hreport, hreader⟩ := h r hr
    rw [repeated]
    cases (step scope operation r).isEnd with
    | true =>
      refine ⟨fun report hmem => ?_, hreader⟩
      rwa [List.mem_singleton.mp hmem]
    | false =>
      obtain ⟨hrest, hafter⟩ := ih hreader
      refine ⟨fun report hmem => ?_, by rwa [if_neg (by decide), readerAfter_cons]⟩
      rcases List.mem_cons.mp hmem with rfl | hmem
      · exact hreport
      · exact hrest report hmem

/-- What every operation reports, and keeps, a session reports and keeps. -/
theorem run_keeps (scope : Scope) {steps : List (Operation × Nat)}
    (h : ∀ step ∈ steps, ∀ r, P r →
      Q (Session.step scope step.1 r) ∧ P (Session.step scope step.1 r).reader)
    (hr : P r) : (∀ report ∈ run scope steps r, Q report) ∧ P (readerAfter (run scope steps r) r) := by
  induction steps generalizing r with
  | nil => exact ⟨fun _ hmem => (List.not_mem_nil hmem).elim, hr⟩
  | cons head rest ih =>
    obtain ⟨operation, count⟩ := head
    obtain ⟨hhead, hafter⟩ := repeated_keeps scope (h _ List.mem_cons_self) count hr
    obtain ⟨hrest, hlast⟩ := ih (fun step hs => h step (List.mem_cons_of_mem _ hs)) hafter
    refine ⟨fun report hmem => ?_, by rwa [run, readerAfter_append]⟩
    rcases List.mem_append.mp hmem with hmem | hmem
    · exact hhead report hmem
    · exact hrest report hmem

/-- What an activity ensures of its outcome holds of what is reported. -/
theorem step_ensures {W : Outcome → Prop} {operation : Operation}
    (h : Ensures P (Reader.perform operation) (fun outcome r => W outcome ∧ P r) (fun _ => P))
    (scope : Scope) (hr : P r.cleared) :
    (∀ outcome, (step scope operation r).outcome = .ok outcome → W outcome) ∧
      P (step scope operation r).reader := by
  by_cases hscope : scope.includes operation.scope = true
  · have hperform := h r.cleared hr
    have hstep : step scope operation r = .ofResult (Reader.perform operation r.cleared) :=
      step_of_includes hscope r
    rw [hstep]
    generalize Reader.perform operation r.cleared = result at hperform
    cases result with
    | ok outcome r' =>
      refine ⟨fun _ heq => ?_, hperform.2⟩
      cases heq
      exact hperform.1
    | error e r' => exact ⟨fun _ heq => (by cases heq), hperform⟩
  · rw [step_of_not_includes hscope]
    exact ⟨fun _ heq => (by cases heq), hr⟩

end Keeps

variable [Cursor σ] {I : σ → Prop} {decrypt : Decipherment} {quiet : Bool} {r : Reader σ}

/-- After any operations that go to some of the offsets only. -/
theorem readerAfter_over_of_law {within : Int → Prop} (law : Cursor.Law within I) (scope : Scope)
    {steps : List (Operation × Nat)} (hsteps : ∀ step ∈ steps, step.1.GoesWithin within)
    (hr : r.Over I decrypt quiet) : (readerAfter (run scope steps r) r).Over I decrypt quiet :=
  (readerAfter_like (run_like Reader.over_likeness law.simulation
    (fun h => ⟨by rw [h.1], { h.2 with }⟩) scope
    (fun step hs => Reader.isKept_over law (hsteps step hs)) ⟨rfl, hr⟩) ⟨rfl, hr⟩).2

/-- After any operations whatever. -/
theorem readerAfter_over (inv : Cursor.Invariant I) (scope : Scope) (steps : List (Operation × Nat))
    (hr : r.Over I decrypt quiet) : (readerAfter (run scope steps r) r).Over I decrypt quiet :=
  readerAfter_over_of_law inv.law scope (fun step _ => step.1.goesWithin_anywhere) hr

end Session
end PdfSyntax
