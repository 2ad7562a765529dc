import PdfSyntax.Proofs.Reader.Likeness
import Mathlib.Data.List.Forall2

/-!
# Sessions of readers that are alike

Readers that are alike come to the same outcomes in a session, report by report, and are alike again
after each. That an operation keeps a likeness has to be asked only where the operation is not made of
the moves of reading: where it gives back, skips, goes elsewhere, changes settings or tells something
of its own.
-/

set_option autoImplicit false

namespace PdfSyntax

variable {σ τ : Type}

/-- What has to be known of an operation besides the likeness. -/
def Operation.IsKept [Cursor σ] [Cursor τ] (L : Reader σ → Reader τ → Prop) : Operation → Prop
  | .back => Keep Failure L Reader.back Reader.back
  | .forward target => Keep Failure L (Reader.forward target) (Reader.forward target)
  | .seek target | .objectAt target => Keep Failure L (Reader.seek target) (Reader.seek target)
  | .set setting => Keep Failure L (Reader.set setting) (Reader.set setting)
  | .tell template arguments =>
    Keep Failure L (Reader.tell template (Reader.render template arguments))
      (Reader.tell template (Reader.render template arguments))
  | .record level template arguments =>
    Keep Failure L (Reader.record level template (Reader.render template arguments))
      (Reader.record level template (Reader.render template arguments))
  | _ => True

/-- Reports of the same outcome, each with the journal of its reader, that leave readers alike. -/
structure Report.Like (L : Reader σ → Reader τ → Prop) (a : Report σ) (b : Report τ) : Prop where
  outcome : a.outcome = b.outcome
  records : a.records = a.reader.records ∧ b.records = b.reader.records
  requests : a.requests = a.reader.requests ∧ b.requests = b.reader.requests
  reader : L a.reader b.reader

def Report.ofResult : EStateM.Result Failure (Reader σ) Outcome → Report σ
  | .ok outcome r => ⟨.ok outcome, r.records, r.requests, r⟩
  | .error e r => ⟨.error e, r.records, r.requests, r⟩

theorem Report.ofResult_like {L : Reader σ → Reader τ → Prop}
    {x : EStateM.Result Failure (Reader σ) Outcome} {y : EStateM.Result Failure (Reader τ) Outcome}
    (h : SameEnd (fun _ => L) (fun _ => L) x y) : (ofResult x).Like L (ofResult y) := by
  cases h with
  | ok hq => exact ⟨rfl, ⟨rfl, rfl⟩, ⟨rfl, rfl⟩, hq⟩
  | error he => exact ⟨rfl, ⟨rfl, rfl⟩, ⟨rfl, rfl⟩, he⟩

/-- A reader with an empty journal. -/
def Reader.cleared (r : Reader σ) : Reader σ :=
  { r with records := [], requests := [] }

namespace Session

def readerAfter (reports : List (Report σ)) (r : Reader σ) : Reader σ :=
  reports.getLast?.elim r Report.reader

theorem readerAfter_cons (report : Report σ) (reports : List (Report σ)) (r : Reader σ) :
    readerAfter (report :: reports) r = readerAfter reports report.reader := by
  cases h : reports.getLast? <;> simp [readerAfter, List.getLast?_cons, h]

theorem readerAfter_append (as bs : List (Report σ)) (r : Reader σ) :
    readerAfter (as ++ bs) r = readerAfter bs (readerAfter as r) := by
  induction as generalizing r with
  | nil => rfl
  | cons report as ih => rw [List.cons_append, readerAfter_cons, readerAfter_cons, ih]

theorem step_of_includes [Cursor σ] {scope : Scope} {operation : Operation}
    (h : scope.includes operation.scope = true) (r : Reader σ) : step scope operation r =
      .ofResult (Reader.perform operation { r with records := [], requests := [] }) := by
  unfold step
  exact if_pos h

theorem step_of_not_includes [Cursor σ] {scope : Scope} {operation : Operation}
    (h : ¬ scope.includes operation.scope = true) (r : Reader σ) : step scope operation r =
      ⟨.error .unsupported, [], [], { r with records := [], requests := [] }⟩ := by
  unfold step
  exact if_neg h

theorem repeated_of_isEnd [Cursor σ] {scope : Scope} {operation : Operation} {r : Reader σ}
    (h : (step scope operation r).isEnd = true) (count : Nat) :
    repeated scope operation (count + 1) r = [step scope operation r] := by
  rw [repeated]
  exact if_pos h

theorem repeated_of_not_isEnd [Cursor σ] {scope : Scope} {operation : Operation} {r : Reader σ}
    (h : (step scope operation r).isEnd = false) (count : Nat) :
    repeated scope operation (count + 1) r =
      step scope operation r :: repeated scope operation count (step scope operation r).reader := by
  rw [repeated]
  exact if_neg (by rw [h]; decide)

theorem repeated_one [Cursor σ] (scope : Scope) (operation : Operation) (r : Reader σ) :
    repeated scope operation 1 r = [step scope operation r] := by
  rw [repeated, repeated]
  split <;> rfl

theorem run_one [Cursor σ] (scope : Scope) (operation : Operation) (rest : List (Operation × Nat))
    (r : Reader σ) : run scope ((operation, 1) :: rest) r =
      step scope operation r :: run scope rest (step scope operation r).reader := by
  simp only [run, repeated_one]
  rfl

theorem readerAfter_like {L : Reader σ → Reader τ → Prop} {as : List (Report σ)}
    {bs : List (Report τ)} (h : List.Forall₂ (Report.Like L) as bs) {r : Reader σ} {s : Reader τ}
    (hrs : L r s) : L (readerAfter as r) (readerAfter bs s) := by
  induction h generalizing r s with
  | nil => exact hrs
  | cons hab htail ih =>
    rw [readerAfter_cons, readerAfter_cons]
    exact ih hab.reader

end Session

section Likeness
variable [Cursor σ] [Cursor τ] {R : σ → τ → Prop} {within : Int → Prop}
variable {L : Reader σ → Reader τ → Prop}
variable (like : Reader.Likeness R L) (sim : Simulation R within)
include like sim

namespace Reader

theorem perform_keep {operation : Operation} (h : operation.IsKept L) :
    Keep Failure L (perform (σ := σ) operation) (perform operation) := by
  cases operation with
  | byte => exact (like.byte_keep sim).bind fun _ => .pure fun _ _ h => h
  | bytes count => exact (like.bytes_keep sim count).bind fun _ => .pure fun _ _ h => h
  | back => exact Agree.bind h fun _ => .pure fun _ _ h => h
  | offset => exact (like.place_keep sim).bind fun _ => .pure fun _ _ h => h
  | seek target => exact Agree.bind h fun _ => .pure fun _ _ h => h
  | forward target => exact Agree.bind h fun _ => .pure fun _ _ h => h
  | push token => exact (like.push_keep token).bind fun _ => .pure fun _ _ h => h
  | pop => exact like.pop_keep.bind fun _ => .pure fun _ _ h => h
  | token => exact (like.token_keep sim).bind fun _ => .pure fun _ _ h => h
  | tokens count =>
    apply Agree.ite
    · exact fun _ => ((like.toTokenLikeness.congruence sim).tokens _).bind fun _ => .pure fun _ _ h => h
    · exact fun _ => .throw fun _ _ h => h
  | tokenOr fallback =>
    exact ((like.toTokenLikeness.congruence sim).tokenOr fallback).bind fun _ => .pure fun _ _ h => h
  | object => exact (like.object_keep sim).bind fun _ => .pure fun _ _ h => h
  | objectAt target =>
    exact (Agree.bind h fun _ => like.object_keep sim).bind fun _ => .pure fun _ _ h => h
  | objects => exact (like.objects_keep sim).bind fun _ => .pure fun _ _ h => h
  | set setting => exact Agree.bind h fun _ => .pure fun _ _ h => h
  | tell template arguments => exact Agree.bind h fun _ => .pure fun _ _ h => h
  | record level template arguments => exact Agree.bind h fun _ => .pure fun _ _ h => h
  | fail template arguments => exact like.failWith_keep sim template arguments

end Reader

namespace Session
variable (hclear : ∀ {r s}, L r s → L r.cleared s.cleared)
include hclear

theorem step_like (scope : Scope) (operation : Operation) (h : operation.IsKept L)
    {r : Reader σ} {s : Reader τ} (hrs : L r s) :
    (step scope operation r).Like L (step scope operation s) := by
  by_cases hscope : scope.includes operation.scope = true
  · rw [step_of_includes hscope, step_of_includes hscope]
    exact Report.ofResult_like (Reader.perform_keep like sim h _ _ (hclear hrs))
  · rw [step_of_not_includes hscope, step_of_not_includes hscope]
    exact ⟨rfl, ⟨rfl, rfl⟩, ⟨rfl, rfl⟩, hclear hrs⟩

theorem repeated_like (scope : Scope) (operation : Operation) (h : operation.IsKept L)
    (count : Nat) {r : Reader σ} {s : Reader τ} (hrs : L r s) :
    List.Forall₂ (Report.Like L) (repeated scope operation count r)
      (repeated scope operation count s) := by
  induction count generalizing r s with
  | zero => exact .nil
  | succ count ih =>
    have hstep := step_like like sim hclear scope operation h hrs
    have hend : (step scope operation r).isEnd = (step scope operation s).isEnd := by
      simp only [Report.isEnd, hstep.outcome]
    simp only [repeated, hend]
    split
    · exact .cons hstep .nil
    · exact .cons hstep (ih hstep.reader)

theorem run_like (scope : Scope) {steps : List (Operation × Nat)}
    (h : ∀ step ∈ steps, step.1.IsKept L) {r : Reader σ} {s : Reader τ} (hrs : L r s) :
    List.Forall₂ (Report.Like L) (run scope steps r) (run scope steps s) := by
  induction steps generalizing r s with
  | nil => exact .nil
  | cons head rest ih =>
    obtain ⟨operation, count⟩ := head
    have hhead := repeated_like like sim hclear scope operation (h _ List.mem_cons_self) count hrs
    have hrest := ih (fun step hs => h step (List.mem_cons_of_mem _ hs)) (readerAfter_like hhead hrs)
    exact List.rel_append hhead hrest

end Session
end Likeness
end PdfSyntax
