import PdfSyntax.Proofs.Reader.Quiet
import PdfSyntax.Proofs.Session.History

/-!
# Sessions of quiet readers

A session comes to the same outcomes and leaves the reader alike whether it is quiet or not. Its records
are those of the other session but for every one whose message has come before, in whatever operation, on
whatever level and with whatever arguments.
-/

set_option autoImplicit false

namespace PdfSyntax

variable {σ : Type}

namespace Operation

/-- Whether an operation makes records only, not texts, and has arguments that fit its template. -/
def RecordsWell : Operation → Prop
  | .tell .. => False
  | .record _ template arguments => ∃ text, Reader.render template arguments = .ok text
  | _ => True

/-- The message of which an operation has made a record. -/
def messageOf : Operation → Record → String
  | .record _ template _, _ => template
  | _, made => made.message

/-- The records of reports on an operation, with their messages. -/
def notices (operation : Operation) (reports : List (Report σ)) : List (String × Record) :=
  reports.flatMap fun report => report.records.map fun made => (operation.messageOf made, made)

theorem notices_append (operation : Operation) (as bs : List (Report σ)) :
    operation.notices (as ++ bs) = operation.notices as ++ operation.notices bs :=
  List.flatMap_append

theorem map_snd_notices (operation : Operation) (reports : List (Report σ)) :
    (operation.notices reports).map Prod.snd = reports.flatMap Report.records := by
  rw [notices, List.map_flatMap]
  congr 1
  funext report
  rw [List.map_map]
  exact List.map_id _

end Operation

namespace Reader

/-- The second reader is quiet and has told the known messages. But for that and for its records, it is
as the first one, which is not quiet. -/
def Silenced (known : List String) (r s : Reader σ) : Prop :=
  r.told = none ∧
    ∃ told records, (∀ m, m ∈ told ↔ m ∈ known) ∧ s = { r with told := some told, records }

section Silenced
variable {known : List String} {r s : Reader σ}

theorem Silenced.hushed (h : Silenced known r s) : Hushed r s := by
  obtain ⟨-, told, records, -, hs⟩ := h
  exact ⟨some told, records, hs⟩

theorem Silenced.quieter (h : Silenced known r s) (message : Record → String) :
    Quieter message known r.cleared s.cleared := by
  obtain ⟨hloud, told, records, hmem, rfl⟩ := h
  refine ⟨hloud, fun _ h => (nomatch h), told, fun m => ?_, rfl⟩
  rw [hmem m]
  exact (or_iff_right List.not_mem_nil).symm

theorem Quieter.silenced {message : Record → String} (h : Quieter message known r s) :
    Silenced (r.records.map message ++ known) r s := by
  obtain ⟨hloud, -, told, hmem, rfl⟩ := h
  exact ⟨hloud, told, _, fun m => (hmem m).trans List.mem_append.symm, rfl⟩

theorem Quieter.records_eq {message : Record → String} (h : Quieter message known r s) :
    s.records = untold known (r.records.map fun record => (message record, record)) := by
  obtain ⟨-, -, told, -, rfl⟩ := h
  rfl

theorem Quieter.hushed {message : Record → String} (h : Quieter message known r s) : Hushed r s :=
  h.silenced.hushed

end Silenced

section Performed
variable [Cursor σ]

theorem isKept_quieter {operation : Operation} (h : operation.RecordsWell) (known : List String)
    (hrecord : ∀ level template arguments, operation ≠ .record level template arguments) :
    operation.IsKept (Quieter (σ := σ) Record.message known) := by
  have like := quieter_likeness (σ := σ) known
  have hseek : ∀ target, Keep Failure (Quieter (σ := σ) Record.message known) (seek target)
      (seek target) :=
    fun target => like.seek_keep (Simulation.same fun _ => True) trivial
  cases operation with
  | back =>
    rintro r s ⟨hloud, hmade, told, hmem, rfl⟩
    exact .ok ⟨hloud, hmade, told, hmem, rfl⟩
  | forward target =>
    apply like.settings_bind
    intro a b hab
    rw [hab.tolerant]
    exact like.onCursor_keep fun c d hcd => by
      subst hcd
      exact Keep.same _ c c rfl
  | seek target => exact hseek target
  | objectAt target => exact hseek target
  | set setting =>
    rintro r s ⟨hloud, hmade, told, hmem, rfl⟩
    cases setting <;> exact .ok ⟨hloud, hmade, told, hmem, rfl⟩
  | tell template arguments => exact h.elim
  | record level template arguments => exact absurd rfl (hrecord level template arguments)
  | _ => trivial

theorem perform_quieter {operation : Operation} (h : operation.RecordsWell) (known : List String) :
    Keep Failure (Quieter (σ := σ) operation.messageOf known) (perform operation)
      (perform operation) := by
  cases operation with
  | record level template arguments =>
    obtain ⟨text, htext⟩ := h
    change Keep Failure _ (record level template (render template arguments) >>= fun _ => _)
      (record level template (render template arguments) >>= fun _ => _)
    rw [htext]
    exact (record_quieter (fun _ => rfl) htext).bind fun _ => .pure fun _ _ h => h
  | _ =>
    exact perform_keep (quieter_likeness known) (Simulation.same fun _ => True)
      (isKept_quieter h known fun _ _ _ h => by cases h)

end Performed
end Reader

open Reader (Hushed Silenced Quieter valuelessMessage)

namespace Session

/-- What two sessions from readers on have come to: the same reports but for the records, of which the
second session has left out those that were told before. The notices are those of the first session. -/
structure Dampens (known : List String) (notices : List (String × Record)) (as bs : List (Report σ))
    (r s : Reader σ) : Prop where
  reports : List.Forall₂ (Report.Like Hushed) as bs
  made : ∀ notice ∈ notices, notice.2.IsMadeOf notice.1
  records : bs.flatMap Report.records = untold known notices
  readers : Silenced (notices.map Prod.fst ++ known) (readerAfter as r) (readerAfter bs s)

theorem Dampens.append {known : List String} {notices notices' : List (String × Record)}
    {as bs as' bs' : List (Report σ)} {r s : Reader σ} (h : Dampens known notices as bs r s)
    (h' : Dampens (notices.map Prod.fst ++ known) notices' as' bs' (readerAfter as r)
      (readerAfter bs s)) :
    Dampens known (notices ++ notices') (as ++ as') (bs ++ bs') r s where
  reports := List.rel_append h.reports h'.reports
  made notice hnotice := (List.mem_append.mp hnotice).elim (h.made notice) (h'.made notice)
  records := by
    rw [List.flatMap_append, h.records, h'.records, ← untold_append fun _ => List.mem_append]
  readers := by
    obtain ⟨hloud, told, records, hmem, hs⟩ := h'.readers
    rw [readerAfter_append, readerAfter_append]
    refine ⟨hloud, told, records, fun m => ?_, hs⟩
    rw [hmem m, List.map_append]
    simp only [List.mem_append]
    exact or_left_comm.trans or_assoc.symm

theorem dampens_of_report {known : List String} {r s : Reader σ} {message : Record → String}
    {a b : Report σ} (h : a.Like (Quieter message known) b) :
    Dampens known (a.records.map fun record => (message record, record)) [a] [b] r s where
  reports := .cons ⟨h.outcome, h.records, h.requests, h.reader.hushed⟩ .nil
  made notice hnotice := by
    obtain ⟨record, hrecord, rfl⟩ := List.mem_map.mp hnotice
    rw [h.records.1] at hrecord
    exact h.reader.2.1 record hrecord
  records := by
    rw [List.flatMap_singleton, h.records.1, h.records.2]
    exact h.reader.records_eq
  readers := by
    have hsilenced := h.reader.silenced
    rw [← h.records.1] at hsilenced
    rw [List.map_map]
    exact hsilenced

section Run
variable [Cursor σ] (scope : Scope) {known : List String} {r s : Reader σ}

theorem step_dampens {operation : Operation} (h : operation.RecordsWell) (hrs : Silenced known r s) :
    Dampens known (operation.notices [step scope operation r]) [step scope operation r]
      [step scope operation s] r s := by
  rw [Operation.notices, List.flatMap_singleton]
  refine dampens_of_report ?_
  by_cases hscope : scope.includes operation.scope = true
  · rw [step_of_includes hscope, step_of_includes hscope]
    exact Report.ofResult_like (Reader.perform_quieter h known _ _ (hrs.quieter _))
  · rw [step_of_not_includes hscope, step_of_not_includes hscope]
    exact ⟨rfl, ⟨rfl, rfl⟩, ⟨rfl, rfl⟩, hrs.quieter _⟩

theorem repeated_dampens {operation : Operation} (h : operation.RecordsWell) (count : Nat)
    (hrs : Silenced known r s) :
    Dampens known (operation.notices (repeated scope operation count r))
      (repeated scope operation count r) (repeated scope operation count s) r s := by
  induction count generalizing known r s with
  | zero => exact ⟨.nil, fun _ h => (nomatch h), rfl, hrs⟩
  | succ count ih =>
    have hstep := step_dampens scope h hrs
    have houtcome : (step scope operation r).outcome = (step scope operation s).outcome := by
      cases hstep.reports with
      | cons hlike _ => exact hlike.outcome
    cases hend : (step scope operation r).isEnd with
    | true =>
      have hend' : (step scope operation s).isEnd = true := by
        rw [Report.isEnd, ← houtcome]
        exact hend
      rw [repeated_of_isEnd hend, repeated_of_isEnd hend']
      exact hstep
    | false =>
      have hend' : (step scope operation s).isEnd = false := by
        rw [Report.isEnd, ← houtcome]
        exact hend
      rw [repeated_of_not_isEnd hend, repeated_of_not_isEnd hend']
      have hboth := hstep.append (ih hstep.readers)
      rw [← Operation.notices_append] at hboth
      exact hboth

/-- The records of a session with their messages, in the order in which they were made. -/
def notices (scope : Scope) : List (Operation × Nat) → Reader σ → List (String × Record)
  | [], _ => []
  | (operation, count) :: rest, r =>
    let reports := repeated scope operation count r
    operation.notices reports ++ notices scope rest (readerAfter reports r)

theorem map_snd_notices (scope : Scope) (steps : List (Operation × Nat)) (r : Reader σ) :
    (notices scope steps r).map Prod.snd = (run scope steps r).flatMap Report.records := by
  induction steps generalizing r with
  | nil => rfl
  | cons head rest ih =>
    obtain ⟨operation, count⟩ := head
    rw [notices, run, List.map_append, List.flatMap_append, operation.map_snd_notices, ih]
    rfl

theorem run_dampens {steps : List (Operation × Nat)} (h : ∀ step ∈ steps, step.1.RecordsWell)
    (hrs : Silenced known r s) :
    Dampens known (notices scope steps r) (run scope steps r) (run scope steps s) r s := by
  induction steps generalizing known r s with
  | nil => exact ⟨.nil, fun _ h => (nomatch h), rfl, hrs⟩
  | cons head rest ih =>
    obtain ⟨operation, count⟩ := head
    have hhead := repeated_dampens scope (h _ List.mem_cons_self) count hrs
    exact hhead.append (ih (fun step hs => h step (List.mem_cons_of_mem _ hs)) hhead.readers)

/-- A quiet reader comes to the same in a session as one that is not, and is left alike but for what it
has told. It makes the same records but for those whose message is that of an earlier one. The message is
the template that the text was made of. -/
theorem quiet_drops_repeated (cursor : σ) (settings : Settings) (decrypt : Decipherment)
    (scope : Scope) (steps : List (Operation × Nat)) (h : ∀ step ∈ steps, step.1.RecordsWell) :
    let loud : Reader σ := .new cursor settings decrypt false
    let quiet : Reader σ := .new cursor settings decrypt true
    List.Forall₂ (Report.Like Hushed) (run scope steps loud) (run scope steps quiet) ∧
    (notices scope steps loud).map Prod.snd = (run scope steps loud).flatMap Report.records ∧
    (∀ notice ∈ notices scope steps loud, notice.2.IsMadeOf notice.1) ∧
    (run scope steps quiet).flatMap Report.records = untold [] (notices scope steps loud) := by
  intro loud quiet
  have hfresh : Silenced [] loud quiet := ⟨rfl, [], [], fun _ => Iff.rfl, rfl⟩
  have hrun := run_dampens scope h hfresh
  exact ⟨hrun.reports, map_snd_notices scope steps loud, hrun.made, hrun.records⟩

/-- A warning of reading that comes twice and once more as an error with another argument, and two records
on different levels of another template. -/
theorem quiet_drops_repeated_of_levels :
    let steps : List (Operation × Nat) := [(.objectAt 0, 2),
      (.record .error valuelessMessage [.name "B"], 1), (.record .warning "page %d" [.int 1], 1),
      (.record .error "page %d" [.int 2], 1)]
    let cursor : Buffer := .atOffset (.ofData (Latin1.ascii "<</A")) 0 3
    let loud : Reader Buffer := .new cursor .lenient Request.decrypt false
    let quiet : Reader Buffer := .new cursor .lenient Request.decrypt true
    (∀ step ∈ steps, step.1.RecordsWell) ∧
    (run .objects steps loud).flatMap Report.records =
      [⟨.warning, "dictionary key /A has no value (offset=4)"⟩,
        ⟨.warning, "dictionary key /A has no value (offset=4)"⟩,
        ⟨.error, "dictionary key /B has no value (offset=4)"⟩,
        ⟨.warning, "page 1 (offset=4)"⟩, ⟨.error, "page 2 (offset=4)"⟩] ∧
    (run .objects steps quiet).flatMap Report.records =
      [⟨.warning, "dictionary key /A has no value (offset=4)"⟩, ⟨.warning, "page 1 (offset=4)"⟩] ∧
    (run .objects steps quiet).flatMap Report.records = untold [] (notices .objects steps loud) := by
  intro steps cursor loud quiet
  have hsteps : ∀ step ∈ steps, step.1.RecordsWell := by
    intro step hstep
    simp only [steps, List.mem_cons, List.not_mem_nil, or_false] at hstep
    rcases hstep with rfl | rfl | rfl | rfl
    · trivial
    · exact ⟨_, Reader.render_valueless "B"⟩
    · exact ⟨"page 1", rfl⟩
    · exact ⟨"page 2", rfl⟩
  obtain ⟨-, -, -, hrecords⟩ := quiet_drops_repeated cursor .lenient Request.decrypt .objects steps hsteps
  exact ⟨hsteps, by decide +kernel, by decide +kernel, hrecords⟩

end Run
end Session
end PdfSyntax
