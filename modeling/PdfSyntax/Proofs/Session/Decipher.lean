import PdfSyntax.Proofs.Reader.Decipher
import PdfSyntax.Proofs.Session.Likeness

/-!
# Sessions with a key and without

In a session that reads objects, and goes on after failures, the key makes no difference but this: the
strings of the objects come out deciphered, each for the innermost definition around it or, outside of
any, for the object that the reader was set to. The decipherment is asked once for each string that is
taken as an object and is part of one, in the order of the text, and for nothing else.
-/

set_option autoImplicit false

namespace PdfSyntax

variable {σ : Type}

/-- Whether an operation reads objects from where the reader is. -/
def Operation.TakesObjects (operation : Operation) : Prop :=
  operation = .object ∨ operation = .objects

def Outcome.decipher (cipher : Ref → Bytes → Bytes) (context : Ref) : Outcome → Outcome
  | .object obj => .object (obj.map (Obj.decipher cipher context))
  | .objects objs => .objects (objs.map (Obj.decipher cipher context))
  | outcome => outcome

theorem Outcome.isEnd_decipher (cipher : Ref → Bytes → Bytes) (context : Ref) (outcome : Outcome) :
    (outcome.decipher cipher context).isEnd = outcome.isEnd := by
  cases outcome with
  | object obj =>
    cases obj with
    | none => rfl
    | some obj => exact Obj.isEnd_decipher cipher context obj
  | _ => rfl

/-- The strings that an operation takes as objects. -/
def Reader.stringsTaken [Cursor σ] (operation : Operation) (r : Reader σ) : List PlacedString :=
  match operation with
  | .object => r.cleared.objectStrings
  | .objects => r.cleared.objectsStrings
  | _ => []

namespace Keying
variable [Cursor σ] {w : Keying} {context : Ref} {operation : Operation} {r : Reader σ}

omit [Cursor σ] in
theorem Plain.cleared (h : w.Plain context r) : w.Plain context r.cleared :=
  ⟨⟨h.settings, h.decrypt, h.context⟩, h.tokens⟩

theorem commutes_perform (context : Ref) (h : operation.TakesObjects) :
    ∃ strings, w.Commutes (σ := σ) context strings (Outcome.decipher w.cipher context)
      (Reader.perform operation) (Reader.perform operation) ∧
      ∀ r : Reader σ, strings r.cleared = r.stringsTaken operation := by
  rcases h with rfl | rfl
  · exact ⟨Reader.objectStrings, (commutes_object context).followed fun _ => .pure rfl, fun _ => rfl⟩
  · exact ⟨Reader.objectsStrings, (commutes_objects context).followed fun _ => .pure rfl, fun _ => rfl⟩

/-- What the report of an operation without the key becomes with it. -/
def keyedReport (w : Keying) (context : Ref) (strings : List PlacedString) (report : Report σ) :
    Report σ where
  outcome := report.outcome.map (Outcome.decipher w.cipher context)
  records := report.records
  requests := w.requests strings
  reader := w.keyed (w.requests strings) report.reader

omit [Cursor σ] in
theorem isEnd_keyedReport (strings : List PlacedString) (report : Report σ) :
    (w.keyedReport context strings report).isEnd = report.isEnd := by
  obtain ⟨outcome, records, requests, reader⟩ := report
  cases outcome with
  | ok outcome => exact Outcome.isEnd_decipher _ _ _
  | error e => rfl

theorem step_keyed (h : operation.TakesObjects) (hr : w.Plain context r)
    (hanswers : w.Answers (r.stringsTaken operation)) (asked : List Request) :
    w.Plain context (Session.step .objects operation r).reader ∧
    Session.step .objects operation (w.keyed asked r) =
      w.keyedReport context (r.stringsTaken operation) (Session.step .objects operation r) := by
  obtain ⟨strings, hperform, hstrings⟩ := commutes_perform (σ := σ) (w := w) context h
  rw [← hstrings] at hanswers ⊢
  have hscope : Scope.objects.includes operation.scope = true := rfl
  have hkeeps := hperform.keeps _ hr.cleared
  have hkeyed := hperform.keyed_eq r.cleared [] hr.cleared hanswers
  rw [Session.step_of_includes hscope, Session.step_of_includes hscope]
  change w.Plain context (Report.ofResult (Reader.perform operation r.cleared)).reader ∧
    Report.ofResult (Reader.perform operation (w.keyed [] r.cleared)) =
      w.keyedReport context _ (Report.ofResult (Reader.perform operation r.cleared))
  rw [hkeyed]
  cases hend : Reader.perform operation r.cleared with
  | ok outcome r' =>
    rw [hend] at hkeeps
    exact ⟨hkeeps, rfl⟩
  | error e r' =>
    rw [hend] at hkeeps
    exact ⟨hkeeps, rfl⟩

variable (hanswers : ∀ strings, w.Answers strings)
include hanswers

theorem repeated_keyed (h : operation.TakesObjects) (count : Nat) (hr : w.Plain context r)
    (asked : List Request) :
    List.Forall₂ (fun plain keyed => w.Plain context plain.reader ∧
        ∃ strings, keyed = w.keyedReport context strings plain)
      (Session.repeated .objects operation count r)
      (Session.repeated .objects operation count (w.keyed asked r)) := by
  induction count generalizing r asked with
  | zero => exact .nil
  | succ count ih =>
    obtain ⟨hplain, hkeyed⟩ := step_keyed h hr (hanswers _) asked
    simp only [Session.repeated, hkeyed, isEnd_keyedReport]
    split
    · exact .cons ⟨hplain, _, rfl⟩ .nil
    · exact .cons ⟨hplain, _, rfl⟩ (ih hplain _)

omit [Cursor σ] hanswers in
theorem readerAfter_keyed {plain keyed : List (Report σ)}
    (h : List.Forall₂ (fun plain keyed => w.Plain context plain.reader ∧
      ∃ strings, keyed = w.keyedReport context strings plain) plain keyed)
    (hr : w.Plain context r) (asked : List Request) :
    w.Plain context (Session.readerAfter plain r) ∧
    ∃ asked', Session.readerAfter keyed (w.keyed asked r) =
      w.keyed asked' (Session.readerAfter plain r) := by
  induction h generalizing r asked with
  | nil => exact ⟨hr, asked, rfl⟩
  | cons hhead _ ih =>
    obtain ⟨hplain, strings, rfl⟩ := hhead
    rw [Session.readerAfter_cons, Session.readerAfter_cons]
    exact ih hplain _

theorem run_keyed {steps : List (Operation × Nat)} (h : ∀ step ∈ steps, step.1.TakesObjects)
    (hr : w.Plain context r) (asked : List Request) :
    List.Forall₂ (fun plain keyed => w.Plain context plain.reader ∧
        ∃ strings, keyed = w.keyedReport context strings plain)
      (Session.run .objects steps r) (Session.run .objects steps (w.keyed asked r)) := by
  induction steps generalizing r asked with
  | nil => exact .nil
  | cons head rest ih =>
    obtain ⟨operation, count⟩ := head
    have hhead := repeated_keyed hanswers (h _ List.mem_cons_self) count hr asked
    obtain ⟨hafter, asked', heq⟩ := readerAfter_keyed hhead hr asked
    have hrest := ih (fun step hs => h step (List.mem_cons_of_mem _ hs)) hafter asked'
    rw [← heq] at hrest
    exact List.rel_append hhead hrest

end Keying

namespace Session

/-- A session that reads objects tells the same with a key as without, but for the strings of the
objects; and at every point of it so does the next operation, which leaves the same reader but for the
key, and asks for the strings that it takes as part of an object. -/
theorem run_of_key {σ : Type} [Cursor σ] (cursor : σ) (settings : Settings) (context : Ref)
    (quiet : Bool) (key : Bytes) (f : Request → Bytes) (steps : List (Operation × Nat))
    (operation : Operation) (hsteps : ∀ step ∈ steps, step.1.TakesObjects)
    (hoperation : operation.TakesObjects) :
    let cipher : Ref → Bytes → Bytes := fun ref data => f ⟨key, settings.algorithm, ref, data⟩
    let start (key : Option Bytes) : Reader σ :=
      { Reader.new cursor { settings with key } (fun request => .ok (f request)) quiet with context }
    let reports (key : Option Bytes) : List (Report σ) := run .objects steps (start key)
    let before (key : Option Bytes) : Reader σ := readerAfter (reports key) (start key)
    let plain := step .objects operation (before none)
    let keyed := step .objects operation (before (some key))
    (reports (some key)).map (fun report => (report.outcome, report.records)) =
      (reports none).map (fun report =>
        (report.outcome.map (Outcome.decipher cipher context), report.records)) ∧
    keyed.outcome = plain.outcome.map (Outcome.decipher cipher context) ∧
    keyed.records = plain.records ∧
    keyed.requests =
      (((before none).stringsTaken operation).filter fun string => string.context.id ≠ 0).map
        (fun string => ⟨key, settings.algorithm, string.context, string.data⟩) ∧
    keyed.reader = { plain.reader with
      settings := { settings with key := some key }
      requests := keyed.requests } := by
  intro cipher start reports before plain keyed
  let w : Keying := ⟨settings, fun request => .ok (f request), key, cipher⟩
  have hanswers : ∀ strings, w.Answers strings := fun strings string _ _ => rfl
  have hstart : w.Plain context (start none) :=
    ⟨⟨rfl, rfl, rfl⟩, fun token h => absurd h List.not_mem_nil⟩
  have hreports := Keying.run_keyed hanswers hsteps hstart []
  obtain ⟨hbefore, asked, hkeyed⟩ := Keying.readerAfter_keyed hreports hstart []
  have hstep := (Keying.step_keyed hoperation hbefore (hanswers _) asked).2
  rw [← hkeyed] at hstep
  have hreport : keyed = w.keyedReport context ((before none).stringsTaken operation) plain := hstep
  refine ⟨?_, ?_⟩
  · rw [← List.forall₂_eq_eq_eq, List.forall₂_map_left_iff, List.forall₂_map_right_iff]
    refine hreports.flip.imp ?_
    rintro keyed plain ⟨-, strings, rfl⟩
    rfl
  · rw [hreport]
    exact ⟨rfl, rfl, rfl, rfl⟩

/-- After a definition without an end, whose last token is pushed back and read again, a definition in
an array in a definition. -/
theorem run_of_key_of_definitions :
    let data := Latin1.ascii "7 0 obj(d)(e) 1 0 obj[(a)2 0 obj(b)endobj(c)]endobj"
    let f : Request → Bytes := fun request => request.data.reverse
    let start (key : Option Bytes) : Reader Direct :=
      { Reader.new ⟨data, 0, 0, false⟩ ⟨true, true, true, key, .rc4⟩ (fun request => .ok (f request))
          false with context := ⟨0, 3⟩ }
    let steps : List (Operation × Nat) := [(.object, 2)]
    let before (key : Option Bytes) : Reader Direct :=
      readerAfter (run .objects steps (start key)) (start key)
    let keyed := step .objects .object (before (some []))
    (∀ step ∈ steps, step.1.TakesObjects) ∧ Operation.object.TakesObjects ∧
    keyed.requests = [⟨[], .rc4, ⟨1, 0⟩, [0x61]⟩, ⟨[], .rc4, ⟨2, 0⟩, [0x62]⟩,
      ⟨[], .rc4, ⟨1, 0⟩, [0x63]⟩] ∧
    keyed.reader.pending = [] := by
  intro data f start steps before keyed
  have hsteps : ∀ step ∈ steps, step.1.TakesObjects := by
    intro step hstep
    rw [List.mem_singleton.mp hstep]
    exact .inl rfl
  obtain ⟨-, -, -, hrequests, hreader⟩ := run_of_key (⟨data, 0, 0, false⟩ : Direct)
    ⟨true, true, true, none, .rc4⟩ ⟨0, 3⟩ false [] f steps .object hsteps (.inl rfl)
  refine ⟨hsteps, .inl rfl, ?_, ?_⟩
  · rw [hrequests]
    decide +kernel
  · rw [hreader]
    decide +kernel

end Session
end PdfSyntax
