import PdfSyntax.Proofs.Reader.Unread
import PdfSyntax.Proofs.Session.Remainder

/-!
# Sessions look ahead without loss

In a session in which nobody pushes anything back, two tokens at most are unread after every operation,
however it ended, and none where an array or a dictionary begins. As long as no streams are looked for and
no token is malformed, the tokens unread and those still to be lexed are what the operations have left of
the tokens of the data.
-/

set_option autoImplicit false

namespace PdfSyntax

open Reader (Balanced Remaining)

namespace Session

/-- Carries operations out one by one. -/
def each {σ : Type} [Cursor σ] (operations : List Operation) (r : Reader σ) : List (Report σ) :=
  run .objects (operations.map fun operation => (operation, 1)) r

theorem each_cons {σ : Type} [Cursor σ] (operation : Operation) (operations : List Operation)
    (r : Reader σ) : each (operation :: operations) r =
      step .objects operation r :: each operations (step .objects operation r).reader := by
  unfold each
  exact run_one .objects operation _ r

section Shape
variable {σ : Type} [Cursor σ] {r : Reader σ}

theorem step_rested {operation : Operation} (hpush : ∀ token, operation ≠ .push token)
    (hr : r.Rested) : (step .objects operation r).reader.Rested := by
  have hperform := (Watched.perform_rests (σ := σ) hpush).leaves_visits.1 r.cleared hr
  rw [step_of_includes rfl]
  change (Report.ofResult (Reader.perform operation r.cleared)).reader.Rested
  generalize Reader.perform operation r.cleared = result at hperform ⊢
  cases result <;> exact hperform

theorem each_rested {operations : List Operation}
    (hpush : ∀ operation ∈ operations, ∀ token, operation ≠ .push token) (hr : r.Rested) :
    (readerAfter (each operations r) r).Rested := by
  induction operations generalizing r with
  | nil => exact hr
  | cons operation operations ih =>
    rw [each_cons, readerAfter_cons]
    exact ih (fun operation h => hpush operation (List.mem_cons_of_mem _ h))
      (step_rested (hpush operation List.mem_cons_self) hr)

end Shape

section Balance
variable {medium : Medium} {r : Reader Buffer} {tokens : List Obj}

/-- Where nothing was deciphered yet, what an operation leaves is what it has left. -/
theorem step_balanced {operation : Operation} (hr : Balanced medium tokens r)
    (hkeeps : operation.KeepsToTokens)
    (hstreams : operation.scope = .objects → r.settings.streams = false)
    (hmet : (step .objects operation r).metMalformed = false) : ∃ rest,
      operation.Left r tokens (step .objects operation r) rest ∧
        Balanced medium rest (step .objects operation r).reader := by
  have hcleared : Remaining medium r.cleared.decrypt tokens r.cleared :=
    { hr with decrypt_eq := rfl, answered := fun _ h => (nomatch h) }
  have hperform := (Watched.perform_expends hcleared hkeeps hstreams).leaves_visits.1 r.cleared rfl
  have hstep : step .objects operation r = .ofResult (Reader.perform operation r.cleared) :=
    step_of_includes rfl r
  rw [hstep] at hmet ⊢
  generalize Reader.perform operation r.cleared = result at hperform hmet ⊢
  cases result with
  | ok outcome r' =>
    have hanswered := Report.isAnswered_of_forall (.ofResult (.ok outcome r'))
      hperform.decrypt_eq hperform.answered
    exact ⟨_, .whole hanswered (fun _ h => by cases h), hperform.toBalanced⟩
  | error e r' =>
    rcases hperform with ⟨hend, hleft⟩ | ⟨start, hdecrypt, hbroken⟩
    · have hanswered := Report.isAnswered_of_forall (.ofResult (.error e r'))
        hleft.decrypt_eq hleft.answered
      exact ⟨_, .whole hanswered (fun offset h => hend offset (Except.error.inj h)), hleft.toBalanced⟩
    · cases hbroken with
      | @malformed fault offset _ hlexical hsame hanswered =>
        have hanswered := Report.isAnswered_of_forall
          (.ofResult (.error (.malformed fault offset) r')) hsame hanswered
        cases hmet.symm.trans (Report.metMalformed_of_isLexical rfl hlexical hanswered)
      | @cutShort offset _ hleft =>
        have hanswered := Report.isAnswered_of_forall
          (.ofResult (.error (.unexpectedEnd offset) r')) hleft.decrypt_eq hleft.answered
        refine ⟨_, .cutShort hanswered rfl, { hleft with isLexeme := fun _ h => (nomatch h) }⟩
      | @refused _ request used rest _ hrequest hrefused hwhole hleft =>
        have hlexemes : ∀ token ∈ rest, Lexer.IsLexeme token := by
          intro token ht
          refine operation.isLexeme_of_mem_ahead r hr.isLexeme ?_
          rw [show operation.ahead r tokens = _ from hwhole]
          exact List.mem_append_right _ (List.mem_cons_of_mem _ ht)
        exact ⟨rest, .refused hrequest (hleft.decrypt_eq ▸ hrefused) rfl hwhole,
          { hleft with isLexeme := hlexemes }⟩

/-- What operations have left of the tokens ahead, one after another. -/
inductive Left : List Operation → Reader Buffer → List Obj → List Obj → Prop where
  | nil (r : Reader Buffer) (tokens : List Obj) : Left [] r tokens tokens
  | cons {operation : Operation} {operations : List Operation} {r : Reader Buffer}
    {tokens between rest : List Obj} :
    operation.Left r tokens (step .objects operation r) between →
    Left operations (step .objects operation r).reader between rest →
    Left (operation :: operations) r tokens rest

/-- Whether no streams are looked for where objects are read, and no token is malformed. -/
def isSmooth {σ : Type} [Cursor σ] : List Operation → Reader σ → Bool
  | [], _ => true
  | operation :: operations, r =>
    let report := step .objects operation r
    (operation.scope != .objects || !r.settings.streams) && !report.metMalformed &&
      isSmooth operations report.reader

theorem each_balanced {operations : List Operation} (hr : Balanced medium tokens r)
    (hkeeps : ∀ operation ∈ operations, operation.KeepsToTokens)
    (hsmooth : isSmooth operations r = true) : ∃ rest, Left operations r tokens rest ∧
      Balanced medium rest (readerAfter (each operations r) r) := by
  induction operations generalizing r tokens with
  | nil => exact ⟨tokens, .nil r tokens, hr⟩
  | cons operation operations ih =>
    simp only [isSmooth, Bool.and_eq_true, Bool.or_eq_true, bne_iff_ne, Bool.not_eq_true'] at hsmooth
    obtain ⟨⟨hstreams, hmet⟩, hsmooth⟩ := hsmooth
    have hstreams : operation.scope = .objects → r.settings.streams = false :=
      fun hscope => hstreams.resolve_left fun hne => hne hscope
    obtain ⟨between, hleft, hbetween⟩ :=
      step_balanced hr (hkeeps operation List.mem_cons_self) hstreams hmet
    obtain ⟨rest, hrest, hbalanced⟩ :=
      ih hbetween (fun operation h => hkeeps operation (List.mem_cons_of_mem _ h)) hsmooth
    rw [each_cons, readerAfter_cons]
    exact ⟨rest, .cons hleft hrest, hbalanced⟩

/-- Where nothing is pushed back, the tokens that follow a bracket are those of the bytes ahead. -/
theorem visit_balanced {operation : Operation} (hr : Balanced medium tokens r)
    (hkeeps : operation.KeepsToTokens)
    (hstreams : operation.scope = .objects → r.settings.streams = false) :
    ∀ visit ∈ r.cleared.visits operation, visit.reader.pending = [] →
      ∃ used, operation.ahead r tokens =
        used ++ .keyword visit.bracket :: Lexer.lexemes visit.reader.cursor.ahead := by
  have hcleared : Remaining medium r.cleared.decrypt tokens r.cleared :=
    { hr with decrypt_eq := rfl, answered := fun _ h => (nomatch h) }
  intro visit hvisit hp
  obtain ⟨used, rest, hused, hawaits⟩ :=
    (Watched.perform_expends hcleared hkeeps hstreams).leaves_visits.2 r.cleared rfl visit hvisit
  refine ⟨used, ?_⟩
  rw [← hawaits.eq_lexemes hp]
  exact hused

end Balance

/-- In a session in which nobody pushes anything back, two tokens at most are unread after any operations,
whatever became of them, and of two the first is an integer that could be a generation; none is where an
array or a dictionary begins. If no streams are looked for and no token was malformed so far, the tokens
unread and those still to be lexed are those that the operations have left of the tokens of the data, and
then the end of the input again and again; where an array or a dictionary begins, those still to be lexed
are what follows its bracket. -/
theorem unread_tokens (source : Source) (offset : Int) (blockSize : Nat) (settings : Settings)
    (decrypt : Decipherment) (quiet : Bool) (operations : List Operation)
    (hpush : ∀ operation ∈ operations, ∀ token, operation ≠ .push token) :
    let fresh : Reader Buffer := .new (.atOffset source offset blockSize) settings decrypt quiet
    let r := readerAfter (each operations fresh) fresh
    r.pending.length ≤ 2 ∧
    (r.pending.length = 2 → ∃ n last, r.pending = [.int n, last] ∧ 0 ≤ n ∧ n < 0x10000) ∧
    (∀ operation, (∀ token, operation ≠ .push token) →
      ∀ visit ∈ r.cleared.visits operation, visit.reader.pending = []) ∧
    (source.IsSteady → 0 < blockSize → (∀ operation ∈ operations, operation.KeepsToTokens) →
      isSmooth operations fresh = true →
      ∃ tokens, Left operations fresh (Lexer.lexemes source.rest) tokens ∧ r.Awaits tokens ∧
        ∀ operation : Operation, operation.KeepsToTokens → r.settings.streams = false →
          ∀ visit ∈ r.cleared.visits operation, ∃ used, operation.ahead r tokens =
            used ++ .keyword visit.bracket :: Lexer.lexemes visit.reader.cursor.ahead) := by
  intro fresh r
  have hrested : r.Rested := each_rested hpush .nothing
  have hvisits : ∀ operation : Operation, (∀ token, operation ≠ .push token) →
      ∀ visit ∈ r.cleared.visits operation, visit.reader.pending = [] :=
    fun operation h => (Watched.perform_rests (σ := Buffer) h).leaves_visits.2 r.cleared hrested
  refine ⟨hrested.length_le, hrested.exists_int, hvisits, fun hsteady hsize hkeeps hsmooth => ?_⟩
  have hfresh : Balanced (.ofSource source offset) (Lexer.lexemes source.rest) fresh :=
    { (Buffer.shows_atOffset hsteady offset hsize).toOver with
      awaits := Reader.awaits_of_no_pending rfl
      isLexeme := fun _ => Lexer.isLexeme_of_mem_lexemes }
  obtain ⟨tokens, hleft, hbalanced⟩ := each_balanced hfresh hkeeps hsmooth
  refine ⟨tokens, hleft, hbalanced.awaits, fun operation hoperation hstreams visit hvisit => ?_⟩
  have hpushes : ∀ token, operation ≠ .push token := by
    rintro token rfl
    exact hoperation
  exact visit_balanced hbalanced hoperation (fun _ => hstreams) visit hvisit
    (hvisits operation hpushes visit hvisit)

/-- A definition without its end, after which the second of two operations looks ahead at an integer and a
bracket. -/
theorem unread_tokens_of_missing_end :
    let source : Source := .ofData (Latin1.ascii "1 0 obj 5 6 7 [8]")
    let settings : Settings := { Settings.lenient with streams := false }
    let fresh : Reader Buffer := .new (.atOffset source 0 4) settings Request.decrypt false
    let operations : List Operation := [.object, .object]
    let r := readerAfter (each operations fresh) fresh
    (∀ operation ∈ operations, ∀ token, operation ≠ .push token) ∧ source.IsSteady ∧
    (∀ operation ∈ operations, operation.KeepsToTokens) ∧ isSmooth operations fresh = true ∧
    r.pending.map Obj.plain = ["7", "["] ∧
    (∃ n last, r.pending = [.int n, last] ∧ 0 ≤ n ∧ n < 0x10000) ∧
    (r.cleared.visits .objects).map Visit.bracket = ["["] ∧
    ∃ tokens, Left operations fresh (Lexer.lexemes source.rest) tokens ∧ r.Awaits tokens ∧
      ∀ visit ∈ r.cleared.visits .objects, visit.reader.pending = [] ∧
        ∃ used, tokens = used ++ .keyword visit.bracket :: Lexer.lexemes visit.reader.cursor.ahead := by
  intro source settings fresh operations r
  have hpush : ∀ operation ∈ operations, ∀ token, operation ≠ .push token := by
    intro operation hoperation
    simp only [operations, List.mem_cons, List.not_mem_nil, or_false, or_self] at hoperation
    rcases hoperation with rfl
    exact fun token h => by cases h
  have hkeeps : ∀ operation ∈ operations, operation.KeepsToTokens := by
    intro operation hoperation
    simp only [operations, List.mem_cons, List.not_mem_nil, or_false, or_self] at hoperation
    rcases hoperation with rfl
    trivial
  have hsteady : source.IsSteady := Source.isSteady_ofData _
  have hsmooth : isSmooth operations fresh = true := by decide +kernel
  have hlength : r.pending.length = 2 := by decide +kernel
  have hstreams : r.settings.streams = false := by decide +kernel
  obtain ⟨-, htwo, hvisits, hbalance⟩ :=
    unread_tokens source 0 4 settings Request.decrypt false operations hpush
  obtain ⟨tokens, hleft, hawaits, hopens⟩ := hbalance hsteady (by decide) hkeeps hsmooth
  refine ⟨hpush, hsteady, hkeeps, hsmooth, by decide +kernel, htwo hlength, by decide +kernel, tokens,
    hleft, hawaits, fun visit hvisit => ?_⟩
  exact ⟨hvisits .objects (fun token h => by cases h) visit hvisit,
    hopens .objects trivial hstreams visit hvisit⟩

end Session
end PdfSyntax
