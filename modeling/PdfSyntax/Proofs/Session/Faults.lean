import PdfSyntax.File
import PdfSyntax.Proofs.Session.Context
import PdfSyntax.Proofs.Session.Progress

/-!
# What reading fails for

Whatever a source yields or refuses, and whatever was done before, reading fails for the input only: for
a mistake in it, for its end, for a refusal or for a string that cannot be deciphered. It does not fail
in the lookup of a digit or of a byte of the block, nor for a cipher that refuses what it is given, nor
for a message that does not take its arguments. Only the object at hand has to have a number as in a
file, and no more tokens must be asked for at once than can be counted.
-/

set_option autoImplicit false

namespace PdfSyntax

/-- Whether an operation reads from where the reader is. -/
def Operation.ReadsOn : Operation → Prop
  | .byte | .bytes _ | .forward _ | .token | .tokenOr _ | .object | .objects => True
  | .tokens count => 0 ≤ count ∧ count < Reader.tokenLimit
  | _ => False

namespace Reader
variable {σ : Type} [Cursor σ] {I : σ → Prop} {complete : Prop} {start : Reader σ} {k j : Nat}
variable (wanes : Cursor.Wanes I complete)
include wanes

theorem byte_spends : Ensures (Spent I complete start k j) byte
    (fun _ => Spent I complete start k j) (Stuck I complete start j) :=
  (byte_spent wanes).weaken (fun _ h => h) (fun _ _ h => h.1) (fun _ _ h => h)

theorem token_spends : Ensures (Spent I complete start k j) token
    (fun _ => Spent I complete start k j) (Stuck I complete start j) :=
  (token_took wanes).weaken (fun _ h => h) (fun _ _ h => h.spent) (fun _ _ h => h.mono (by omega))

theorem tokenOr_spends (fallback : Obj) : Ensures (Spent I complete start k j) (tokenOr fallback)
    (fun _ => Spent I complete start k j) (Stuck I complete start j) :=
  (token_spends wanes).bind fun _ => .pure fun _ h => h

/-- Each object is lighter by one at least, so as many objects as the reader weighs are all there can
be before the end. -/
theorem objectsWithin_spends {bound : Nat} (hbound : start.weight + 1 ≤ bound + k) :
    Ensures (Spent I complete start k j) (objectsWithin bound)
      (fun _ => Spent I complete start k j) (Stuck I complete start j) := by
  induction bound generalizing k j with
  | zero => exact fun r hr => (not_spent (by omega) r hr).elim
  | succ bound ih =>
    apply ((object_spent wanes).weaken (fun _ h => h) (fun _ _ h => h)
      fun _ _ h => h.mono (by omega)).bind
    intro object
    cases hend : object.isEnd with
    | true => exact .pure fun _ h => h.spent
    | false =>
      have hless : ∀ r, Spent I complete start (k + 1) (j + 1) r → Spent I complete start k j r :=
        fun _ h => h.mono (by omega) (by omega)
      refine Ensures.from_imp ?_ fun r h => h.more hend
      exact ((ih (by omega)).weaken (fun _ h => h) (fun _ _ h => h) fun _ _ h =>
        h.mono (by omega)).bind fun _ => .pure hless

theorem objects_spends {r : Reader σ} (hr : I r.cursor) :
    Ensures (· = r) objects (fun _ => Spent I complete r 0 0) (Stuck I complete r 0) := by
  rintro s rfl
  exact objectsWithin_spends wanes (by omega) s (spent_self hr)

/-- Reading fails for the input only, at an object with a number as in a file. -/
theorem perform_kind {operation : Operation} (h : operation.ReadsOn)
    (hforward : ∀ tolerant target, Ensures I (Cursor.forward tolerant target) (fun _ _ => True)
      (fun e _ => e.kind = .input))
    {r : Reader σ} (hr : I r.cursor) (hanswers : r.decrypt.Answers) (hcontext : r.context.IsSmall) :
    Ensures (· = r) (perform operation) (fun _ _ => True) (fun e _ => e.kind = .input) := by
  have out : ∀ {α : Type} {m : Reading σ α} {f : α → Outcome},
      Ensures (· = r) m (fun _ => Spent I complete r 0 0) (Stuck I complete r 0) →
      Ensures (· = r) (m >>= fun a => Pure.pure (f a)) (fun _ _ => True) (fun e _ => e.kind = .input) :=
    fun hm => (hm.weaken (fun _ h => h) (fun _ _ h => h) fun _ _ h => h.kind_eq hanswers hcontext).bind
      fun _ => .pure fun _ _ => trivial
  have hself : ∀ s, s = r → Spent I complete r 0 0 s := by
    rintro s rfl
    exact spent_self hr
  cases operation with
  | byte => exact out ((byte_spends wanes).from_imp hself)
  | bytes count => exact out ((bytes_keeps (byte_spends wanes) count).from_imp hself)
  | forward target =>
    have hcursor : ∀ tolerant, Ensures (fun s : Reader σ => I s.cursor)
        (onCursor (Cursor.forward tolerant target)) (fun _ _ => True) (fun e _ => e.kind = .input) := by
      intro tolerant s hs
      have hmoved := hforward tolerant target s.cursor hs
      simp only [onCursor]
      cases hresult : Cursor.forward tolerant target s.cursor with
      | ok _ c => trivial
      | error e c =>
        rw [hresult] at hmoved
        exact hmoved
    have hsettings : Ensures (· = r) getSettings (fun _ s => I s.cursor) (fun e _ => e.kind = .input) :=
      fun s hs => hs ▸ hr
    exact (hsettings.bind fun settings => hcursor settings.tolerant).bind fun _ =>
      .pure fun _ _ => trivial
  | token => exact out ((token_spends wanes).from_imp hself)
  | tokens count =>
    apply Ensures.ite
    · exact fun _ => out ((tokens_keeps (token_spends wanes) _).from_imp hself)
    · exact fun hcount => absurd h hcount
  | tokenOr fallback => exact out ((tokenOr_spends wanes fallback).from_imp hself)
  | object =>
    exact out ((object_took wanes hr).weaken (fun _ h => h) (fun _ _ h => h.spent)
      fun _ _ h => h.mono (by omega))
  | objects => exact out (objects_spends wanes hr)
  | _ => exact h.elim

end Reader

namespace Session

/-- Every operation that reads on comes to an outcome or fails for the input, whatever the source yields
or refuses, and whatever was done before: tokens pushed back, seeks in vain and failures included. -/
theorem kind_of_readsOn (source : Source) (offset : Int) (blockSize : Nat) (settings : Settings)
    (quiet : Bool) (scope : Scope) (steps : List (Operation × Nat)) (operation : Operation)
    (hsize : 0 < blockSize) (hsteps : ∀ step ∈ steps, step.1.SetsSmall) (hreads : operation.ReadsOn) :
    let fresh : Reader Buffer := .new (.atOffset source offset blockSize) settings Request.decrypt quiet
    let r := readerAfter (run scope steps fresh) fresh
    match (step .objects operation r).outcome with
    | .ok _ => True
    | .error e => e.kind = .input := by
  intro fresh r
  have hr : r.Over (Buffer.StemsFrom fresh.cursor) Request.decrypt quiet :=
    readerAfter_over (Buffer.stemsFrom_invariant _) scope steps
      (Reader.over_new (Buffer.stemsFrom_self _) settings Request.decrypt quiet)
  have hcursor : 0 < r.cleared.cursor.blockSize := by
    rw [show r.cleared.cursor.blockSize = blockSize from hr.cursor.blockSize_eq]
    exact hsize
  have hanswers : r.cleared.decrypt.Answers := by
    rw [show r.cleared.decrypt = Request.decrypt from hr.decrypt_eq]
    exact Request.decrypt_answers
  have hcontext : r.cleared.context.IsSmall := isSmall_context scope hsteps Ref.isSmall_null
  have hforward : ∀ tolerant target, Ensures (fun b : Buffer => 0 < b.blockSize)
      (Cursor.forward tolerant target) (fun _ _ => True) (fun e _ => e.kind = .input) :=
    fun tolerant target => (Buffer.forward_kind tolerant target).weaken (fun _ h => h)
      (fun _ _ _ => trivial) (fun _ _ h => h)
  have hperform := Reader.perform_kind Buffer.wanes hreads hforward hcursor hanswers hcontext _ rfl
  rw [step_of_includes rfl]
  change match (Report.ofResult (Reader.perform operation r.cleared)).outcome with
    | .ok _ => True
    | .error e => e.kind = .input
  generalize Reader.perform operation r.cleared = result at hperform ⊢
  cases result with
  | ok outcome r' => trivial
  | error e r' => exact hperform

/-- A key of no use, an object at hand, an end pushed back, and a source that refuses every third read. -/
theorem kind_of_readsOn_of_refusals :
    let source : Source := ⟨Latin1.ascii "(ab) <6162> 7 0 obj [ . ] endobj", 3, false, 0,
      fun read _ => read % 2, fun read _ => if read % 3 = 2 then some "disk on fire" else none⟩
    let settings : Settings := ⟨true, true, true, some [], .aes⟩
    let steps : List (Operation × Nat) :=
      [(.set (.context ⟨5, 1⟩), 1), (.push .endOfInput, 1), (.object, 3), (.seek (-1), 1)]
    let fresh : Reader Buffer := .new (.atOffset source (-2) 3) settings Request.decrypt true
    let r := readerAfter (run .objects steps fresh) fresh
    0 < 3 ∧ (∀ step ∈ steps, step.1.SetsSmall) ∧ Operation.objects.ReadsOn ∧
    match (step .objects .objects r).outcome with
    | .ok _ => True
    | .error e => e.kind = .input := by
  intro source settings steps
  have hsteps : ∀ step ∈ steps, step.1.SetsSmall := by
    intro step hstep
    simp only [steps, List.mem_cons, List.not_mem_nil, or_false] at hstep
    rcases hstep with rfl | rfl | rfl | rfl
    · exact ⟨by decide, by decide, by decide, by decide⟩
    all_goals trivial
  exact ⟨by decide, hsteps, trivial,
    kind_of_readsOn source (-2) 3 settings true .objects steps .objects (by decide) hsteps trivial⟩

/-- More tokens than can be counted are no fault of the input, even of an empty one. -/
theorem kind_of_too_many_tokens :
    let fresh : Reader Buffer := .new (.atOffset (.ofData []) 0 4096) .lenient Request.decrypt false
    let count : Int := 0x8000000000000000
    0 ≤ count ∧ ∃ e, (step .objects (.tokens count) fresh).outcome = .error e ∧ e.kind ≠ .input :=
  ⟨by decide, .tokenCount 0x8000000000000000, rfl, by decide⟩

end Session
end PdfSyntax
