import PdfSyntax.Proofs.Reader.Token
import PdfSyntax.Proofs.Session.Invariant

/-!
# The object at hand

Inside a definition another object is at hand, and afterwards the same one as before, also if the
reading failed. So no operation changes the object at hand but the one that sets it.
-/

set_option autoImplicit false

namespace PdfSyntax

variable {σ α β : Type}

namespace Reader

def KeepsContext (m : Reading σ α) : Prop :=
  ∀ context, Ensures (fun r => r.context = context) m (fun _ r => r.context = context)
    (fun _ r => r.context = context)

namespace KeepsContext

theorem pure (a : α) : KeepsContext (Pure.pure a : Reading σ α) :=
  fun _ => .pure fun _ h => h

theorem throw (e : Failure) : KeepsContext (throw e : Reading σ α) :=
  fun _ => .throw fun _ h => h

theorem bind {m : Reading σ α} {f : α → Reading σ β} (hm : KeepsContext m)
    (hf : ∀ a, KeepsContext (f a)) : KeepsContext (m >>= f) :=
  fun context => (hm context).bind fun a => hf a context

theorem ite {c : Prop} [Decidable c] {m n : Reading σ α} (hm : KeepsContext m) (hn : KeepsContext n) :
    KeepsContext (if c then m else n) := by
  by_cases hc : c
  · rw [if_pos hc]; exact hm
  · rw [if_neg hc]; exact hn

theorem onCursor (m : EStateM Failure σ α) : KeepsContext (onCursor m) := by
  intro context r hr
  simp only [Reader.onCursor]
  cases m r.cursor <;> exact hr

theorem clear : KeepsContext (modify fun r => { r with pending := [] } : Reading σ Unit) :=
  fun _ _ hr => hr

theorem within (ref : Ref) (m : Reading σ α) : KeepsContext (within ref m) := by
  intro context r hr
  simp only [Reader.within]
  cases m { r with context := ref } <;> exact hr

theorem pop : KeepsContext (pop (σ := σ)) := by
  intro context r hr
  obtain ⟨cursor, pending, settings, context, decrypt, told, records, requests⟩ := r
  cases pending <;> exact hr

variable [Cursor σ]

theorem tell (message : String) (text : Except Failure String) :
    KeepsContext (tell (σ := σ) message text) :=
  fun _ => tell_ensures (fun _ _ h => h) message text

theorem record (level : Level) (message : String) (text : Except Failure String) :
    KeepsContext (record (σ := σ) level message text) :=
  fun _ => record_ensures (fun _ _ h => h) (fun _ h => h) level message text

theorem fail (fault : Fault) : KeepsContext (fail (σ := σ) (α := α) fault) :=
  fun _ => fail_ensures fun _ h => h

theorem token : KeepsContext (token (σ := σ)) := by
  apply pop.bind
  intro popped
  cases popped with
  | some token => exact pure token
  | none =>
    apply bind (m := getSettings) fun _ _ h => h
    intro settings
    apply (onCursor (lex settings.tolerant .gap)).bind
    intro verdict
    cases verdict with
    | token token => exact pure token
    | fault fault => exact fail fault
    | cutShort string => exact (record _ _ _).bind fun _ => pure _

theorem byte : KeepsContext (byte (σ := σ)) :=
  bind (bind (m := getSettings) (fun _ _ h => h) fun _ => onCursor _) fun _ => pure _

theorem streamStart : KeepsContext (streamStart (σ := σ)) := by
  apply byte.bind
  intro first
  apply ite
  · apply byte.bind
    intro second
    apply ite
    · exact bind (m := back) (fun _ _ h => h) fun _ => record _ _ _
    · exact pure ()
  · exact ite (fail _) (pure ())

theorem congruence : Congruence (σ := σ) (τ := σ) fun _ m _ => KeepsContext m where
  pure := pure
  bind := bind
  settings h := bind (m := getSettings) (fun _ _ h => h) fun a => h a a rfl rfl
  context := fun _ _ h => h
  place := fun _ _ h => h
  push _ := fun _ _ h => h
  token := token
  fail := fail
  record _ := record _ _ _
  streamStart := streamStart
  exhausted := throw _
  decipher data := fun _ => decipher_ensures (fun _ h => h) data
  within ref _ := within ref _

theorem object : KeepsContext (object (σ := σ)) :=
  fun context r => congruence.objectWithin (2 * r.weight + 2) context r

theorem objectsWithin (bound : Nat) : KeepsContext (objectsWithin (σ := σ) bound) := by
  induction bound with
  | zero => exact throw _
  | succ bound ih =>
    apply object.bind
    intro object
    cases object.isEnd with
    | true => exact pure []
    | false => exact ih.bind fun _ => pure _

theorem seek (target : Int) : KeepsContext (seek (σ := σ) target) :=
  clear.bind fun _ => onCursor _

end KeepsContext

/-- What an operation makes the object at hand. -/
def contextAfter (context : Ref) : Operation → Ref
  | .set (.context ref) => ref
  | _ => context

theorem perform_context [Cursor σ] (operation : Operation) (context : Ref) :
    Ensures (fun r : Reader σ => r.context = context) (perform operation)
      (fun _ r => r.context = contextAfter context operation)
      (fun _ r => r.context = contextAfter context operation) := by
  have out : ∀ {α : Type} {m : Reading σ α} {f : α → Outcome}, KeepsContext m →
      KeepsContext (m >>= fun a => Pure.pure (f a)) :=
    fun hm => hm.bind fun _ => .pure _
  cases operation with
  | byte => exact out .byte context
  | bytes count => exact out (fun context => bytes_keeps (KeepsContext.byte context) count) context
  | back => exact fun _ h => h
  | offset => exact fun _ h => h
  | seek target => exact out (.seek target) context
  | forward target =>
    refine out (KeepsContext.bind (m := getSettings) (fun _ _ h => h) fun _ => .onCursor _) context
  | push token => exact fun _ h => h
  | pop => exact out .pop context
  | token => exact out .token context
  | tokens count =>
    exact KeepsContext.ite (out (KeepsContext.congruence.tokens _)) (.throw _) context
  | tokenOr fallback => exact out (KeepsContext.congruence.tokenOr fallback) context
  | object => exact out .object context
  | objectAt target => exact out ((KeepsContext.seek target).bind fun _ => .object) context
  | objects => exact out (fun context r => KeepsContext.objectsWithin _ context r) context
  | set setting =>
    intro r hr
    cases setting with
    | context ref => exact rfl
    | _ => exact hr
  | tell template arguments => exact out (.tell _ _) context
  | record level template arguments => exact out (.record _ _ _) context
  | fail template arguments => exact failWith_ensures template arguments (fun _ _ h => h) fun _ _ h => h

end Reader

/-- Whether an operation sets an object at hand with a number as in a file, if it sets any. -/
def Operation.SetsSmall : Operation → Prop
  | .set (.context ref) => ref.IsSmall
  | _ => True

theorem Reader.isSmall_contextAfter {context : Ref} {operation : Operation} (h : operation.SetsSmall)
    (hcontext : context.IsSmall) : (contextAfter context operation).IsSmall := by
  cases operation with
  | set setting => cases setting <;> first | exact h | exact hcontext
  | _ => exact hcontext

/-- The object at hand has a number as in a file after any operations that set no other. -/
theorem Session.isSmall_context [Cursor σ] (scope : Scope) {steps : List (Operation × Nat)}
    (hsteps : ∀ step ∈ steps, step.1.SetsSmall) {r : Reader σ} (hr : r.context.IsSmall) :
    (readerAfter (run scope steps r) r).context.IsSmall := by
  refine (run_keeps (P := fun r => r.context.IsSmall) (Q := fun _ => True) scope ?_ hr).2
  intro step hstep r hr
  have hperform : Ensures (fun s : Reader σ => s.context.IsSmall) (Reader.perform step.1)
      (fun _ s => True ∧ s.context.IsSmall) (fun _ s => s.context.IsSmall) := by
    intro s hs
    have hsmall := Reader.isSmall_contextAfter (hsteps step hstep) hs
    have hcontext : Ensures (fun t : Reader σ => t.context = s.context) (Reader.perform step.1)
        (fun _ t => True ∧ t.context.IsSmall) (fun _ t => t.context.IsSmall) :=
      (Reader.perform_context step.1 s.context).weaken (fun _ h => h)
        (fun _ _ h => ⟨trivial, h ▸ hsmall⟩) (fun _ _ h => h ▸ hsmall)
    exact hcontext s rfl
  exact ⟨trivial, (step_ensures hperform scope hr).2⟩

end PdfSyntax
