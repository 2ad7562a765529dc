import PdfSyntax.Proofs.Reader.Lookahead

/-!
# What is pushed back

The lexer makes tokens, and looking ahead pushes back nothing but tokens. So a reader to which nobody
has pushed back anything else takes nothing but tokens, whatever its cursor does.
-/

set_option autoImplicit false

namespace PdfSyntax.Reader

variable {σ α : Type}

/-- Whether only tokens are pushed back. -/
def HoldsTokens (r : Reader σ) : Prop :=
  ∀ token ∈ r.pending, IsToken token

abbrev KeepsTokens (m : Reading σ α) : Prop :=
  Ensures HoldsTokens m (fun _ => HoldsTokens) (fun _ => HoldsTokens)

theorem onCursor_keepsTokens (m : EStateM Failure σ α) : KeepsTokens (onCursor m) := by
  intro r hr
  simp only [onCursor]
  cases m r.cursor <;> exact hr

theorem push_keepsTokens {token : Obj} (h : IsToken token) : KeepsTokens (σ := σ) (push token) := by
  intro r hr t ht
  rcases List.mem_cons.mp ht with rfl | ht
  · exact h
  · exact hr t ht

variable [Cursor σ]

theorem isToken_of_lex {tolerant : Bool} {state : Lexer.State} {c c' : σ} {token : Obj}
    (h : lex tolerant state c = .ok (.token token) c') : IsToken token :=
  (isReached_of_lex h).isMade.imp_left Lexer.IsMade.isLexeme

theorem token_isToken : Ensures (HoldsTokens (σ := σ)) token
    (fun token r => IsToken token ∧ r.HoldsTokens) (fun _ => HoldsTokens) := by
  intro r hr
  cases hp : r.pending with
  | cons first rest =>
    rw [token_of_pending hp]
    exact ⟨hr first (hp ▸ List.mem_cons_self),
      fun t ht => hr t (hp ▸ List.mem_cons_of_mem first ht)⟩
  | nil =>
    rw [token_of_no_pending hp]
    cases hlex : lex r.settings.tolerant .gap r.cursor with
    | error e c => exact hr
    | ok verdict c =>
      cases verdict with
      | token token => exact ⟨isToken_of_lex hlex, hr⟩
      | fault fault => exact hr
      | cutShort string =>
        refine ⟨.inl trivial, ?_⟩
        intro t ht
        rw [pending_recorded] at ht
        exact hr t ht

theorem token_keepsTokens : KeepsTokens (σ := σ) token :=
  token_isToken.weaken (fun _ h => h) (fun _ _ h => h.2) (fun _ _ h => h)

theorem suffix_keepsTokens (id : Int) : KeepsTokens (σ := σ) (suffix id) := by
  apply token_isToken.bind
  intro second
  refine .of_fact fun hsecond => ?_
  cases second.natural? Ref.genLimit with
  | none => exact (push_keepsTokens hsecond).bind fun _ => .pure fun _ h => h
  | some gen =>
    apply token_isToken.bind
    intro third
    refine .of_fact fun hthird => ?_
    apply Ensures.ite
    · exact fun _ => .pure fun _ h => h
    · intro _
      apply Ensures.ite
      · exact fun _ => .pure fun _ h => h
      · exact fun _ => (push_keepsTokens hthird).bind fun _ => (push_keepsTokens hsecond).bind fun _ =>
          .pure fun _ h => h

theorem record_keepsTokens (level : Level) (message text : String) :
    KeepsTokens (σ := σ) (record level message (.ok text)) := by
  intro r hr
  rw [record_eq]
  intro t ht
  rw [pending_recorded] at ht
  exact hr t ht

theorem fail_keepsTokens (fault : Fault) : KeepsTokens (σ := σ) (α := α) (fail fault) :=
  fail_ensures fun _ h => h

theorem byte_keepsTokens : KeepsTokens (σ := σ) byte := by
  have hbyte : KeepsTokens (σ := σ) byte? := fun r hr => onCursor_keepsTokens _ r hr
  exact hbyte.bind fun _ => .pure fun _ h => h

theorem streamStart_keepsTokens : KeepsTokens (σ := σ) streamStart := by
  apply byte_keepsTokens.bind
  intro first
  apply Ensures.ite
  · intro _
    apply byte_keepsTokens.bind
    intro second
    apply Ensures.ite
    · intro _
      have hback : KeepsTokens (σ := σ) back := fun _ h => h
      exact hback.bind fun _ => record_keepsTokens _ _ _
    · exact fun _ => .pure fun _ h => h
  · intro _
    apply Ensures.ite
    · exact fun _ => fail_keepsTokens _
    · exact fun _ => .pure fun _ h => h

end PdfSyntax.Reader
