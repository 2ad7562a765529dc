import PdfSyntax.Proofs.Activity
import PdfSyntax.Proofs.Lexer.Scan

/-!
# Cursors that cannot be told apart

A simulation relates cursors of two kinds that yield the same bytes at the same offsets. A byte just
yielded can be given back, and the cursors are related again; nothing is asked of giving back at any
other time. The lexer gives a byte back only right after it was yielded, so it comes to the same over
related cursors.
-/

set_option autoImplicit false

namespace PdfSyntax

variable {σ τ α : Type}

/-- Related cursors behave alike, and can be sent to the same offsets. -/
structure Simulation [Cursor σ] [Cursor τ] (R : σ → τ → Prop) (within : Int → Prop) : Prop where
  next : ∀ tolerant, Agree R (Cursor.next tolerant) (Cursor.next tolerant)
    (fun byte c d => R c d ∧ (byte.isSome → R (Cursor.back c) (Cursor.back d))) (fun _ => R)
  offset : ∀ {c d}, R c d → Cursor.offset c = Cursor.offset d
  isEnded : ∀ {c d}, R c d → Cursor.isEnded c = Cursor.isEnded d
  left : ∀ {c d}, R c d → Cursor.left c = Cursor.left d
  seek : ∀ {target}, within target → Keep Failure R (Cursor.seek target) (Cursor.seek target)

theorem Keep.same {ε : Type} (m : EStateM ε σ α) : Keep ε Eq m m := by
  intro s t h
  rcases h with rfl
  cases m s with
  | ok a s' => exact .ok rfl
  | error e s' => exact .error rfl

/-- A cursor cannot be told apart from itself. -/
theorem Simulation.same [Cursor σ] (within : Int → Prop) : Simulation (σ := σ) Eq within where
  next _ := (Keep.same _).weaken (fun _ _ h => h) (fun _ _ _ h => ⟨h, fun _ => h ▸ rfl⟩)
    (fun _ _ _ h => h)
  offset h := h ▸ rfl
  isEnded h := h ▸ rfl
  left h := h ▸ rfl
  seek _ := Keep.same _

/-- What cannot be told apart from a third one cannot be told apart. -/
theorem Simulation.meet {υ : Type} [Cursor σ] [Cursor τ] [Cursor υ] {R : σ → υ → Prop}
    {S : τ → υ → Prop} {within : Int → Prop} (simR : Simulation R within)
    (simS : Simulation S within) : Simulation (fun c d => ∃ u, R c u ∧ S d u) within where
  next tolerant := by
    refine ((simR.next tolerant).meet (simS.next tolerant)).weaken (fun _ _ h => h) ?_ (fun _ _ _ h => h)
    rintro byte c d ⟨u, ⟨hc, hcback⟩, hd, hdback⟩
    exact ⟨⟨u, hc, hd⟩, fun hbyte => ⟨_, hcback hbyte, hdback hbyte⟩⟩
  offset := by
    rintro c d ⟨u, hc, hd⟩
    exact (simR.offset hc).trans (simS.offset hd).symm
  isEnded := by
    rintro c d ⟨u, hc, hd⟩
    exact (simR.isEnded hc).trans (simS.isEnded hd).symm
  left := by
    rintro c d ⟨u, hc, hd⟩
    exact (simR.left hc).trans (simS.left hd).symm
  seek ht := (simR.seek ht).meet (simS.seek ht)

namespace Reader

section Lex
variable [Cursor σ] {tolerant : Bool} {state state' : Lexer.State} {verdict : Lexer.Verdict}
variable {c c' : σ} {b : UInt8}

theorem lex_of_error {e : Failure} (h : Cursor.next tolerant c = .error e c') :
    lex tolerant state c = .error e c' := by
  rw [lex]
  split <;> simp_all

theorem lex_of_again (h : Cursor.next tolerant c = .ok none c') (hs : state.fill = .more state') :
    lex tolerant state c = lex tolerant state' c' := by
  rw [lex]
  split
  · simp_all
  · split <;> simp_all
  · simp_all

theorem lex_of_end (h : Cursor.next tolerant c = .ok none c')
    (hs : state.fill.verdict? = some verdict) : lex tolerant state c = .ok verdict c' := by
  rw [lex]
  split
  · simp_all
  · split <;> simp_all [Lexer.Action.verdict?]
  · simp_all

theorem lex_of_more (h : Cursor.next tolerant c = .ok (some b) c')
    (hs : state.take (Cursor.isEnded c') b = .more state') :
    lex tolerant state c = lex tolerant state' c' := by
  rw [lex]
  split <;> simp_all

theorem lex_of_done (h : Cursor.next tolerant c = .ok (some b) c')
    (hs : state.take (Cursor.isEnded c') b = .done verdict) : lex tolerant state c = .ok verdict c' := by
  rw [lex]
  split <;> simp_all

theorem lex_of_doneBefore (h : Cursor.next tolerant c = .ok (some b) c')
    (hs : state.take (Cursor.isEnded c') b = .doneBefore verdict) :
    lex tolerant state c = .ok verdict (Cursor.back c') := by
  rw [lex]
  split <;> simp_all

/-- The steps of the lexer, each with what the lexer comes to by it. -/
theorem lex_induction (tolerant : Bool) {motive : Lexer.State → σ → Prop}
    (error : ∀ {state c e c'}, Cursor.next tolerant c = .error e c' →
      lex tolerant state c = .error e c' → motive state c)
    (again : ∀ {state c c' state'}, Cursor.next tolerant c = .ok none c' →
      state.fill = .more state' → lex tolerant state c = lex tolerant state' c' →
      motive state' c' → motive state c)
    (finished : ∀ {state c c' verdict}, Cursor.next tolerant c = .ok none c' →
      state.fill.verdict? = some verdict → lex tolerant state c = .ok verdict c' → motive state c)
    (more : ∀ {state c b c' state'}, Cursor.next tolerant c = .ok (some b) c' →
      state.take (Cursor.isEnded c') b = .more state' →
      lex tolerant state c = lex tolerant state' c' → motive state' c' → motive state c)
    (done : ∀ {state c b c' verdict}, Cursor.next tolerant c = .ok (some b) c' →
      state.take (Cursor.isEnded c') b = .done verdict →
      lex tolerant state c = .ok verdict c' → motive state c)
    (doneBefore : ∀ {state c b c' verdict}, Cursor.next tolerant c = .ok (some b) c' →
      state.take (Cursor.isEnded c') b = .doneBefore verdict →
      lex tolerant state c = .ok verdict (Cursor.back c') → motive state c)
    (state : Lexer.State) (c : σ) : motive state c := by
  induction state, c using lex.induct (σ := σ) tolerant with
  | case1 _ _ _ _ h => exact error h (lex_of_error h)
  | case2 _ _ _ h _ hs ih => exact again h hs (lex_of_again h hs) ih
  | case3 _ _ _ h _ hs => exact finished h (by rw [hs]; rfl) (lex_of_end h (by rw [hs]; rfl))
  | case4 _ _ _ h _ hs => exact finished h (by rw [hs]; rfl) (lex_of_end h (by rw [hs]; rfl))
  | case5 _ _ _ _ h _ hs ih => exact more h hs (lex_of_more h hs) ih
  | case6 _ _ _ _ h _ hs => exact done h hs (lex_of_done h hs)
  | case7 _ _ _ _ h _ hs => exact doneBefore h hs (lex_of_doneBefore h hs)

/-- What each request for a byte keeps the lexer keeps. What it comes to is a matter of its last step. -/
theorem lex_keeps {I : σ → Prop} {Q : Lexer.Verdict → σ → Prop} {E : Failure → σ → Prop}
    (next : Ensures I (Cursor.next tolerant) (fun _ => I) E)
    (finished : ∀ {state : Lexer.State} {c c' verdict}, I c → Cursor.next tolerant c = .ok none c' →
      state.fill.verdict? = some verdict → Q verdict c')
    (done : ∀ {state : Lexer.State} {c b c' verdict}, I c → Cursor.next tolerant c = .ok (some b) c' →
      state.take (Cursor.isEnded c') b = .done verdict → Q verdict c')
    (doneBefore : ∀ {state : Lexer.State} {c b c' verdict}, I c → Cursor.next tolerant c = .ok (some b) c' →
      state.take (Cursor.isEnded c') b = .doneBefore verdict → Q verdict (Cursor.back c'))
    (state : Lexer.State) : Ensures I (lex tolerant state) Q E := by
  intro c hc
  induction state, c using lex_induction (σ := σ) tolerant with
  | error hr hlex =>
    have hfailed := next _ hc
    rw [hr] at hfailed
    rw [hlex]
    exact hfailed
  | again hr _ hlex ih =>
    have hkept := next _ hc
    rw [hr] at hkept
    rw [hlex]
    exact ih hkept
  | finished hr hfill hlex =>
    rw [hlex]
    exact finished hc hr hfill
  | more hr _ hlex ih =>
    have hkept := next _ hc
    rw [hr] at hkept
    rw [hlex]
    exact ih hkept
  | done hr hs hlex =>
    rw [hlex]
    exact done hc hr hs
  | doneBefore hr hs hlex =>
    rw [hlex]
    exact doneBefore hc hr hs

theorem isReached_of_lex (h : lex tolerant state c = .ok verdict c') : verdict.IsReached := by
  induction state, c using lex_induction (σ := σ) tolerant with
  | error _ hlex => cases hlex.symm.trans h
  | again _ _ hlex ih => exact ih (hlex.symm.trans h)
  | finished _ hfill hlex =>
    cases hlex.symm.trans h
    exact Lexer.isReached_of_fill hfill
  | more _ _ hlex ih => exact ih (hlex.symm.trans h)
  | done _ hs hlex =>
    cases hlex.symm.trans h
    exact Lexer.isReached_of_take (by rw [hs]; rfl)
  | doneBefore _ hs hlex =>
    cases hlex.symm.trans h
    exact Lexer.isReached_of_take (by rw [hs]; rfl)

end Lex

/-- The lexer gives a byte back only right after it was yielded. -/
theorem lex_keep [Cursor σ] [Cursor τ] {R : σ → τ → Prop} {within : Int → Prop}
    (sim : Simulation R within) (tolerant : Bool) (state : Lexer.State) :
    Keep Failure R (lex (σ := σ) tolerant state) (lex tolerant state) := by
  intro c d hR
  induction state, c using lex_induction (σ := σ) tolerant generalizing d with
  | error hc hlex =>
    have hagree := sim.next tolerant _ d hR
    rw [hc] at hagree
    obtain ⟨d', hd, hR'⟩ := hagree.exists_error
    rw [hlex, lex_of_error hd]
    exact .error hR'
  | again hc hfill hlex ih =>
    have hagree := sim.next tolerant _ d hR
    rw [hc] at hagree
    obtain ⟨d', hd, hR', -⟩ := hagree.exists_ok
    rw [hlex, lex_of_again hd hfill]
    exact ih d' hR'
  | finished hc hfill hlex =>
    have hagree := sim.next tolerant _ d hR
    rw [hc] at hagree
    obtain ⟨d', hd, hR', -⟩ := hagree.exists_ok
    rw [hlex, lex_of_end hd hfill]
    exact .ok hR'
  | more hc hs hlex ih =>
    have hagree := sim.next tolerant _ d hR
    rw [hc] at hagree
    obtain ⟨d', hd, hR', -⟩ := hagree.exists_ok
    rw [sim.isEnded hR'] at hs
    rw [hlex, lex_of_more hd hs]
    exact ih d' hR'
  | done hc hs hlex =>
    have hagree := sim.next tolerant _ d hR
    rw [hc] at hagree
    obtain ⟨d', hd, hR', -⟩ := hagree.exists_ok
    rw [sim.isEnded hR'] at hs
    rw [hlex, lex_of_done hd hs]
    exact .ok hR'
  | doneBefore hc hs hlex =>
    have hagree := sim.next tolerant _ d hR
    rw [hc] at hagree
    obtain ⟨d', hd, hR', hback⟩ := hagree.exists_ok
    rw [sim.isEnded hR'] at hs
    rw [hlex, lex_of_doneBefore hd hs]
    exact .ok (hback rfl)

end Reader
end PdfSyntax
