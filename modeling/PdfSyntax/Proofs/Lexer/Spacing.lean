import PdfSyntax.Proofs.Lexer.Spans

/-!
# Words with gaps between them

A word is the spelling of one token. Where words stand one after another, with gaps between them that are
not empty, the lexer takes the words one by one: neither what a gap consists of nor which words stand
side by side makes a difference. Only the last word may be one that waits for an end that is not
tolerated.
-/

set_option autoImplicit false

namespace PdfSyntax.Lexer

/-- The bytes of one token, with nothing in front of it and nothing after it. -/
structure IsWord (word : Bytes) (token : Obj) : Prop where
  begins : BeginsToken word
  scan_eq : scan true .gap word = some (.token token, [])

/-- Words one after another, with gaps between them. -/
inductive Spaced : List Bytes → Bytes → Prop where
  | nil : Spaced [] []
  | single (word : Bytes) : Spaced [word] word
  | cons {word next gap text : Bytes} {words : List Bytes} : Gap gap → gap ≠ [] →
    Spaced (next :: words) text → Spaced (word :: next :: words) (word ++ gap ++ text)

/-- Words as they stand ahead of a cursor, which may be in front of a gap. -/
def Approaches (words : List Bytes) (bytes : Bytes) : Prop :=
  ∃ gap text, bytes = gap ++ text ∧ Gap gap ∧ Spaced words text

theorem Spaced.approaches {words : List Bytes} {text : Bytes} (h : Spaced words text) :
    Approaches words text :=
  ⟨[], text, rfl, .nil, h⟩

/-- Whether the end of the bytes comes where it is not tolerated, before a token is taken. -/
def RunsOut (tolerant : Bool) : List Bytes → Prop
  | [] => tolerant = false
  | [word] => scan tolerant .gap word = none
  | _ => False

section Terminated
variable {gap text : Bytes}

/-- A white byte and a percent sign end a word or a name alike. -/
theorem Gap.terminated (h : Gap gap) (hne : gap ≠ []) : Terminated (gap ++ text) := by
  cases h with
  | nil => exact absurd rfl hne
  | white hwhite _ => exact .of_white hwhite
  | comment _ _ _ =>
    intro b hb
    obtain rfl := Option.some.inj hb
    rfl

end Terminated

section Scan
variable {tolerant : Bool} {state : State} {verdict : Verdict} {token : Obj} {b : UInt8}
variable {word bytes rest : Bytes} {words : List Bytes} {tokens : List Obj}

/-- Only names and words end where the bytes do, and they end before any byte that is not regular. -/
theorem step_of_finish (h : state.HasBegun) (hfinish : state.finish = .token token)
    (hb : Byte.isRegular b = false) : state.step b = .doneBefore (.token token) := by
  cases state <;> simp only [State.finish, reduceCtorEq] at hfinish
  case gap => exact h.elim
  case comment => exact h.elim
  case name read => rw [name_step_end hb, hfinish]
  case word read => simp only [State.step, hb, Bool.false_eq_true, if_false, hfinish]

/-- By induction on the word: what ends it is its last byte, or the first byte after it. -/
theorem scan_append_of_begun (h : state.HasBegun)
    (hscan : scan true state word = some (.token token, [])) (hrest : Terminated (b :: rest)) :
    scan tolerant state (word ++ b :: rest) = some (.token token, b :: rest) := by
  induction word generalizing state with
  | nil =>
    have hfinish : state.finish = .token token := congrArg Prod.fst (Option.some.inj hscan)
    exact scan_doneBefore (step_of_finish h hfinish (hrest b rfl))
  | cons c word ih =>
    rw [List.cons_append]
    cases hstep : state.step c with
    | more state' =>
      rw [scan_more hstep] at hscan ⊢
      exact ih (h.step hstep) hscan
    | done verdict =>
      rw [scan_done hstep] at hscan ⊢
      cases hscan
      rfl
    | doneBefore verdict =>
      rw [scan_doneBefore hstep] at hscan
      cases hscan

theorem IsWord.scan_append (h : IsWord word token) (hrest : Terminated rest) (hne : rest ≠ []) :
    scan tolerant .gap (word ++ rest) = some (.token token, rest) := by
  obtain ⟨b, rest, rfl⟩ := List.exists_cons_of_ne_nil hne
  obtain ⟨⟨c, word, rfl, hwhite, hpercent⟩, hscan⟩ := h
  rw [List.cons_append]
  cases hstep : State.gap.step c with
  | more state =>
    rw [scan_more hstep] at hscan ⊢
    have hbegun : state.HasBegun := hasBegun_of_start ((gap_step_start hwhite hpercent).symm.trans hstep)
    exact scan_append_of_begun hbegun hscan hrest
  | done verdict =>
    rw [scan_done hstep] at hscan ⊢
    cases hscan
    rfl
  | doneBefore verdict => exact absurd hstep (gap_step_ne_doneBefore c)

/-- An end that is not tolerated comes to nothing, or it is not come to. -/
theorem scan_none_or_eq (tolerant : Bool) (state : State) (bytes : Bytes) :
    scan tolerant state bytes = none ∨ scan tolerant state bytes = scan true state bytes := by
  cases tolerant with
  | true => exact .inr rfl
  | false =>
    induction bytes generalizing state with
    | nil => exact .inl rfl
    | cons b bytes ih =>
      cases hstep : state.step b with
      | more state' =>
        rw [scan_more hstep, scan_more hstep]
        exact ih state'
      | done verdict =>
        rw [scan_done hstep, scan_done hstep]
        exact .inr rfl
      | doneBefore verdict =>
        rw [scan_doneBefore hstep, scan_doneBefore hstep]
        exact .inr rfl

theorem not_runsOut (hwords : List.Forall₂ IsWord words tokens) : ¬ RunsOut true words := by
  intro h
  cases hwords with
  | nil => cases h
  | cons hword hwords =>
    cases hwords with
    | nil =>
      have hnone : scan true .gap _ = none := h
      rw [hword.scan_eq] at hnone
      cases hnone
    | cons _ _ => exact h

/-- In front of words the lexer takes the first one, or the end if there is none. -/
theorem Approaches.scan_eq (h : Approaches words bytes) (hwords : List.Forall₂ IsWord words tokens)
    (hrunsOut : ¬ RunsOut tolerant words) : ∃ rest, Approaches words.tail rest ∧
      scan tolerant .gap bytes = some (.token (tokens.headD .endOfInput), rest) := by
  obtain ⟨gap, text, rfl, hgap, hspaced⟩ := h
  rw [hgap.scan_eq]
  cases hspaced with
  | nil =>
    cases hwords
    refine ⟨[], Spaced.nil.approaches, ?_⟩
    cases tolerant with
    | true => rfl
    | false => exact absurd rfl hrunsOut
  | single word =>
    cases hwords with
    | cons hword hwords =>
      cases hwords
      refine ⟨[], Spaced.nil.approaches, ?_⟩
      rcases scan_none_or_eq tolerant .gap text with hnone | heq
      · exact absurd hnone hrunsOut
      · rw [heq, hword.scan_eq]
        rfl
  | @cons word next sep text words hsep hne hspaced =>
    cases hwords with
    | cons hword _ =>
      refine ⟨sep ++ text, ⟨sep, text, rfl, hsep, hspaced⟩, ?_⟩
      rw [List.append_assoc, hword.scan_append (hsep.terminated hne) (by simp [hne])]
      rfl

theorem Approaches.scan_eq_none (h : Approaches words bytes) (hrunsOut : RunsOut tolerant words) :
    scan tolerant .gap bytes = none := by
  obtain ⟨gap, text, rfl, hgap, hspaced⟩ := h
  rw [hgap.scan_eq]
  cases hspaced with
  | nil =>
    have htolerant : tolerant = false := hrunsOut
    rw [htolerant]
    rfl
  | single word => exact hrunsOut
  | cons _ _ _ => exact hrunsOut.elim

end Scan
end PdfSyntax.Lexer
