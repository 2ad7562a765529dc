import PdfSyntax.Proofs.Session.Ahead

/-!
# The tokens of bytes

Bytes are a sequence of tokens, as far as none of them is malformed. A string that the end of the bytes cuts
short is a token too.
-/

set_option autoImplicit false

namespace PdfSyntax

namespace Lexer

section Faults
variable {fault : Fault}

theorem isLexical_of_scan {tolerant : Bool} {state : State} {bytes rest : Bytes}
    (h : scan tolerant state bytes = some (.fault fault, rest)) : fault.isLexical = true := by
  rcases eq_of_scan h with ⟨state', b, hstep⟩ | ⟨-, state', hfinish⟩
  · exact isLexical_of_step hstep
  · exact isLexical_of_finish hfinish

end Faults

/-- The tokens of bytes, up to the first malformed one. -/
def lexemes : Bytes → List Obj
  | [] => []
  | b :: bytes =>
    match _h : scan true .gap (b :: bytes) with
    | none => []
    | some (verdict, rest) =>
      match verdict.taken? with
      | none => []
      | some token => if token.isEnd then [] else token :: lexemes rest
termination_by bytes => bytes.length
decreasing_by exact length_rest_lt ‹_›

theorem isLexeme_of_taken? {verdict : Verdict} {token : Obj} {tolerant : Bool} {state : State}
    {bytes rest : Bytes} (hscan : scan tolerant state bytes = some (verdict, rest))
    (h : verdict.taken? = some token) : IsLexeme token ∨ (token = .endOfInput ∧ rest = []) := by
  cases verdict with
  | token lexeme =>
    cases h
    exact isLexeme_of_scan hscan
  | cutShort string =>
    cases h
    exact .inl trivial
  | fault _ => cases h

section Lexemes
variable {bytes rest : Bytes} {verdict : Verdict} {token : Obj}

theorem lexemes_nil : lexemes [] = [] := by
  rw [lexemes]

/-- The tokens of bytes are the next one and those of the bytes that the lexer leaves. -/
theorem lexemes_of_scan (hscan : scan true .gap bytes = some (verdict, rest)) : lexemes bytes =
    match verdict.taken? with
    | none => []
    | some token => if token.isEnd then [] else token :: lexemes rest := by
  cases bytes with
  | nil =>
    obtain ⟨rfl, -⟩ := Prod.mk.inj (Option.some.inj hscan)
    exact lexemes_nil
  | cons b bytes =>
    rw [lexemes]
    split
    · next hnone =>
      rw [hscan] at hnone
      cases hnone
    · next hsome =>
      obtain ⟨rfl, rfl⟩ := Prod.mk.inj (Option.some.inj (hscan.symm.trans hsome))
      rfl

theorem lexemes_of_token (hscan : scan true .gap bytes = some (verdict, rest))
    (htaken : verdict.taken? = some token) (h : IsLexeme token) :
    lexemes bytes = token :: lexemes rest := by
  rw [lexemes_of_scan hscan, htaken]
  simp only [h.isEnd_eq_false, Bool.false_eq_true, if_false]

theorem lexemes_of_end (hscan : scan true .gap bytes = some (verdict, rest))
    (htaken : verdict.taken? = some .endOfInput) : lexemes bytes = [] := by
  rw [lexemes_of_scan hscan, htaken]
  rfl

/-- Bytes have no token, or a first one and fewer bytes behind it. -/
theorem lexemes_cases (bytes : Bytes) : lexemes bytes = [] ∨ ∃ token rest,
    IsLexeme token ∧ rest.length < bytes.length ∧ lexemes bytes = token :: lexemes rest := by
  cases bytes with
  | nil => exact .inl lexemes_nil
  | cons b bytes =>
    cases hscan : scan true .gap (b :: bytes) with
    | none =>
      left
      rw [lexemes]
      split
      · rfl
      · next hsome => cases hscan.symm.trans hsome
    | some result =>
      obtain ⟨verdict, rest⟩ := result
      cases htaken : verdict.taken? with
      | none =>
        left
        rw [lexemes_of_scan hscan, htaken]
      | some token =>
        rcases isLexeme_of_taken? hscan htaken with hlexeme | ⟨rfl, -⟩
        · exact .inr ⟨token, rest, hlexeme, length_rest_lt hscan, lexemes_of_token hscan htaken hlexeme⟩
        · exact .inl (lexemes_of_end hscan htaken)

theorem isLexeme_of_mem_lexemes (h : token ∈ lexemes bytes) : IsLexeme token := by
  induction hn : bytes.length using Nat.strongRecOn generalizing bytes with
  | _ n ih =>
    rcases lexemes_cases bytes with heq | ⟨first, rest, hfirst, hlt, heq⟩
    · rw [heq] at h
      cases h
    · rw [heq] at h
      rcases List.mem_cons.mp h with rfl | h
      · exact hfirst
      · exact ih rest.length (hn ▸ hlt) h rfl

theorem length_lexemes_le (bytes : Bytes) : (lexemes bytes).length ≤ bytes.length := by
  induction hn : bytes.length using Nat.strongRecOn generalizing bytes with
  | _ n ih =>
    rcases lexemes_cases bytes with heq | ⟨first, rest, -, hlt, heq⟩
    · rw [heq]
      exact Nat.zero_le _
    · have hrest := ih rest.length (hn ▸ hlt) rest rfl
      rw [heq, List.length_cons]
      omega

end Lexemes
end Lexer
end PdfSyntax
