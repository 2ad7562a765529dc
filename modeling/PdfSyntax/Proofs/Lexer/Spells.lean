import PdfSyntax.Proofs.Lexer.Scan

/-!
# Bytes that spell tokens

Bytes spell tokens if the lexer, at work again and again until the bytes end, makes these tokens of them
and finds no mistake. A literal string that the end cuts short is a token too, but a remarkable one.
-/

set_option autoImplicit false

namespace PdfSyntax.Lexer

/-- The tokens of bytes that hold no mistake. Whether a literal string may be cut short is left open. -/
inductive Spells (mayCut : Prop) : Bytes → List Obj → Prop where
  | nil {bytes : Bytes} :
    scan true .gap bytes = some (.token .endOfInput, []) → Spells mayCut bytes []
  | token {bytes rest : Bytes} {token : Obj} {tokens : List Obj} :
    scan true .gap bytes = some (.token token, rest) → token.isEnd = false →
    Spells mayCut rest tokens → Spells mayCut bytes (token :: tokens)
  | cutShort {bytes rest string : Bytes} {tokens : List Obj} :
    mayCut → scan true .gap bytes = some (.cutShort string, rest) →
    Spells mayCut rest tokens → Spells mayCut bytes (.str string :: tokens)

namespace Spells
variable {mayCut : Prop} {bytes : Bytes} {tokens : List Obj}

theorem empty : Spells mayCut [] [] := .nil rfl

theorem isLexeme (h : Spells mayCut bytes tokens) {token : Obj} (ht : token ∈ tokens) :
    IsLexeme token := by
  induction h with
  | nil => cases ht
  | token hscan hend _ ih =>
    rcases List.mem_cons.mp ht with rfl | ht
    · rcases isLexeme_of_scan hscan with htoken | ⟨rfl, -⟩
      · exact htoken
      · cases hend
    · exact ih ht
  | cutShort _ _ _ ih =>
    rcases List.mem_cons.mp ht with rfl | ht
    · trivial
    · exact ih ht

theorem length_le (h : Spells mayCut bytes tokens) : tokens.length ≤ bytes.length := by
  induction h with
  | nil => exact Nat.zero_le _
  | @token bytes rest token tokens hscan hend _ ih =>
    cases bytes with
    | nil =>
      simp only [scan_nil, State.finish, Option.some.injEq, Prod.mk.injEq, Verdict.token.injEq] at hscan
      rw [← hscan.1] at hend
      cases hend
    | cons b bytes =>
      have := length_rest_lt hscan
      rw [List.length_cons]
      omega
  | @cutShort bytes rest string tokens _ hscan _ ih =>
    cases bytes with
    | nil => simp [scan_nil, State.finish] at hscan
    | cons b bytes =>
      have := length_rest_lt hscan
      rw [List.length_cons]
      omega

end Spells
end PdfSyntax.Lexer
