import PdfSyntax.Proofs.Session.Ahead

/-!
# A look at the tokens ahead

Tokens can be taken and pushed back at once, the last one first. With nothing pushed back before, they are
what the lexer makes of the cursor again and again; what else is known of the reader makes no difference
to them, and they make none to the reader but in its cursor and in what it has told.
-/

set_option autoImplicit false

namespace PdfSyntax

namespace Reader

section Peek
variable {σ : Type} [Cursor σ] {r : Reader σ}

/-- So many tokens, ends of the input included. -/
def take : Nat → Reading σ (List Obj)
  | 0 => return []
  | count + 1 => do
    let token ← token
    return token :: (← take count)

/-- Pushes tokens back, the last one first. -/
def giveBack : List Obj → Reading σ Unit
  | [] => return ()
  | token :: rest => do
    giveBack rest
    push token

/-- Takes so many tokens and pushes all of them back. -/
def peek (count : Nat) : Reading σ (List Obj) := do
  let tokens ← take count
  giveBack tokens
  return tokens

omit [Cursor σ] in
theorem giveBack_eq (tokens : List Obj) (r : Reader σ) :
    giveBack tokens r = .ok () { r with pending := tokens ++ r.pending } := by
  induction tokens with
  | nil => rfl
  | cons token rest ih =>
    simp only [giveBack, Bind.bind, EStateM.bind, ih]
    rfl

theorem take_of_peek {count : Nat} {tokens : List Obj} {s : Reader σ} (h : peek count r = .ok tokens s) :
    ∃ last, take count r = .ok tokens last ∧ s = { last with pending := tokens ++ last.pending } := by
  simp only [peek, Bind.bind, EStateM.bind] at h
  cases htake : take count r with
  | error e last =>
    rw [htake] at h
    cases h
  | ok taken last =>
    simp only [htake, giveBack_eq] at h
    cases h
    exact ⟨last, rfl, rfl⟩

/-- What tokens a cursor yields one after another, and where it stands then. -/
inductive Emits (tolerant : Bool) : σ → List Obj → σ → Prop where
  | nil (c : σ) : Emits tolerant c [] c
  | cons {c c' d : σ} {verdict : Lexer.Verdict} {token : Obj} {tokens : List Obj} :
    lex tolerant .gap c = .ok verdict c' → verdict.taken? = some token → Emits tolerant c' tokens d →
    Emits tolerant c (token :: tokens) d

theorem Emits.eq_of_nil {tolerant : Bool} {c d : σ} (h : Emits tolerant c [] d) : d = c := by
  cases h
  rfl

theorem Emits.snoc {tolerant : Bool} {c d d' : σ} {tokens : List Obj} {verdict : Lexer.Verdict}
    {token : Obj} (h : Emits tolerant c tokens d) (hlex : lex tolerant .gap d = .ok verdict d')
    (htaken : verdict.taken? = some token) : Emits tolerant c (tokens ++ [token]) d' := by
  induction h with
  | nil => exact .cons hlex htaken (.nil d')
  | cons hfirst htoken _ ih => exact .cons hfirst htoken (ih hlex)

theorem judged_eq {r : Reader σ} {verdict : Lexer.Verdict} {token : Obj}
    (h : verdict.taken? = some token) :
    ∃ told records, r.judged verdict = .ok token { r with told, records } := by
  cases verdict with
  | token _ =>
    cases h
    exact ⟨r.told, r.records, rfl⟩
  | cutShort string =>
    cases h
    obtain ⟨told, records, heq⟩ := exists_recorded .warning cutShortMessage cutShortMessage r
    exact ⟨told, records, congrArg (EStateM.Result.ok (Obj.str string)) heq⟩
  | fault _ => cases h

/-- With nothing pushed back a token comes from the cursor, whatever else is known of the reader. -/
theorem token_of_lex {c : σ} {verdict : Lexer.Verdict} {token : Obj} (hp : r.pending = [])
    (hlex : lex r.settings.tolerant .gap r.cursor = .ok verdict c)
    (htaken : verdict.taken? = some token) :
    ∃ told records, Reader.token r = .ok token { r with cursor := c, told, records } := by
  rw [token_of_no_pending hp, hlex]
  exact judged_eq htaken

theorem lex_of_token {token : Obj} {r' : Reader σ} (hp : r.pending = [])
    (h : Reader.token r = .ok token r') : ∃ verdict told records,
      lex r.settings.tolerant .gap r.cursor = .ok verdict r'.cursor ∧ verdict.taken? = some token ∧
        r' = { r with cursor := r'.cursor, told, records } := by
  rw [token_of_no_pending hp] at h
  cases hlex : lex r.settings.tolerant .gap r.cursor with
  | error e c =>
    rw [hlex] at h
    cases h
  | ok verdict c =>
    rw [hlex] at h
    obtain ⟨htaken, hcursor⟩ := taken?_of_judged h
    obtain ⟨told, records, heq⟩ := judged_eq (r := { r with cursor := c }) htaken
    have h : EStateM.Result.ok token _ = EStateM.Result.ok token r' := heq.symm.trans h
    cases h
    exact ⟨verdict, told, records, rfl, htaken, rfl⟩

theorem emits_of_take {count : Nat} {tokens : List Obj} {last : Reader σ} (hp : r.pending = [])
    (h : take count r = .ok tokens last) : Emits r.settings.tolerant r.cursor tokens last.cursor ∧
      ∃ told records, last = { r with cursor := last.cursor, told, records } := by
  induction count generalizing r tokens with
  | zero =>
    cases h
    exact ⟨.nil _, _, _, rfl⟩
  | succ count ih =>
    simp only [take, Bind.bind, EStateM.bind] at h
    cases htoken : Reader.token r with
    | error e r' =>
      rw [htoken] at h
      cases h
    | ok token r' =>
      rw [htoken] at h
      obtain ⟨verdict, told, records, hlex, htaken, hr'⟩ := lex_of_token hp htoken
      have hp' : r'.pending = [] := by rw [hr']; exact hp
      cases hrest : take count r' with
      | error e last =>
        simp only [hrest] at h
        cases h
      | ok rest last =>
        simp only [hrest] at h
        cases h
        obtain ⟨hemits, told', records', hlast⟩ := ih hp' hrest
        have hsettings : r'.settings = r.settings := by rw [hr']
        refine ⟨.cons hlex htaken (hsettings ▸ hemits), told', records', ?_⟩
        rw [hlast, hr']

theorem take_of_emits {tokens : List Obj} {c : σ} (hp : r.pending = [])
    (h : Emits r.settings.tolerant r.cursor tokens c) : ∃ told records,
      take tokens.length r = .ok tokens { r with cursor := c, told, records } := by
  generalize htolerant : r.settings.tolerant = tolerant at h
  generalize hcursor : r.cursor = start at h
  induction h generalizing r with
  | nil =>
    subst hcursor
    exact ⟨_, _, rfl⟩
  | cons hlex htaken _ ih =>
    subst hcursor
    obtain ⟨told, records, htoken⟩ := token_of_lex hp (htolerant ▸ hlex) htaken
    obtain ⟨told', records', htake⟩ := ih hp htolerant rfl
      (r := { r with cursor := _, told, records })
    refine ⟨told', records', ?_⟩
    simp only [List.length_cons, take, Bind.bind, EStateM.bind, htoken, htake]
    rfl

end Peek
end Reader
end PdfSyntax
