import PdfSyntax.Proofs.Lexer.Lexemes
import PdfSyntax.Proofs.Lexer.Spacing
import PdfSyntax.Proofs.Reader.Descent
import PdfSyntax.Proofs.Reader.Peek

/-!
# The tokens that a buffer awaits

The tokens ahead of a reader over a buffer are those pushed back and then those of the bytes ahead. Taking a
token takes it off their front, and pushing it back puts it there again, also where the end of the input was
taken. That holds up to the first malformed token, whether the end is tolerated or not, with any key, and as
long as no reading is broken off.
-/

set_option autoImplicit false

namespace PdfSyntax.Reader

/-- Whether the tokens pushed back and those still to be lexed are these, and then only the end of the
input, again and again. An end is pushed back only if there are no bytes left. -/
def Awaits (tokens : List Obj) (r : Reader Buffer) : Prop :=
  ∃ ends, r.pending ++ Lexer.lexemes r.cursor.ahead = tokens ++ List.replicate ends .endOfInput ∧
    (ends ≠ 0 → r.cursor.ahead = [])

theorem Awaits.eq_lexemes {tokens : List Obj} {r : Reader Buffer} (h : Awaits tokens r)
    (hp : r.pending = []) : tokens = Lexer.lexemes r.cursor.ahead := by
  obtain ⟨ends, hahead, hends⟩ := h
  rw [hp, List.nil_append] at hahead
  cases ends with
  | zero => simpa using hahead.symm
  | succ ends =>
    have hmem : Obj.endOfInput ∈ Lexer.lexemes r.cursor.ahead := by
      rw [hahead]
      simp
    exact (Lexer.isLexeme_of_mem_lexemes hmem).elim

theorem awaits_of_no_pending {r : Reader Buffer} (hp : r.pending = []) :
    Awaits (Lexer.lexemes r.cursor.ahead) r :=
  ⟨0, by simp [hp], fun h => absurd rfl h⟩

/-- A reader that still has the settings it had at the start of an operation, and some tokens ahead. -/
structure Expects (medium : Medium) (start : Reader Buffer) (tokens : List Obj) (r : Reader Buffer) : Prop
    extends Buffer.Over medium r.cursor where
  settings_eq : r.settings = start.settings
  decrypt_eq : r.decrypt = start.decrypt
  awaits : Awaits tokens r

/-- A reader with some of the tokens ahead that were ahead when an operation began. All that it has asked
for was deciphered. -/
structure Proceeds (medium : Medium) (start : Reader Buffer) (whole tokens : List Obj)
    (r : Reader Buffer) : Prop extends Expects medium start tokens r where
  suffix : tokens <:+ whole
  answered : ∀ request ∈ r.requests, ∃ plain, start.decrypt request = .ok plain

/-- A reader that has just taken a token, which it may push back. -/
structure Picked (medium : Medium) (start : Reader Buffer) (whole tokens : List Obj) (token : Obj)
    (r : Reader Buffer) : Prop extends Proceeds medium start whole tokens.tail r where
  token_eq : token = tokens.headD .endOfInput
  suffix_whole : tokens <:+ whole
  ahead_eq_nil : tokens = [] → r.cursor.ahead = []

/-- What breaks a reading off: a malformed token, an end that is not tolerated, behind which nothing is
left, or a string that cannot be deciphered, behind which the tokens are those that come after it. -/
inductive Interrupted (medium : Medium) (start : Reader Buffer) (whole : List Obj) :
    Failure → Reader Buffer → Prop where
  | malformed {fault : Fault} {offset : Int} {r : Reader Buffer} : fault.isLexical = true →
    r.decrypt = start.decrypt → (∀ request ∈ r.requests, ∃ plain, start.decrypt request = .ok plain) →
    Interrupted medium start whole (.malformed fault offset) r
  | cutShort {offset : Int} {r : Reader Buffer} : Proceeds medium start whole [] r →
    Interrupted medium start whole (.unexpectedEnd offset) r
  | refused {e : Failure} {request : Request} {used tokens : List Obj} {r : Reader Buffer} :
    request ∈ r.requests → start.decrypt request = .error e →
    whole = used ++ .str request.data :: tokens → Expects medium start tokens r →
    Interrupted medium start whole e r

section Moves
variable {medium : Medium} {start : Reader Buffer} {whole tokens : List Obj} {token : Obj}
variable {E : Failure → Reader Buffer → Prop}

theorem Picked.proceeds {r : Reader Buffer} (h : Picked medium start whole tokens token r) :
    Proceeds medium start whole tokens.tail r :=
  h.toProceeds

/-- What the lexer takes off the bytes ahead is the first of their tokens, or the end behind the last. -/
theorem Proceeds.picked {r : Reader Buffer} {b : Buffer} {verdict : Lexer.Verdict} {rest : Bytes}
    (h : Proceeds medium start whole (Lexer.lexemes r.cursor.ahead) r) (hp : r.pending = [])
    (hscan : Lexer.scan true .gap r.cursor.ahead = some (verdict, rest))
    (htaken : verdict.taken? = some token) (hover : Buffer.Over medium b) (hrest : b.ahead = rest) :
    Picked medium start whole (Lexer.lexemes r.cursor.ahead) token { r with cursor := b } := by
  have hawaits := awaits_of_no_pending (r := { r with cursor := b }) hp
  rw [hrest] at hawaits
  rcases Lexer.isLexeme_of_taken? hscan htaken with hlexeme | ⟨rfl, hnil⟩
  · have hsuffix := h.suffix
    rw [Lexer.lexemes_of_token hscan htaken hlexeme] at hsuffix ⊢
    exact { hover, h with
      awaits := hawaits
      suffix := (List.suffix_cons _ _).trans hsuffix
      token_eq := rfl
      suffix_whole := hsuffix
      ahead_eq_nil := fun h => by cases h }
  · rw [hnil, Lexer.lexemes_nil] at hawaits
    rw [Lexer.lexemes_of_end hscan htaken]
    exact { hover, h with
      awaits := hawaits
      suffix := List.nil_suffix
      token_eq := rfl
      suffix_whole := List.nil_suffix
      ahead_eq_nil := fun _ => hrest.trans hnil }

/-- The next token comes from the bytes ahead, where none is pushed back. -/
theorem token_picked_of_no_pending :
    Ensures (fun r => r.pending = [] ∧ Proceeds medium start whole tokens r) Reader.token
      (Picked medium start whole tokens) (Interrupted medium start whole) := by
  rintro r ⟨hp, h⟩
  obtain rfl := h.awaits.eq_lexemes hp
  obtain ⟨bytes, b, hadvances, hread⟩ := token_advances hp h.toOver
  cases hscan : Lexer.scan r.settings.tolerant .gap r.cursor.ahead with
  | none =>
    obtain ⟨b', htoken, hover, hahead⟩ := token_runs_out hp h.toOver hscan
    rw [htoken]
    have hnil : Awaits [] { r with cursor := b' } := by
      have hawaits := awaits_of_no_pending (r := { r with cursor := b' }) hp
      rwa [hahead, Lexer.lexemes_nil] at hawaits
    exact .cutShort { hover, h with awaits := hnil, suffix := List.nil_suffix }
  | some result =>
    obtain ⟨verdict, rest⟩ := result
    rw [hscan] at hread
    obtain ⟨hrest, htoken, -⟩ := hread
    have hscan : Lexer.scan true .gap r.cursor.ahead = some (verdict, rest) := by
      rcases Lexer.scan_none_or_eq r.settings.tolerant .gap r.cursor.ahead with hnone | heq
      · cases hnone.symm.trans hscan
      · exact heq.symm.trans hscan
    rw [htoken]
    cases htaken : verdict.taken? with
    | some token =>
      obtain ⟨told, records, hjudged⟩ := judged_eq (r := { r with cursor := b }) htaken
      rw [hjudged]
      exact { h.picked hp hscan htaken hadvances.toOver hrest with }
    | none =>
      cases verdict with
      | token _ => cases htaken
      | cutShort _ => cases htaken
      | fault fault => exact .malformed (Lexer.isLexical_of_scan hscan) h.decrypt_eq h.answered

/-- Taking a token takes it off the tokens ahead; at their end the end of the input is taken. -/
theorem token_picked : Ensures (Proceeds medium start whole tokens) Reader.token
    (Picked medium start whole tokens) (Interrupted medium start whole) := by
  intro r hr
  cases hp : r.pending with
  | nil => exact token_picked_of_no_pending r ⟨hp, hr⟩
  | cons first rest =>
    rw [token_of_pending hp]
    obtain ⟨ends, hahead, hends⟩ := hr.awaits
    rw [hp] at hahead
    cases tokens with
    | nil =>
      cases ends with
      | zero => simp at hahead
      | succ ends =>
        simp only [List.nil_append, List.replicate_succ, List.cons_append, List.cons.injEq] at hahead
        have hnil := hends (Nat.succ_ne_zero ends)
        exact { hr with
          awaits := ⟨ends, hahead.2, fun _ => hnil⟩
          token_eq := hahead.1
          suffix_whole := hr.suffix
          ahead_eq_nil := fun _ => hnil }
    | cons token tokens =>
      simp only [List.cons_append, List.cons.injEq] at hahead
      exact { hr with
        awaits := ⟨ends, hahead.2, hends⟩
        suffix := (List.suffix_cons _ _).trans hr.suffix
        token_eq := hahead.1
        suffix_whole := hr.suffix
        ahead_eq_nil := fun h => by cases h }

/-- Pushing the token back that was taken puts it in front again. -/
theorem push_proceeds : Ensures (Picked medium start whole tokens token) (push token)
    (fun _ => Proceeds medium start whole tokens) E := by
  intro r hr
  obtain ⟨ends, hahead, hends⟩ := hr.awaits
  have htoken := hr.token_eq
  cases tokens with
  | nil =>
    obtain rfl : token = .endOfInput := htoken
    refine { hr.proceeds with awaits := ⟨ends + 1, ?_, fun _ => hr.ahead_eq_nil rfl⟩, suffix := hr.suffix_whole }
    simpa [List.replicate_succ] using hahead
  | cons first tokens =>
    obtain rfl : token = first := htoken
    refine { hr.proceeds with awaits := ⟨ends, ?_, hends⟩, suffix := hr.suffix_whole }
    simpa using hahead

theorem getSettings_proceeds : Ensures (Proceeds medium start whole tokens) getSettings
    (fun settings r => settings = start.settings ∧ Proceeds medium start whole tokens r) E :=
  fun _ hr => ⟨hr.settings_eq, hr⟩

theorem record_proceeds (level : Level) (message text : String) :
    Ensures (Proceeds medium start whole tokens) (record level message (.ok text))
      (fun _ => Proceeds medium start whole tokens) E := by
  intro r hr
  obtain ⟨told, records, heq⟩ := exists_recorded level message text r
  rw [record_eq, heq]
  exact { hr with }

/-- A string that is refused was the last of the tokens used. -/
theorem decipher_proceeds {data : Bytes} :
    Ensures (Picked medium start whole (.str data :: tokens) (.str data)) (decipher data)
      (fun _ => Proceeds medium start whole tokens) (Interrupted medium start whole) := by
  intro r hr
  obtain ⟨used, hused⟩ := hr.suffix_whole
  have hdecrypt := hr.decrypt_eq
  have hasked : ∀ {request : Request} {result : Except Failure Bytes},
      r.decrypt request = result → start.decrypt request = result := by
    intro request result h
    rwa [← hdecrypt]
  cases hkey : r.settings.key with
  | none =>
    rw [decipher_of_no_key hkey]
    exact hr.proceeds
  | some key =>
    by_cases hid : r.context.id = 0
    · rw [decipher_of_outside hid]
      exact hr.proceeds
    · rw [decipher_of_key hkey hid]
      cases hresult : r.decrypt ⟨key, r.settings.algorithm, r.context, data⟩ with
      | ok plain =>
        refine { hr.proceeds with answered := fun request hrequest => ?_ }
        rcases List.mem_append.mp hrequest with hrequest | hrequest
        · exact hr.answered request hrequest
        · rw [List.mem_singleton.mp hrequest]
          exact ⟨plain, hasked hresult⟩
      | error e =>
        exact .refused (List.mem_append_right _ List.mem_cons_self) (hasked hresult) hused.symm
          { hr.proceeds with }

/-- Looking ahead after an integer takes what makes a reference or a definition with it, or nothing. -/
theorem suffix_proceeds {n : Int} (hreferences : start.settings.references = true)
    (hn : 0 ≤ n ∧ n < Ref.idLimit) :
    Ensures (Proceeds medium start whole tokens) (suffix n)
      (fun suffix r => suffix = Grammar.suffix start.settings.references n tokens ∧
        Proceeds medium start whole (match suffix with | .nothing => tokens | _ => tokens.drop 2) r)
      (Interrupted medium start whole) := by
  apply token_picked.bind
  intro second
  refine .of_promise fun r hr => ?_
  have hsecond := hr.token_eq
  cases hnat : second.natural? Ref.genLimit with
  | none =>
    apply push_proceeds.bind
    rw [hsecond] at hnat
    exact fun _ => .pure fun r hr => ⟨(suffix_eq_nothing hnat).symm, hr⟩
  | some gen =>
    obtain ⟨hint, hgen⟩ := eq_int_of_natural? hnat
    cases tokens with
    | nil => cases hint.symm.trans hsecond
    | cons first rest =>
      obtain rfl : first = .int gen := hsecond.symm.trans hint
      have hwhole := hr.suffix_whole
      apply (token_picked.from_imp fun _ h => h.proceeds).bind
      intro third
      refine .of_promise fun r hr => ?_
      have hthird := hr.token_eq
      have hsuffix : Grammar.suffix start.settings.references n (.int gen :: rest) =
          if third.isKeyword "R" then .reference ⟨n, gen⟩
          else if third.isKeyword "obj" then .definition ⟨n, gen⟩
          else .nothing := by
        cases rest with
        | nil =>
          rw [hthird]
          rfl
        | cons next rest =>
          obtain rfl : third = next := hthird
          simp only [Grammar.suffix, hreferences, hn, hgen, and_self, if_true]
      rw [hsuffix]
      apply Ensures.ite
      · intro hR
        exact .pure fun r hr => ⟨by rw [if_pos hR], by cases rest <;> exact hr.proceeds⟩
      · intro hR
        apply Ensures.ite
        · intro hobj
          exact .pure fun r hr => ⟨by rw [if_neg hR, if_pos hobj], by cases rest <;> exact hr.proceeds⟩
        · intro hobj
          apply push_proceeds.bind
          intro _
          have hpicked : ∀ r, Proceeds medium start whole rest r →
              Picked medium start whole (.int gen :: rest) second r := fun r hr =>
            { hr with token_eq := hsecond, suffix_whole := hwhole, ahead_eq_nil := fun h => by cases h }
          apply (push_proceeds.from_imp hpicked).bind
          exact fun _ => .pure fun r hr => ⟨by rw [if_neg hR, if_neg hobj], hr⟩

theorem Proceeds.length_le_weight {r : Reader Buffer} (h : Proceeds medium start whole tokens r) :
    tokens.length ≤ r.weight := by
  obtain ⟨ends, hahead, -⟩ := h.awaits
  have hlength := congrArg List.length hahead
  have hpending := length_le_pendingWeight r.pending
  have hlexemes := Lexer.length_lexemes_le r.cursor.ahead
  have hleft : Cursor.left r.cursor = r.cursor.ahead.length :=
    (Buffer.supplies medium).left h.toOver.inFront
  simp only [List.length_append] at hlength
  simp only [weight]
  omega

end Moves
end PdfSyntax.Reader
