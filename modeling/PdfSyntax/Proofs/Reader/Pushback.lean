import PdfSyntax.Proofs.Lexer.Spells
import PdfSyntax.Proofs.Reader.Grammar
import PdfSyntax.Proofs.Reader.Token

/-!
# Pushing back loses no token

The tokens ahead of a reader are those pushed back and then those its bytes spell. Taking a token takes
it off their front, and pushing it back puts it there again. So reading an object, with all its looking
ahead, does to the tokens ahead what the grammar does to a list of tokens.
-/

set_option autoImplicit false

namespace PdfSyntax

/-- Whether the grammar speaks of a token: it is one of bytes, and it begins no payload of a stream. -/
def Settings.Admits (settings : Settings) (token : Obj) : Prop :=
  Lexer.IsLexeme token ∧ (settings.streams = true → token.isKeyword "stream" = false)

structure Settings.IsPlain (settings : Settings) : Prop where
  tolerant : settings.tolerant = true
  key : settings.key = none

namespace Reader

/-- A reader with certain tokens ahead, that still has the settings it had at the start. Its records
have grown only if a string may have been cut short or a key was dropped. -/
structure Ahead (start : Reader Direct) (mayCut : Prop) (dropped : List String) (tokens : List Obj)
    (r : Reader Direct) : Prop where
  settings_eq : r.settings = start.settings
  isInside : r.cursor.IsInside
  admits : ∀ token ∈ tokens, start.settings.Admits token
  spells : ∃ lexed ends, Lexer.Spells mayCut r.cursor.rest lexed ∧
    r.pending ++ lexed = tokens ++ List.replicate ends .endOfInput
  records_eq : ¬ mayCut → dropped = [] → r.records = start.records

section Moves
variable {start : Reader Direct} {mayCut : Prop} {dropped : List String} {tokens : List Obj}
variable {E : Failure → Reader Direct → Prop}

theorem ahead_of_spells (hp : start.pending = []) (hinside : start.cursor.IsInside)
    (hspells : Lexer.Spells mayCut start.cursor.rest tokens)
    (hstream : start.settings.streams = true → ∀ token ∈ tokens, token.isKeyword "stream" = false) :
    Ahead start mayCut [] tokens start where
  settings_eq := rfl
  isInside := hinside
  admits token ht := ⟨hspells.isLexeme ht, fun hs => hstream hs token ht⟩
  spells := ⟨tokens, 0, hspells, by simp [hp]⟩
  records_eq _ _ := rfl

theorem eq_of_spells {bytes : Bytes} {lexed : List Obj} {ends : Nat}
    (h : Lexer.Spells mayCut bytes lexed)
    (heq : lexed = tokens ++ List.replicate ends .endOfInput) : lexed = tokens := by
  cases ends with
  | zero => simpa using heq
  | succ ends =>
    have hmem : Obj.endOfInput ∈ lexed := by
      rw [heq]
      simp
    exact (h.isLexeme hmem).elim

theorem Ahead.recorded {r : Reader Direct} (h : Ahead start mayCut dropped tokens r)
    {dropped' : List String} (hloud : ¬ mayCut → dropped' ≠ []) (level : Level)
    (message text : String) : Ahead start mayCut dropped' tokens (r.recorded level message text) where
  settings_eq := by rw [settings_recorded, h.settings_eq]
  isInside := by rw [cursor_recorded]; exact h.isInside
  admits := h.admits
  spells := by rw [cursor_recorded, pending_recorded]; exact h.spells
  records_eq := fun hcut hnil => absurd hnil (hloud hcut)

theorem record_ahead {dropped' : List String} (hloud : ¬ mayCut → dropped' ≠ []) (level : Level)
    (message text : String) :
    Ensures (Ahead start mayCut dropped tokens) (record level message (.ok text))
      (fun _ => Ahead start mayCut dropped' tokens) E := by
  intro r hr
  rw [record_eq]
  exact hr.recorded hloud level message text

/-- Taking a token takes it off the tokens ahead; at their end the end of the input is taken. -/
theorem token_ahead (plain : start.settings.IsPlain) :
    Ensures (Ahead start mayCut dropped tokens) token
      (fun token r => token = tokens.headD .endOfInput ∧ Ahead start mayCut dropped tokens.tail r)
      E := by
  intro r hr
  obtain ⟨lexed, ends, hspells, hahead⟩ := hr.spells
  have htail : ∀ token ∈ tokens.tail, start.settings.Admits token :=
    fun token ht => hr.admits token (List.mem_of_mem_tail ht)
  cases hp : r.pending with
  | cons first pending =>
    rw [token_of_pending hp]
    rw [hp] at hahead
    cases tokens with
    | nil =>
      cases ends with
      | zero => simp at hahead
      | succ ends =>
        simp only [List.nil_append, List.replicate_succ, List.cons_append, List.cons.injEq] at hahead
        exact ⟨hahead.1, { hr with spells := ⟨lexed, ends, hspells, hahead.2⟩ }⟩
    | cons token tokens =>
      simp only [List.cons_append, List.cons.injEq] at hahead
      exact ⟨hahead.1, { hr with admits := htail, spells := ⟨lexed, ends, hspells, hahead.2⟩ }⟩
  | nil =>
    rw [hp, List.nil_append] at hahead
    obtain rfl := eq_of_spells hspells hahead
    obtain ⟨bytes, d, hpass, hread⟩ := token_ensures hp hr.isInside
    have hinside := hpass.isInside hr.isInside
    have htolerant : r.settings.tolerant = true := by
      rw [hr.settings_eq]
      exact plain.tolerant
    rw [htolerant] at hread
    cases hspells with
    | nil hscan =>
      rw [hscan] at hread
      obtain ⟨hrest, htoken⟩ := hread
      rw [htoken]
      refine ⟨rfl, { hr with isInside := hinside, spells := ⟨[], 0, ?_, by simpa using hp⟩ }⟩
      rw [hrest]
      exact .empty
    | @token _ rest token tokens hscan hend hspells =>
      rw [hscan] at hread
      obtain ⟨hrest, htoken⟩ := hread
      rw [htoken]
      exact ⟨rfl, { hr with
        isInside := hinside
        admits := htail
        spells := ⟨tokens, 0, hrest ▸ hspells, by simp [hp]⟩ }⟩
    | @cutShort _ rest string tokens hcut hscan hspells =>
      rw [hscan] at hread
      obtain ⟨hrest, htoken⟩ := hread
      rw [htoken]
      have hahead : Ahead start mayCut dropped tokens { r with cursor := d } := { hr with
        isInside := hinside
        admits := htail
        spells := ⟨tokens, 0, hrest ▸ hspells, by simp [hp]⟩ }
      exact ⟨rfl, hahead.recorded (fun hno => absurd hcut hno) _ _ _⟩

theorem tokens_ahead (plain : start.settings.IsPlain) (count : Nat) :
    Ensures (Ahead start mayCut dropped tokens) (Reader.tokens count)
      (fun taken r => taken = tokens.take count ∧ Ahead start mayCut dropped (tokens.drop count) r)
      E := by
  induction count generalizing tokens with
  | zero => exact .pure fun r hr => ⟨rfl, hr⟩
  | succ count ih =>
    refine .of_promise fun r hr => ?_
    have admits := hr.admits
    apply (token_ahead plain).bind
    intro token
    refine .of_fact fun htoken => ?_
    cases tokens with
    | nil =>
      rw [htoken]
      exact .pure fun r hr => ⟨rfl, hr⟩
    | cons first tokens =>
      obtain rfl : token = first := htoken
      rw [(admits token List.mem_cons_self).1.isEnd_eq_false]
      apply ih.bind_of_eq
      exact .pure fun r hr => ⟨rfl, hr⟩

/-- Pushing the token back that was taken puts it in front again. -/
theorem push_ahead (tokens : List Obj) (admits : ∀ token ∈ tokens, start.settings.Admits token)
    {token : Obj} (htoken : token = tokens.headD .endOfInput) :
    Ensures (Ahead start mayCut dropped tokens.tail) (push token)
      (fun _ => Ahead start mayCut dropped tokens) E := by
  intro r hr
  obtain ⟨lexed, ends, hspells, hahead⟩ := hr.spells
  subst htoken
  cases tokens with
  | nil =>
    refine { hr with spells := ⟨lexed, ends + 1, hspells, ?_⟩ }
    simpa [List.replicate_succ] using hahead
  | cons token tokens =>
    refine { hr with admits, spells := ⟨lexed, ends, hspells, ?_⟩ }
    simpa using hahead

theorem getSettings_ahead : Ensures (Ahead start mayCut dropped tokens) getSettings
    (fun settings r => settings = start.settings ∧ Ahead start mayCut dropped tokens r) E :=
  fun _ hr => ⟨hr.settings_eq, hr⟩

theorem decipher_ahead (plain : start.settings.IsPlain) (data : Bytes) :
    Ensures (Ahead start mayCut dropped tokens) (decipher data)
      (fun data' r => data' = data ∧ Ahead start mayCut dropped tokens r) E := by
  intro r hr
  have hkey : r.settings.key = none := by
    rw [hr.settings_eq]
    exact plain.key
  rw [decipher_of_no_key hkey]
  exact ⟨rfl, hr⟩

end Moves

end Reader
end PdfSyntax
