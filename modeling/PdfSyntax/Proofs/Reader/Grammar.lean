import PdfSyntax.Proofs.Lexer.Scan
import PdfSyntax.Reader.Object

/-!
# The grammar of objects over tokens

Objects are read off a list of tokens by recursive descent. To tell a reference or a definition from a
bare integer the grammar looks at the tokens ahead in the list; it takes a token off the list only to
use it up, so nothing is ever put back. Streams and enciphered strings are not part of it.
-/

set_option autoImplicit false

namespace PdfSyntax.Grammar

/-- What reading an object off so many tokens comes to. -/
structure Parsed (limit : Nat) where
  outcome : Except Fault Obj
  /-- The keys that had no value, since the tokens end there. -/
  dropped : List String
  rest : List Obj
  length_rest_le : rest.length ≤ limit

namespace Parsed
variable {limit limit' : Nat}

def after (dropped : List String) (h : limit ≤ limit') (p : Parsed limit) : Parsed limit' :=
  ⟨p.outcome, dropped ++ p.dropped, p.rest, Nat.le_trans p.length_rest_le h⟩

end Parsed

section Lengths
variable {tokens rest : List Obj} {first second next : Obj}

theorem le_self : tokens.length ≤ tokens.length :=
  Nat.le_refl _

theorem nil_le : ([] : List Obj).length ≤ tokens.length :=
  Nat.zero_le _

theorem le_cons : tokens.length ≤ (first :: tokens).length :=
  Nat.le_succ _

theorem le_cons_of_le (h : rest.length ≤ tokens.length) : rest.length ≤ (first :: tokens).length :=
  Nat.le_succ_of_le h

theorem le_cons_of_cons_le (h : (next :: rest).length ≤ tokens.length) :
    rest.length ≤ (first :: tokens).length := by
  simp only [List.length_cons] at h ⊢
  omega

theorem cons_le_cons_of_le (h : (next :: rest).length ≤ tokens.length) :
    (next :: rest).length ≤ (first :: tokens).length :=
  Nat.le_succ_of_le h

theorem le_cons_cons_of_le (h : rest.length ≤ tokens.length) :
    rest.length ≤ (first :: second :: tokens).length :=
  Nat.le_succ_of_le (Nat.le_succ_of_le h)

theorem drop_le : (tokens.drop 2).length ≤ tokens.length := by
  rw [List.length_drop]
  omega

end Lengths

/-- What an integer begins, by the tokens after it. -/
def suffix (references : Bool) (id : Int) : List Obj → Reader.Suffix
  | .int gen :: third :: _ =>
    if references ∧ (0 ≤ id ∧ id < Ref.idLimit) ∧ 0 ≤ gen ∧ gen < Ref.genLimit then
      if third.isKeyword "R" then .reference ⟨id, gen⟩
      else if third.isKeyword "obj" then .definition ⟨id, gen⟩
      else .nothing
    else .nothing
  | _ => .nothing

mutual

def objectFrom (references : Bool) (first : Obj) (tokens : List Obj) : Parsed tokens.length :=
  match first with
  | .keyword text =>
    if text = "null" then ⟨.ok .null, [], tokens, le_self⟩
    else if text = "<<" then dictFrom references [] tokens
    else if text = "[" then arrayFrom references [] tokens
    else ⟨.error (.unexpectedKeyword text), [], tokens, le_self⟩
  | .int n =>
    match suffix references n tokens with
    | .nothing => ⟨.ok (.int n), [], tokens, le_self⟩
    | .reference ref => ⟨.ok (.ref ref), [], tokens.drop 2, drop_le⟩
    | .definition ref => (definitionFrom references ref (tokens.drop 2)).after [] drop_le
  | token => ⟨.ok token, [], tokens, le_self⟩
termination_by 2 * tokens.length + 1
decreasing_by
  · omega
  · omega
  · simp only [List.length_drop]; omega

/-- The object of a definition, and the end of the definition, which is left if it is something else. -/
def definitionFrom (references : Bool) (ref : Ref) (tokens : List Obj) : Parsed tokens.length :=
  match tokens with
  | [] => ⟨.error (.missingEnd ref), [], [], nil_le⟩
  | first :: tokens =>
    match objectFrom references first tokens with
    | ⟨.error fault, dropped, rest, h⟩ => ⟨.error fault, dropped, rest, le_cons_of_le h⟩
    | ⟨.ok body, dropped, rest, h⟩ =>
      match rest with
      | [] => ⟨.error (.missingEnd ref), dropped, [], nil_le⟩
      | next :: rest =>
        if next.isKeyword "endobj" then
          ⟨.ok (.defn ref body), dropped, rest, le_cons_of_cons_le h⟩
        else ⟨.error (.missingEnd ref), dropped, next :: rest, cons_le_cons_of_le h⟩
termination_by 2 * tokens.length
decreasing_by simp only [List.length_cons]; omega

/-- The rest of an array, after the given items, the latest first. -/
def arrayFrom (references : Bool) (items : List Obj) (tokens : List Obj) : Parsed tokens.length :=
  match tokens with
  | [] => ⟨.ok (.array items.reverse), [], [], nil_le⟩
  | first :: tokens =>
    if first.isKeyword "]" then ⟨.ok (.array items.reverse), [], tokens, le_cons⟩
    else
      match objectFrom references first tokens with
      | ⟨.error fault, dropped, rest, h⟩ => ⟨.error fault, dropped, rest, le_cons_of_le h⟩
      | ⟨.ok item, dropped, rest, h⟩ =>
        (arrayFrom references (item :: items) rest).after dropped (le_cons_of_le h)
termination_by 2 * tokens.length
decreasing_by
  · simp only [List.length_cons]; omega
  · simp only [List.length_cons]; omega

def dictFrom (references : Bool) (entries : Dict) (tokens : List Obj) : Parsed tokens.length :=
  match tokens with
  | [] => ⟨.ok (.dict entries), [], [], nil_le⟩
  | first :: tokens =>
    if first.isKeyword ">>" then ⟨.ok (.dict entries), [], tokens, le_cons⟩
    else
      match first with
      | .name key =>
        match tokens with
        | [] => ⟨.ok (.dict entries), [key], [], nil_le⟩
        | value :: tokens =>
          match objectFrom references value tokens with
          | ⟨.error fault, dropped, rest, h⟩ =>
            ⟨.error fault, dropped, rest, le_cons_cons_of_le h⟩
          | ⟨.ok value, dropped, rest, h⟩ =>
            (dictFrom references (insertEntry key value entries) rest).after dropped
              (le_cons_cons_of_le h)
      | token => ⟨.error (.nonNameKey token), [], tokens, le_cons⟩
termination_by 2 * tokens.length
decreasing_by
  · simp only [List.length_cons]; omega
  · simp only [List.length_cons]; omega

end

section Outcomes
variable {references : Bool} {obj : Obj}

theorem eq_defn_of_definitionFrom {ref : Ref} {tokens : List Obj}
    (h : (definitionFrom references ref tokens).outcome = .ok obj) : ∃ body, obj = .defn ref body := by
  cases tokens with
  | nil =>
    rw [definitionFrom] at h
    cases h
  | cons first tokens =>
    rw [definitionFrom] at h
    generalize objectFrom references first tokens = p at h
    obtain ⟨outcome, dropped, rest, hle⟩ := p
    cases outcome with
    | error fault => cases h
    | ok body =>
      cases rest with
      | nil => cases h
      | cons next rest =>
        simp only at h
        split at h
        · cases h
          exact ⟨body, rfl⟩
        · cases h

theorem eq_array_of_arrayFrom {items tokens : List Obj}
    (h : (arrayFrom references items tokens).outcome = .ok obj) : ∃ items', obj = .array items' := by
  induction hn : tokens.length using Nat.strongRecOn generalizing items tokens with
  | _ n ih =>
    cases tokens with
    | nil =>
      rw [arrayFrom] at h
      cases h
      exact ⟨_, rfl⟩
    | cons first tokens =>
      rw [arrayFrom] at h
      split at h
      · cases h
        exact ⟨_, rfl⟩
      · generalize objectFrom references first tokens = p at h
        obtain ⟨outcome, dropped, rest, hle⟩ := p
        cases outcome with
        | error fault => cases h
        | ok item =>
          have h : (arrayFrom references (item :: items) rest).outcome = .ok obj := h
          exact ih rest.length (hn ▸ Nat.lt_succ_of_le hle) h rfl

theorem eq_dict_of_dictFrom {entries : Dict} {tokens : List Obj}
    (h : (dictFrom references entries tokens).outcome = .ok obj) : ∃ entries', obj = .dict entries' := by
  induction hn : tokens.length using Nat.strongRecOn generalizing entries tokens with
  | _ n ih =>
    cases tokens with
    | nil =>
      rw [dictFrom] at h
      cases h
      exact ⟨_, rfl⟩
    | cons first tokens =>
      rw [dictFrom.eq_def] at h
      simp only at h
      split at h
      · cases h
        exact ⟨_, rfl⟩
      · cases first with
        | name key =>
          cases tokens with
          | nil =>
            cases h
            exact ⟨_, rfl⟩
          | cons value tokens =>
            simp only at h
            generalize objectFrom references value tokens = p at h
            obtain ⟨outcome, dropped, rest, hle⟩ := p
            cases outcome with
            | error fault => cases h
            | ok value =>
              have h : (dictFrom references (insertEntry key value entries) rest).outcome = .ok obj := h
              refine ih rest.length ?_ h rfl
              rw [← hn, List.length_cons, List.length_cons]
              omega
        | _ => cases h

theorem objectFrom_simple {first : Obj} (hkeyword : ∀ text, first ≠ .keyword text)
    (hint : ∀ n, first ≠ .int n) (tokens : List Obj) :
    objectFrom references first tokens = ⟨.ok first, [], tokens, le_self⟩ := by
  rw [objectFrom]
  · exact hkeyword
  · exact hint

/-- An object off tokens of bytes is neither the end of the input nor a stream. -/
theorem ordinary_of_objectFrom {first : Obj} {tokens : List Obj} (hfirst : Lexer.IsLexeme first)
    (h : (objectFrom references first tokens).outcome = .ok obj) :
    obj.isEnd = false ∧ obj.isStream = false := by
  cases first with
  | keyword text =>
    rw [objectFrom] at h
    split at h
    · cases h
      exact ⟨rfl, rfl⟩
    · split at h
      · obtain ⟨entries, rfl⟩ := eq_dict_of_dictFrom h
        exact ⟨rfl, rfl⟩
      · split at h
        · obtain ⟨items, rfl⟩ := eq_array_of_arrayFrom h
          exact ⟨rfl, rfl⟩
        · cases h
  | int n =>
    rw [objectFrom] at h
    cases hs : suffix references n tokens with
    | nothing =>
      rw [hs] at h
      cases h
      exact ⟨rfl, rfl⟩
    | reference ref =>
      rw [hs] at h
      cases h
      exact ⟨rfl, rfl⟩
    | definition ref =>
      rw [hs] at h
      have h : (definitionFrom references ref (tokens.drop 2)).outcome = .ok obj := h
      obtain ⟨body, rfl⟩ := eq_defn_of_definitionFrom h
      exact ⟨rfl, rfl⟩
  | bool _ | real _ | str _ | name _ =>
    rw [objectFrom_simple (by simp) (by simp)] at h
    cases h
    exact ⟨rfl, rfl⟩
  | _ => exact hfirst.elim

end Outcomes

/-- The next object of a list of tokens, which is the end of the input if there is none. -/
def object (references : Bool) : (tokens : List Obj) → Parsed tokens.length
  | [] => ⟨.ok .endOfInput, [], [], le_self⟩
  | first :: tokens => (objectFrom references first tokens).after [] le_cons

/-- The outcomes of reading objects one after another, also after mistakes, up to the end. -/
def outcomes (references : Bool) : List Obj → List (Except Fault Obj)
  | [] => [.ok .endOfInput]
  | first :: tokens =>
    (objectFrom references first tokens).outcome ::
      outcomes references (objectFrom references first tokens).rest
termination_by tokens => tokens.length
decreasing_by exact Nat.lt_succ_of_le (objectFrom references first tokens).length_rest_le

end PdfSyntax.Grammar
