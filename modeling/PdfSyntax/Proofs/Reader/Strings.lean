import PdfSyntax.Proofs.Obj.Rendering
import PdfSyntax.Proofs.Reader.Decipher
import PdfSyntax.Proofs.Reader.Descent

/-!
# The strings taken from a written object

A reader that takes an object off the tokens that render it takes the strings of this object, each once
and in the order in which they are written: the tokens between them are no strings, and looking ahead
takes none. Every way of building objects keeps this.
-/

set_option autoImplicit false

namespace PdfSyntax

namespace Reader

/-- Settings with which all that is written can be read. -/
structure Fit (start : Reader Direct) : Prop extends start.settings.IsPlain where
  references : start.settings.references = true

/-- A reader without a key, at an object, with certain tokens ahead. -/
def Stands (w : Keying) (start : Reader Direct) (context : Ref) (tokens : List Obj)
    (r : Reader Direct) : Prop :=
  w.Plain context r ∧ Ahead start False [] tokens r

/-- Whether an object has just the strings that are taken off its tokens, whatever follows. -/
def Voices (first : Obj) (more : List Obj) (obj : Obj) : Prop :=
  ∀ {w : Keying} {start : Reader Direct} {context : Ref} {tokens : List Obj} {bound : Nat}
    {r : Reader Direct}, start.Fit → Clear tokens → 2 * (first :: (more ++ tokens)).length + 1 ≤ bound →
    Stands w start context (first :: (more ++ tokens)) r →
    stringsWithin bound r = obj.strings context

section Moves
variable {w : Keying} {start : Reader Direct} {context : Ref} {first obj : Obj}
variable {more tokens : List Obj} {r : Reader Direct}

theorem Stands.within (h : Stands w start context tokens r) (ref : Ref) :
    Stands w start ref tokens { r with context := ref } :=
  ⟨⟨⟨h.1.settings, h.1.decrypt, rfl⟩, h.1.tokens⟩, { h.2 with }⟩

/-- What is known of an activity with the key and of it over the tokens ahead, put together. -/
theorem exists_stands {α : Type} {m : Reading Direct α} {read : α} {tokens' : List Obj}
    {E : Failure → Reader Direct → Prop}
    (hplain : Ensures (w.Plain context) m (fun _ => w.Plain context) E)
    (hahead : Ensures (Ahead start False [] tokens) m
      (fun a s => a = read ∧ Ahead start False [] tokens' s) (fun _ _ => False))
    (h : Stands w start context tokens r) :
    ∃ s, m r = .ok read s ∧ Stands w start context tokens' s :=
  ((hplain.and hahead).weaken (fun _ h => h) (fun _ _ h => ⟨h.2.1, h.1, h.2.2⟩)
    (fun _ _ h => h.2)).exists_ok h

/-- A token that was read can be pushed back. -/
theorem push_stands (h : Stands w start context (first :: tokens) r) {s : Reader Direct}
    (hs : Stands w start context tokens s) :
    ∃ t, push first s = .ok () t ∧ Stands w start context (first :: tokens) t := by
  have htoken : IsToken first := .inl (h.2.admits first List.mem_cons_self).1
  have hahead : Ensures (Ahead start False [] tokens) (push first)
      (fun _ => Ahead start False [] (first :: tokens)) (fun _ _ => False) :=
    push_ahead (first :: tokens) h.2.admits rfl
  exact exists_stands (Keying.silent_push htoken).keeps
    (hahead.weaken (fun _ h => h) (fun _ _ h => ⟨rfl, h⟩) (fun _ _ h => h)) hs

variable (fit : start.Fit)
include fit

theorem token_stands (h : Stands w start context (first :: tokens) r) :
    ∃ s, token r = .ok first s ∧ Stands w start context tokens s :=
  exists_stands Keying.silent_token.keeps (token_ahead fit.toIsPlain) h

theorem suffix_stands {n : Int} (hn : 0 ≤ n ∧ n < Ref.idLimit) (h : Stands w start context tokens r) :
    ∃ s, suffix n r = .ok (Grammar.suffix true n tokens) s ∧
      Stands w start context
        (match Grammar.suffix true n tokens with | .nothing => tokens | _ => tokens.drop 2) s := by
  have hahead : Ensures (Ahead start False [] tokens) (suffix n) _ (fun _ _ => False) :=
    suffix_ahead fit.toIsPlain fit.references hn
  rw [fit.references] at hahead
  refine exists_stands (Keying.silent_suffix n).keeps (hahead.weaken (fun _ h => h) ?_ fun _ _ h => h) h
  intro suffix s hsuffix
  exact ⟨hsuffix.1, hsuffix.1 ▸ hsuffix.2⟩

theorem object_stands (bound : Nat) {bytes : Bytes} (hrenders : Renders bytes first more obj)
    (hclear : Clear tokens) (hbound : 2 * (first :: (more ++ tokens)).length + 1 ≤ bound)
    (h : Stands w start context (first :: (more ++ tokens)) r) :
    ∃ s, objectWithin bound r = .ok obj s ∧ Stands w start context tokens s := by
  have hgives : (Grammar.object start.settings.references (first :: (more ++ tokens))).Gives obj
      tokens := by
    rw [fit.references]
    exact (hrenders.gives hclear).after (Nat.le_succ _)
  refine exists_stands ((Keying.commutesWithin bound).object context).keeps
    (((all_reads fit.toIsPlain bound).1 [] _ hbound).weaken (fun _ h => h) ?_ ?_) h
  · intro read s hcomes
    rcases hcomes with ⟨houtcome, hahead⟩
    rw [hgives.outcome_eq] at houtcome
    rw [hgives.dropped_eq, hgives.rest_eq] at hahead
    exact ⟨(Except.ok.inj houtcome).symm, hahead⟩
  · intro e s hstops
    rcases hstops with ⟨⟨fault, offset, -, houtcome⟩, -⟩
    rw [hgives.outcome_eq] at houtcome
    cases houtcome

end Moves

section Builds

theorem voices_simple {token : Obj} (htoken : Lexer.IsLexeme token)
    (hkeyword : ∀ text, token ≠ .keyword text) (hint : ∀ n, token ≠ .int n) :
    Voices token [] token := by
  intro w start context tokens bound r fit _ hbound h
  obtain ⟨s, hread, hs⟩ := token_stands fit h
  obtain ⟨bound, rfl⟩ : ∃ b, bound = b + 1 := ⟨bound - 1, by omega⟩
  rw [stringsWithin, afterwards_of_ok hread]
  cases token with
  | keyword text => exact absurd rfl (hkeyword text)
  | int n => exact absurd rfl (hint n)
  | str data => exact congrArg (fun context => [PlacedString.mk context data]) hs.1.context
  | bool _ | real _ | name _ => rfl
  | _ => exact htoken.elim

theorem voices_null : Voices (.keyword "null") [] .null := by
  intro w start context tokens bound r fit _ hbound h
  obtain ⟨s, hread, hs⟩ := token_stands fit h
  obtain ⟨bound, rfl⟩ : ∃ b, bound = b + 1 := ⟨bound - 1, by omega⟩
  rw [stringsWithin, afterwards_of_ok hread]
  rfl

section Int
variable {w : Keying} {start : Reader Direct} {context : Ref} {tokens : List Obj} {bound : Nat} {n : Int}
variable {r : Reader Direct} (fit : start.Fit) (h : Stands w start context (.int n :: tokens) r)
include fit h

/-- After an integer only a definition has strings. -/
theorem strings_int (hplain : ∀ ref, Grammar.suffix true n tokens ≠ .definition ref) :
    stringsWithin (bound + 1) r = [] := by
  obtain ⟨s, hread, hs⟩ := token_stands fit h
  rw [stringsWithin, afterwards_of_ok hread]
  by_cases hn : s.settings.references ∧ 0 ≤ n ∧ n < Ref.idLimit
  · obtain ⟨t, hsuffix, -⟩ := suffix_stands fit hn.2 hs
    refine (if_pos hn).trans ?_
    rw [afterwards_of_ok hsuffix]
    cases heq : Grammar.suffix true n tokens with
    | definition ref => exact absurd heq (hplain ref)
    | nothing => rfl
    | reference ref => rfl
  · exact if_neg hn

theorem strings_definition (bound : Nat) {ref : Ref}
    (hsuffix : Grammar.suffix true n tokens = .definition ref) : ∃ s, stringsWithin (bound + 1) r = definitionStringsWithin bound s ∧
      Stands w start ref (tokens.drop 2) s := by
  obtain ⟨s, hread, hs⟩ := token_stands fit h
  have hn : 0 ≤ n ∧ n < Ref.idLimit := by
    by_contra hn
    rw [suffix_eq_nothing_of_not fun hall => hn hall.2] at hsuffix
    cases hsuffix
  have hreferences : s.settings.references = true := by
    rw [hs.2.settings_eq]
    exact fit.references
  obtain ⟨t, hlook, ht⟩ := suffix_stands fit hn hs
  rw [hsuffix] at hlook ht
  refine ⟨{ t with context := ref }, ?_, ht.within ref⟩
  rw [stringsWithin, afterwards_of_ok hread]
  refine (if_pos ⟨hreferences, hn⟩).trans ?_
  rw [afterwards_of_ok hlook]
  rfl

end Int

theorem voices_int (n : Int) : Voices (.int n) [] (.int n) := by
  intro w start context tokens bound r fit hclear hbound h
  obtain ⟨bound, rfl⟩ : ∃ b, bound = b + 1 := ⟨bound - 1, by omega⟩
  have hsuffix := hclear.suffix_eq n
  exact strings_int fit h fun ref => by rw [List.nil_append, hsuffix]; simp

theorem voices_ref {ref : Ref} (hsmall : ref.IsSmall) :
    Voices (.int ref.id) [.int ref.gen, .keyword "R"] (.ref ref) := by
  intro w start context tokens bound r fit _ hbound h
  obtain ⟨bound, rfl⟩ : ∃ b, bound = b + 1 := ⟨bound - 1, by omega⟩
  have hsuffix : Grammar.suffix true ref.id ([.int ref.gen, .keyword "R"] ++ tokens) = .reference ref :=
    suffix_of_isSmall hsmall (.keyword "R")
  exact strings_int fit h fun other => by rw [hsuffix]; simp

theorem voices_defn {ref : Ref} (hsmall : ref.IsSmall) {first body : Obj} {more : List Obj}
    (hbody : Voices first more body) :
    Voices (.int ref.id) (.int ref.gen :: .keyword "obj" :: first :: more ++ [.keyword "endobj"])
      (.defn ref body) := by
  intro w start context tokens bound r fit _ hbound h
  have hsuffix : Grammar.suffix true ref.id (.int ref.gen :: .keyword "obj" :: first :: more ++
      [.keyword "endobj"] ++ tokens) = .definition ref := suffix_of_isSmall hsmall (.keyword "obj")
  have htokens : (Obj.int ref.gen :: Obj.keyword "obj" :: first :: more ++ [Obj.keyword "endobj"] ++
      tokens).drop 2 = first :: (more ++ .keyword "endobj" :: tokens) := by simp
  have hclear : Clear (.keyword "endobj" :: tokens) := clear_of_ne_int (by simp) ⟨rfl, rfl⟩
  obtain ⟨bound, rfl⟩ : ∃ b, bound = b + 2 := ⟨bound - 2, by simp at hbound; omega⟩
  obtain ⟨s, hstrings, hs⟩ := strings_definition fit h (bound + 1) hsuffix
  rw [htokens] at hs
  rw [hstrings, definitionStringsWithin]
  exact hbody fit hclear (by simp at hbound ⊢; omega) hs

end Builds

section Collections
variable {w : Keying} {start : Reader Direct} {context : Ref} {parts : List Bytes}
variable {tokens objs after : List Obj} {entries : Dict} {bound : Nat} {r : Reader Direct}
variable (fit : start.Fit)
include fit

theorem arrayStrings_eq (bound : Nat) (hall : RendersAll Voices parts tokens objs)
    (hbound : 2 * (tokens ++ .keyword "]" :: after).length + 2 ≤ bound)
    (h : Stands w start context (tokens ++ .keyword "]" :: after) r) :
    arrayStringsWithin bound r = Obj.stringsAll context objs := by
  induction hall generalizing bound r with
  | nil =>
    obtain ⟨bound, rfl⟩ : ∃ b, bound = b + 1 := ⟨bound - 1, by omega⟩
    obtain ⟨s, hread, -⟩ := token_stands fit h
    rw [arrayStringsWithin, afterwards_of_ok hread]
    rfl
  | @cons bytes first more obj parts tokens objs hrenders hvoices hall ih =>
    obtain ⟨bound, rfl⟩ : ∃ b, bound = b + 1 := ⟨bound - 1, by omega⟩
    have hclear : Clear (tokens ++ .keyword "]" :: after) :=
      hall.clear (clear_of_ne_int (by simp) ⟨rfl, rfl⟩)
    rw [List.append_assoc, List.cons_append] at h hbound
    obtain ⟨s, hread, hs⟩ := token_stands fit h
    obtain ⟨t, hpush, ht⟩ := push_stands h hs
    obtain ⟨u, hobject, hu⟩ := object_stands fit bound hrenders hclear
      (by simp at hbound ⊢; omega) ht
    have hend := (h.2.admits first List.mem_cons_self).1.isEnd_eq_false
    rw [arrayStringsWithin, afterwards_of_ok hread, hend, hrenders.ne_close]
    refine (if_neg (by simp)).trans ?_
    rw [afterwards_of_ok hpush, afterwards_of_ok hobject,
      hvoices fit hclear (by simp at hbound ⊢; omega) ht, ih bound (by simp at hbound ⊢; omega) hu]
    rfl

theorem dictStrings_eq (bound : Nat) (hall : RendersEntries Voices parts tokens entries)
    (hbound : 2 * (tokens ++ .keyword ">>" :: after).length + 2 ≤ bound)
    (h : Stands w start context (tokens ++ .keyword ">>" :: after) r) :
    dictStringsWithin bound r = Obj.stringsEntries context entries := by
  induction hall generalizing bound r with
  | nil =>
    obtain ⟨bound, rfl⟩ : ∃ b, bound = b + 1 := ⟨bound - 1, by omega⟩
    obtain ⟨s, hread, -⟩ := token_stands fit h
    rw [dictStringsWithin, afterwards_of_ok hread]
    rfl
  | @cons key bytes first more value parts tokens entries _ hrenders hvoices hall ih =>
    obtain ⟨bound, rfl⟩ : ∃ b, bound = b + 1 := ⟨bound - 1, by omega⟩
    have hclear : Clear (tokens ++ .keyword ">>" :: after) :=
      hall.clear (clear_of_ne_int (by simp) ⟨rfl, rfl⟩)
    rw [List.append_assoc, List.cons_append, List.cons_append] at h hbound
    obtain ⟨s, hread, hs⟩ := token_stands fit h
    obtain ⟨t, hobject, ht⟩ := object_stands fit bound hrenders hclear
      (by simp at hbound ⊢; omega) hs
    have hlexeme := (hs.2.admits first List.mem_cons_self).1
    have hend := (Grammar.ordinary_of_objectFrom hlexeme (hrenders.gives hclear).outcome_eq).1
    rw [dictStringsWithin, afterwards_of_ok hread]
    change stringsWithin bound s ++ afterwards (objectWithin bound) _ s = _
    rw [afterwards_of_ok hobject, if_neg (by simp [hend]),
      hvoices fit hclear (by simp at hbound ⊢; omega) hs, ih bound (by simp at hbound ⊢; omega) ht]
    rfl

end Collections

section Builds

theorem voices_array {parts : List Bytes} {tokens objs : List Obj}
    (hall : RendersAll Voices parts tokens objs) :
    Voices (.keyword "[") (tokens ++ [.keyword "]"]) (.array objs) := by
  intro w start context after bound r fit _ hbound h
  obtain ⟨bound, rfl⟩ : ∃ b, bound = b + 1 := ⟨bound - 1, by omega⟩
  obtain ⟨s, hread, hs⟩ := token_stands fit h
  rw [List.append_assoc] at hs hbound
  rw [stringsWithin, afterwards_of_ok hread]
  exact arrayStrings_eq fit bound hall (by simp at hbound ⊢; omega) hs

theorem voices_dict {parts : List Bytes} {tokens : List Obj} {entries : Dict}
    (hall : RendersEntries Voices parts tokens entries) :
    Voices (.keyword "<<") (tokens ++ [.keyword ">>"]) (.dict entries) := by
  intro w start context after bound r fit _ hbound h
  obtain ⟨bound, rfl⟩ : ∃ b, bound = b + 1 := ⟨bound - 1, by omega⟩
  obtain ⟨s, hread, hs⟩ := token_stands fit h
  rw [List.append_assoc] at hs hbound
  rw [stringsWithin, afterwards_of_ok hread]
  exact dictStrings_eq fit bound hall (by simp at hbound ⊢; omega) hs

/-- Whatever can stand in a file has just the strings that are taken off its tokens. -/
theorem grows_voices : Grows Voices where
  simple := voices_simple
  null := voices_null
  int := voices_int
  ref := voices_ref
  array := voices_array
  dict := voices_dict
  defn hsmall _ hbody := voices_defn hsmall hbody

end Builds

/-- With the key, an object comes off its tokens deciphered, and all its strings are asked for. -/
theorem object_of_voices {w : Keying} {start r : Reader Direct} {context : Ref} {bytes : Bytes}
    {first obj : Obj} {more tokens : List Obj} (fit : start.Fit) (hrenders : Renders bytes first more obj)
    (hvoices : Voices first more obj) (hclear : Clear tokens)
    (h : Stands w start context (first :: (more ++ tokens)) r)
    (hanswers : w.Answers (obj.strings context)) (asked : List Request) :
    ∃ s, object (w.keyed asked r) = .ok (obj.decipher w.cipher context)
        (w.keyed (asked ++ w.requests (obj.strings context)) s) ∧
      Stands w start context tokens s := by
  have hbound : 2 * (first :: (more ++ tokens)).length + 1 ≤ 2 * r.weight + 2 := by
    have hweight := length_le_weight h.2
    omega
  obtain ⟨s, hobject, hs⟩ := object_stands fit _ hrenders hclear hbound h
  have hstrings : r.objectStrings = obj.strings context := hvoices fit hclear hbound h
  have hkeyed := (Keying.commutes_object context).keyed_eq r asked h.1 (hstrings ▸ hanswers)
  have hplain : object r = .ok obj s := hobject
  rw [hplain, hstrings] at hkeyed
  exact ⟨s, hkeyed, hs⟩

end Reader
end PdfSyntax
