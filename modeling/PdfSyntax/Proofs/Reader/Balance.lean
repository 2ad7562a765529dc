import PdfSyntax.Proofs.Reader.Awaiting
import PdfSyntax.Proofs.Reader.Watching

/-!
# Reading objects uses up the tokens that the grammar uses up

Where no streams are looked for, an object read off the tokens ahead leaves those ahead that the grammar
leaves, with or without a mistake. What a bracket opens begins with the tokens that follow the bracket. With
a key, and where the end is not tolerated, reading may be broken off before.
-/

set_option autoImplicit false

namespace PdfSyntax

/-- What is left of tokens after reading objects one after another, up to the end or to a mistake. -/
def Grammar.remainder (references : Bool) : List Obj → List Obj
  | [] => []
  | first :: tokens =>
    match (objectFrom references first tokens).outcome with
    | .ok _ => remainder references (objectFrom references first tokens).rest
    | .error _ => (objectFrom references first tokens).rest
termination_by tokens => tokens.length
decreasing_by exact Nat.lt_succ_of_le (objectFrom references first tokens).length_rest_le

section Remainder
variable {references : Bool} {first parsed : Obj} {tokens : List Obj} {fault : Fault}

theorem Grammar.remainder_of_ok (h : (objectFrom references first tokens).outcome = .ok parsed) :
    remainder references (first :: tokens) =
      remainder references (objectFrom references first tokens).rest := by
  rw [remainder, h]

theorem Grammar.remainder_of_error (h : (objectFrom references first tokens).outcome = .error fault) :
    remainder references (first :: tokens) = (objectFrom references first tokens).rest := by
  rw [remainder, h]

end Remainder

/-- Where an array or a dictionary begins, the tokens ahead are those that follow its bracket. -/
def Visit.Opens (whole : List Obj) (visit : Visit Buffer) : Prop :=
  ∃ used tokens, whole = used ++ .keyword visit.bracket :: tokens ∧ Reader.Awaits tokens visit.reader

namespace Watched

open Reader (Proceeds Picked Interrupted)

variable {medium : Medium} {start : Reader Buffer} {whole tokens : List Obj} {limit limit' : Nat}

/-- Whether neither or both of two objects are the end, and neither or both are streams. -/
def Alike (a b : Obj) : Prop :=
  a.isEnd = b.isEnd ∧ a.isStream = b.isStream

def Comes (medium : Medium) (start : Reader Buffer) (whole : List Obj) {limit : Nat}
    (p : Grammar.Parsed limit) (obj : Obj) (r : Reader Buffer) : Prop :=
  (∃ parsed, p.outcome = .ok parsed ∧ Alike obj parsed) ∧ Proceeds medium start whole p.rest r

def Stops (medium : Medium) (start : Reader Buffer) (whole : List Obj) {limit : Nat}
    (p : Grammar.Parsed limit) (e : Failure) (r : Reader Buffer) : Prop :=
  (∃ fault offset, e = .malformed fault offset ∧ p.outcome = .error fault ∧
      Proceeds medium start whole p.rest r) ∨
    Interrupted medium start whole e r

/-- A mistake in the objects leaves some tokens ahead, unless the reading is broken off. -/
def Breaks (medium : Medium) (start : Reader Buffer) (whole rest : List Obj) (e : Failure)
    (r : Reader Buffer) : Prop :=
  (∃ fault offset, e = .malformed fault offset ∧ Proceeds medium start whole rest r) ∨
    Interrupted medium start whole e r

theorem Stops.breaks {p : Grammar.Parsed limit} {e : Failure} {r : Reader Buffer}
    (h : Stops medium start whole p e r) : Breaks medium start whole p.rest e r :=
  h.imp_left fun ⟨fault, offset, he, _, hr⟩ => ⟨fault, offset, he, hr⟩

/-- From some tokens ahead an activity leaves those that are left when they are parsed, unless it is broken
off. -/
abbrev Parses (medium : Medium) (start : Reader Buffer) (whole tokens : List Obj)
    (m : Reading (Watched Buffer) Obj) {limit : Nat} (p : Grammar.Parsed limit) : Prop :=
  Ensures (Visit.Opens whole) (Proceeds medium start whole tokens) m (Comes medium start whole p)
    (Stops medium start whole p)

section Steps
variable {p : Grammar.Parsed limit} {α : Type} {Q : α → Reader Buffer → Prop}

/-- What does no more than break off leads to where a parse may stop. -/
theorem Unseen.or_interrupted {P : Reader Buffer → Prop} {m : Reading (Watched Buffer) α}
    {n : Reading Buffer α} (hsame : Unseen m n)
    (h : PdfSyntax.Ensures P n Q (Interrupted medium start whole)) :
    Ensures (Visit.Opens whole) P m Q (Stops medium start whole p) :=
  hsame.ensures (h.weaken (fun _ h => h) (fun _ _ h => h) fun _ _ h => .inr h)

theorem token_parses : Ensures (Visit.Opens whole) (Proceeds medium start whole tokens)
    Reader.token (Picked medium start whole tokens) (Stops medium start whole p) :=
  token_unseen.or_interrupted Reader.token_picked

theorem getSettings_parses : Ensures (Visit.Opens whole) (Proceeds medium start whole tokens)
    Reader.getSettings (fun settings r => settings = start.settings ∧ Proceeds medium start whole tokens r)
    (Stops medium start whole p) :=
  getSettings_unseen.or_interrupted Reader.getSettings_proceeds

theorem Parses.of_picked {token : Obj} {m : Reading (Watched Buffer) Obj} (tokens : List Obj)
    (h : Parses medium start whole tokens.tail m p) :
    Ensures (Visit.Opens whole) (Picked medium start whole tokens token) m (Comes medium start whole p)
      (Stops medium start whole p) :=
  h.from_imp fun _ hw => ⟨hw.1.proceeds, hw.2⟩

theorem pure_parses {obj parsed : Obj} {dropped : List String} {h : tokens.length ≤ limit}
    (halike : Alike obj parsed) :
    Parses medium start whole tokens (pure obj) (⟨.ok parsed, dropped, tokens, h⟩ : Grammar.Parsed limit) :=
  pure_ensures fun _ hr => ⟨⟨parsed, rfl, halike⟩, hr⟩

theorem fail_parses {fault : Fault} {dropped : List String} {h : tokens.length ≤ limit} :
    Parses medium start whole tokens (Reader.fail fault)
      (⟨.error fault, dropped, tokens, h⟩ : Grammar.Parsed limit) :=
  (fail_unseen fault).ensures (Reader.fail_ensures fun _ hr => .inl ⟨fault, _, rfl, rfl, hr⟩)

theorem push_parses {token : Obj} : Ensures (Visit.Opens whole) (Picked medium start whole tokens token)
    (Reader.push token) (fun _ => Proceeds medium start whole tokens) (Stops medium start whole p) :=
  (push_unseen token).ensures Reader.push_proceeds

theorem record_parses (level : Level) (message text : String) :
    Ensures (Visit.Opens whole) (Proceeds medium start whole tokens)
      (Reader.record level message (.ok text)) (fun _ => Proceeds medium start whole tokens)
      (Stops medium start whole p) :=
  (record_unseen level message (.ok text)).ensures (Reader.record_proceeds level message text)

/-- What follows an object starts with the tokens that the object leaves, and a mistake in the object is
the mistake of the whole. -/
theorem Parses.bind {q : Grammar.Parsed limit'} {m : Reading (Watched Buffer) Obj} {f : Obj → Reading (Watched Buffer) Obj}
    (h : Parses medium start whole tokens m p)
    (hok : ∀ obj parsed, p.outcome = .ok parsed → Alike obj parsed →
      Parses medium start whole p.rest (f obj) q)
    (herror : ∀ fault, p.outcome = .error fault → q.outcome = .error fault ∧ q.rest = p.rest) :
    Parses medium start whole tokens (m >>= f) q := by
  apply PdfSyntax.Ensures.bind (h.weaken (fun _ h => h) (fun _ _ h => h) ?_)
  · rintro obj w ⟨⟨⟨parsed, hparsed, halike⟩, hr⟩, hvisits⟩
    exact hok obj parsed hparsed halike w ⟨hr, hvisits⟩
  · rintro e w ⟨hstops, hvisits⟩
    refine ⟨?_, hvisits⟩
    rcases hstops with ⟨fault, offset, he, hfault, hr⟩ | hbroken
    · obtain ⟨houtcome, hrest⟩ := herror fault hfault
      exact .inl ⟨fault, offset, he, houtcome, hrest ▸ hr⟩
    · exact .inr hbroken

theorem Parses.after {m : Reading (Watched Buffer) Obj} (h : Parses medium start whole tokens m p)
    (dropped : List String) (hle : limit ≤ limit') :
    Parses medium start whole tokens m (p.after dropped hle) := h

theorem Parses.within {m : Reading (Watched Buffer) Obj} (h : Parses medium start whole tokens m p) (ref : Ref) :
    Parses medium start whole tokens (Reader.within ref m) p := by
  refine within_ensures ref h (fun _ hr => { hr with }) (fun _ hr => ⟨hr.1, { hr.2 with }⟩) ?_
  rintro e r context (⟨fault, offset, he, hfault, hr⟩ | hbroken)
  · exact .inl ⟨fault, offset, he, hfault, { hr with }⟩
  · right
    cases hbroken with
    | malformed hlexical hdecrypt hanswered => exact .malformed hlexical hdecrypt hanswered
    | cutShort hr => exact .cutShort { hr with }
    | refused hrequest hrefused hwhole hr => exact .refused hrequest hrefused hwhole { hr with }

theorem dictOrStream_parses (hstreams : start.settings.streams = false) {entries entries' : Dict}
    {dropped : List String} {h : tokens.length ≤ limit} :
    Parses medium start whole tokens (Reader.dictOrStream entries)
      (⟨.ok (.dict entries'), dropped, tokens, h⟩ : Grammar.Parsed limit) := by
  apply (dictOrStream_unseen entries).ensures
  apply Reader.getSettings_proceeds.bind_of_eq
  rw [hstreams]
  exact .pure fun _ hr => ⟨⟨_, rfl, rfl, rfl⟩, hr⟩

/-- The bracket that has just been taken stands in front of the tokens that are still ahead. -/
theorem note_parses {bracket : String} {m : Reading (Watched Buffer) Obj}
    (h : Parses medium start whole tokens m p) :
    Ensures (Visit.Opens whole) (Picked medium start whole (.keyword bracket :: tokens) (.keyword bracket))
      (note bracket >>= fun _ => m) (Comes medium start whole p) (Stops medium start whole p) := by
  have hopens : ∀ r, Picked medium start whole (.keyword bracket :: tokens) (.keyword bracket) r →
      Visit.Opens whole ⟨bracket, r⟩ := by
    intro r hr
    obtain ⟨used, hused⟩ := hr.suffix_whole
    exact ⟨used, tokens, hused.symm, hr.awaits⟩
  exact (note_ensures hopens).bind fun _ => Parses.of_picked (.keyword bracket :: tokens) h

end Steps

/-- One token ahead at least is needed for each two steps of the bound. -/
def ParsesWithin (medium : Medium) (start : Reader Buffer) (whole : List Obj) (bound margin : Nat)
    (m : Reading (Watched Buffer) Obj) (p : (tokens : List Obj) → Grammar.Parsed tokens.length) : Prop :=
  ∀ tokens, 2 * tokens.length + margin ≤ bound → Parses medium start whole tokens m (p tokens)

section Descent
variable {bound : Nat}

theorem object_succ_parses
    (definition : ∀ ref, ParsesWithin medium start whole bound 2 (note.definition bound ref)
      (Grammar.definitionFrom start.settings.references ref))
    (array : ParsesWithin medium start whole bound 2 (note.array bound [])
      (Grammar.arrayFrom start.settings.references []))
    (dict : ParsesWithin medium start whole bound 2 (note.dict bound [])
      (Grammar.dictFrom start.settings.references [])) :
    ParsesWithin medium start whole (bound + 1) 1 (note.object (bound + 1))
      (Grammar.object start.settings.references) := by
  intro tokens hbound
  apply token_parses.bind
  intro first
  refine .of_promise fun w hw => ?_
  have hfirst := hw.1.token_eq
  cases tokens with
  | nil =>
    rw [hfirst]
    exact (pure_parses ⟨rfl, rfl⟩).of_picked _
  | cons next tokens =>
    obtain rfl : first = next := hfirst
    have hlength : 2 * tokens.length + 2 ≤ bound := by
      rw [List.length_cons] at hbound
      omega
    have hsimple : ∀ obj : Obj, (∀ text, obj ≠ .keyword text) → (∀ n, obj ≠ .int n) →
        Grammar.object start.settings.references (obj :: tokens) =
          ⟨.ok obj, [], tokens, Grammar.le_cons⟩ := by
      intro obj hkeyword hint
      rw [Grammar.object, Grammar.objectFrom_simple hkeyword hint]
      rfl
    cases first with
    | keyword text =>
      rw [Grammar.object, Grammar.objectFrom]
      by_cases hnull : text = "null"
      · subst hnull
        exact (pure_parses ⟨rfl, rfl⟩).of_picked _
      · by_cases hdict : text = "<<"
        · subst hdict
          exact note_parses ((dict tokens hlength).after [] _)
        · by_cases harray : text = "["
          · subst harray
            exact note_parses ((array tokens hlength).after [] _)
          · simp only [Reader.objectFrom, if_neg hnull, if_neg hdict, if_neg harray]
            exact Parses.of_picked _ fail_parses
    | str data =>
      rw [hsimple _ (by simp) (by simp)]
      apply ((decipher_unseen data).or_interrupted Reader.decipher_proceeds).bind
      exact fun plain => pure_parses ⟨rfl, rfl⟩
    | int n =>
      rw [Grammar.object, Grammar.objectFrom]
      refine Parses.of_picked (.int n :: tokens) ?_
      apply Ensures.bind_of_eq getSettings_parses
      apply PdfSyntax.Ensures.ite
      · intro hbegins
        apply ((suffix_unseen n).or_interrupted (Reader.suffix_proceeds hbegins.1 hbegins.2)).bind
        intro suffix
        refine Ensures.of_fact fun hsuffix => ?_
        have hsuffix : suffix = Grammar.suffix start.settings.references n tokens := hsuffix
        rw [← hsuffix]
        cases suffix with
        | nothing => exact pure_parses ⟨rfl, rfl⟩
        | reference ref => exact pure_parses ⟨rfl, rfl⟩
        | definition ref =>
          have hdrop : 2 * (tokens.drop 2).length + 2 ≤ bound := by
            rw [List.length_drop]
            omega
          exact (((definition ref (tokens.drop 2) hdrop).within ref).after [] _).after [] _
      · intro hbegins
        rw [Reader.suffix_eq_nothing_of_not hbegins]
        exact pure_parses ⟨rfl, rfl⟩
    | _ =>
      rw [hsimple _ (by simp) (by simp)]
      exact (pure_parses ⟨rfl, rfl⟩).of_picked _

variable (hwhole : ∀ token ∈ whole, Lexer.IsLexeme token)
include hwhole

theorem isLexeme_of_proceeds {token : Obj} {r : Reader Buffer}
    (h : Proceeds medium start whole (token :: tokens) r) : Lexer.IsLexeme token :=
  hwhole token (h.suffix.subset List.mem_cons_self)

theorem definition_succ_parses (ref : Ref)
    (object : ParsesWithin medium start whole bound 1 (note.object bound)
      (Grammar.object start.settings.references)) :
    ParsesWithin medium start whole (bound + 1) 2 (note.definition (bound + 1) ref)
      (Grammar.definitionFrom start.settings.references ref) := by
  intro tokens hbound
  have hobject := object tokens (by omega)
  cases tokens with
  | nil =>
    rw [Grammar.definitionFrom]
    refine Parses.bind hobject ?_ (fun _ h => by cases h)
    rintro body parsed hparsed ⟨-, hstream⟩
    cases hparsed
    rw [hstream]
    apply token_parses.bind
    intro next
    refine .of_promise fun w hw => ?_
    rw [hw.1.token_eq]
    exact push_parses.bind fun _ => fail_parses
  | cons first tokens =>
    refine .of_promise fun w hw => ?_
    have hordinary := fun obj => @Grammar.ordinary_of_objectFrom start.settings.references obj first
      tokens (isLexeme_of_proceeds hwhole hw.1)
    have hobject : Parses medium start whole (first :: tokens) (note.object bound)
      (Grammar.objectFrom start.settings.references first tokens) := hobject
    rw [Grammar.definitionFrom]
    generalize Grammar.objectFrom start.settings.references first tokens = p at hobject hordinary ⊢
    obtain ⟨outcome, dropped, rest, hle⟩ := p
    refine Parses.bind hobject ?_ ?_
    · rintro body parsed hparsed ⟨-, hstream⟩
      obtain rfl : outcome = .ok parsed := hparsed
      rw [hstream, (hordinary parsed rfl).2]
      apply token_parses.bind
      intro next
      refine .of_promise fun w hw => ?_
      have hnext := hw.1.token_eq
      cases rest with
      | nil =>
        rw [hnext]
        exact push_parses.bind fun _ => fail_parses
      | cons first rest =>
        obtain rfl : next = first := hnext
        by_cases hend : next.isKeyword "endobj" = true
        · simp only [if_pos hend]
          exact (pure_parses ⟨rfl, rfl⟩).of_picked _
        · simp only [if_neg hend]
          exact push_parses.bind fun _ => fail_parses
    · intro fault hfault
      obtain rfl : outcome = .error fault := hfault
      exact ⟨rfl, rfl⟩

theorem array_succ_parses
    (object : ParsesWithin medium start whole bound 1 (note.object bound)
      (Grammar.object start.settings.references))
    (array : ∀ items items', ParsesWithin medium start whole bound 2 (note.array bound items)
      (Grammar.arrayFrom start.settings.references items')) (items items' : List Obj) :
    ParsesWithin medium start whole (bound + 1) 2 (note.array (bound + 1) items)
      (Grammar.arrayFrom start.settings.references items') := by
  intro tokens hbound
  refine .of_promise fun w hw => ?_
  apply token_parses.bind
  intro next
  refine .of_promise fun w' hw' => ?_
  have hnext := hw'.1.token_eq
  cases tokens with
  | nil =>
    rw [hnext, Grammar.arrayFrom]
    exact (pure_parses ⟨rfl, rfl⟩).of_picked _
  | cons first tokens =>
    obtain rfl : next = first := hnext
    have hlexeme := isLexeme_of_proceeds hwhole hw.1
    have hobject : Parses medium start whole (next :: tokens) (note.object bound)
      (Grammar.objectFrom start.settings.references next tokens) := object _ (by omega)
    rw [Grammar.arrayFrom, hlexeme.isEnd_eq_false, Bool.false_or]
    by_cases hclose : next.isKeyword "]" = true
    · rw [if_pos hclose, if_pos hclose]
      exact (pure_parses ⟨rfl, rfl⟩).of_picked _
    · rw [if_neg hclose, if_neg hclose]
      apply push_parses.bind
      intro _
      generalize Grammar.objectFrom start.settings.references next tokens = p at hobject ⊢
      obtain ⟨outcome, dropped, rest, hle⟩ := p
      refine Parses.bind hobject ?_ ?_
      · intro item parsed hparsed _
        obtain rfl : outcome = .ok parsed := hparsed
        have hrest : 2 * rest.length + 2 ≤ bound := by
          rw [List.length_cons] at hbound
          omega
        exact (array (item :: items) (parsed :: items') rest hrest).after _ _
      · intro fault hfault
        obtain rfl : outcome = .error fault := hfault
        exact ⟨rfl, rfl⟩

variable (hstreams : start.settings.streams = false)
include hstreams

theorem dict_succ_parses
    (object : ParsesWithin medium start whole bound 1 (note.object bound)
      (Grammar.object start.settings.references))
    (dict : ∀ entries entries', ParsesWithin medium start whole bound 2 (note.dict bound entries)
      (Grammar.dictFrom start.settings.references entries')) (entries entries' : Dict) :
    ParsesWithin medium start whole (bound + 1) 2 (note.dict (bound + 1) entries)
      (Grammar.dictFrom start.settings.references entries') := by
  intro tokens hbound
  refine .of_promise fun w hw => ?_
  apply token_parses.bind
  intro next
  refine .of_promise fun w' hw' => ?_
  have hnext := hw'.1.token_eq
  cases tokens with
  | nil =>
    rw [hnext, Grammar.dictFrom]
    exact (dictOrStream_parses hstreams).of_picked _
  | cons first tokens =>
    obtain rfl : next = first := hnext
    have hlexeme := isLexeme_of_proceeds hwhole hw.1
    rw [Grammar.dictFrom.eq_def, hlexeme.isEnd_eq_false, Bool.false_or]
    simp only
    by_cases hclose : next.isKeyword ">>" = true
    · rw [if_pos hclose, if_pos hclose]
      exact (dictOrStream_parses hstreams).of_picked _
    · rw [if_neg hclose, if_neg hclose]
      cases next with
      | name key =>
        rw [List.length_cons] at hbound
        have hobject := object tokens (by omega)
        refine Parses.of_picked (.name key :: tokens) ?_
        cases tokens with
        | nil =>
          refine Parses.bind hobject ?_ (fun _ h => by cases h)
          rintro value parsed hparsed ⟨hend, -⟩
          cases hparsed
          rw [hend, Reader.render_valueless]
          exact (record_parses _ _ _).bind fun _ => dictOrStream_parses hstreams
        | cons first tokens =>
          refine .of_promise fun w hw => ?_
          have hordinary := fun obj => @Grammar.ordinary_of_objectFrom start.settings.references obj
            first tokens (isLexeme_of_proceeds hwhole hw.1)
          have hobject : Parses medium start whole (first :: tokens) (note.object bound)
            (Grammar.objectFrom start.settings.references first tokens) := hobject
          simp only
          generalize Grammar.objectFrom start.settings.references first tokens = p at hobject hordinary ⊢
          obtain ⟨outcome, dropped, rest, hle⟩ := p
          refine Parses.bind hobject ?_ ?_
          · rintro value parsed hparsed ⟨hend, -⟩
            obtain rfl : outcome = .ok parsed := hparsed
            rw [hend, (hordinary parsed rfl).1]
            have hrest : 2 * rest.length + 2 ≤ bound := by
              rw [List.length_cons] at hbound
              omega
            have hdict := dict (insertEntry key value entries) (insertEntry key parsed entries') rest hrest
            exact hdict.after _ _
          · intro fault hfault
            obtain rfl : outcome = .error fault := hfault
            exact ⟨rfl, rfl⟩
      | _ => exact Parses.of_picked _ fail_parses

/-- All four activities that read an object, by induction on the bound that they share. What they have read
so far makes no difference to the tokens they use up. -/
theorem all_parse (bound : Nat) :
    ParsesWithin medium start whole bound 1 (note.object bound)
      (Grammar.object start.settings.references) ∧
    (∀ ref, ParsesWithin medium start whole bound 2 (note.definition bound ref)
      (Grammar.definitionFrom start.settings.references ref)) ∧
    (∀ items items', ParsesWithin medium start whole bound 2 (note.array bound items)
      (Grammar.arrayFrom start.settings.references items')) ∧
    (∀ entries entries', ParsesWithin medium start whole bound 2 (note.dict bound entries)
      (Grammar.dictFrom start.settings.references entries')) := by
  induction bound with
  | zero =>
    refine ⟨?_, fun _ => ?_, fun _ _ => ?_, fun _ _ => ?_⟩
    all_goals
      intro tokens hbound
      omega
  | succ bound ih =>
    obtain ⟨object, definition, array, dict⟩ := ih
    exact ⟨object_succ_parses definition (array [] []) (dict [] []),
      fun ref => definition_succ_parses hwhole ref object, array_succ_parses hwhole object array,
      dict_succ_parses hwhole hstreams object dict⟩

theorem next_parses :
    Parses medium start whole tokens note.next (Grammar.object start.settings.references tokens) := by
  intro w hw
  have hlength : tokens.length ≤ w.weight := hw.1.length_le_weight
  exact (all_parse hwhole hstreams (2 * w.weight + 2)).1 tokens (by omega) w hw

/-- Each object uses up a token at least, so the bound is never reached. -/
theorem objectsWithin_parses (bound : Nat) (hlength : tokens.length < bound) :
    Ensures (Visit.Opens whole) (Proceeds medium start whole tokens) (note.objectsWithin bound)
      (fun _ => Proceeds medium start whole (Grammar.remainder start.settings.references tokens))
      (Breaks medium start whole (Grammar.remainder start.settings.references tokens)) := by
  induction bound generalizing tokens with
  | zero => omega
  | succ bound ih =>
    refine .of_promise fun w hw => ?_
    have hobject : Parses medium start whole tokens note.next
      (Grammar.object start.settings.references tokens) := next_parses hwhole hstreams
    cases tokens with
    | nil =>
      rw [Grammar.remainder]
      apply PdfSyntax.Ensures.bind (hobject.weaken (fun _ h => h) (fun _ _ h => h) ?_)
      · rintro obj w ⟨⟨⟨parsed, hparsed, hend, -⟩, hr⟩, hvisits⟩
        cases hparsed
        rw [hend]
        exact ⟨hr, hvisits⟩
      · exact fun e w h => ⟨h.1.breaks, h.2⟩
    | cons first tokens =>
      have hordinary := fun obj => @Grammar.ordinary_of_objectFrom start.settings.references obj
        first tokens (isLexeme_of_proceeds hwhole hw.1)
      have hobject : Parses medium start whole (first :: tokens) note.next
        (Grammar.objectFrom start.settings.references first tokens) := hobject
      apply PdfSyntax.Ensures.bind (hobject.weaken (fun _ h => h) (fun _ _ h => h) ?_)
      · rintro obj w ⟨⟨⟨parsed, hparsed, hend, -⟩, hr⟩, hvisits⟩
        rw [hend, (hordinary parsed hparsed).1, Grammar.remainder_of_ok hparsed]
        have hle := (Grammar.objectFrom start.settings.references first tokens).length_rest_le
        rw [List.length_cons] at hlength
        exact Ensures.returns (ih (by omega)) (obj :: ·) w ⟨hr, hvisits⟩
      · rintro e w ⟨⟨fault, offset, he, hfault, hr⟩ | hbroken, hvisits⟩
        · rw [Grammar.remainder_of_error hfault]
          exact ⟨.inl ⟨fault, offset, he, hr⟩, hvisits⟩
        · exact ⟨.inr hbroken, hvisits⟩

theorem objects_parses : Ensures (Visit.Opens whole) (Proceeds medium start whole tokens) note.objects
    (fun _ => Proceeds medium start whole (Grammar.remainder start.settings.references tokens))
    (Breaks medium start whole (Grammar.remainder start.settings.references tokens)) := by
  intro w hw
  have hlength : tokens.length ≤ w.weight := hw.1.length_le_weight
  exact objectsWithin_parses hwhole hstreams (w.weight + 1) (by omega) w hw

end Descent
end Watched
end PdfSyntax
