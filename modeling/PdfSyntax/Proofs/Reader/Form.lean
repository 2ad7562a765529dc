import PdfSyntax.Proofs.Input.Ahead
import PdfSyntax.Proofs.Obj.Form
import PdfSyntax.Proofs.Reader.Invariant
import PdfSyntax.Proofs.Reader.Termination

/-!
# Only well-formed objects are read

The end of the input is a token like any other, and it is pushed back like any other. But where it comes
out nothing can follow it: the cursor yields no byte any more, and nothing but the end is pushed back.
So what is read in pieces may be cut short by the end, and the end never becomes a part of it. Keywords
never do either, since what is read begins with a keyword only if the keyword stands for something else.
-/

set_option autoImplicit false

namespace PdfSyntax

variable {σ α : Type}

/-- Cursors that yield no byte any more where they have come to the end, wherever they go from there
without a seek. -/
structure Cursor.Ends [Cursor σ] (I D : σ → Prop) : Prop where
  law : Cursor.Invariant I
  isEnded : ∀ {tolerant c b c'}, I c → Cursor.next tolerant c = .ok (some b) c' →
    Cursor.isEnded c' = false
  ended : ∀ {tolerant c c'}, I c → Cursor.next tolerant c = .ok none c' → D c'
  next : ∀ tolerant, Ensures D (Cursor.next tolerant) (fun byte c => byte = none ∧ D c) (fun _ => D)
  back : ∀ {c}, D c → D (Cursor.back c)
  forward : ∀ tolerant target, Ensures D (Cursor.forward tolerant target) (fun _ => D) (fun _ => D)

namespace Cursor.Ends
variable [Cursor σ] {I D : σ → Prop} (ends : Cursor.Ends I D)
include ends

theorem lex (tolerant : Bool) (state : Lexer.State) : Ensures I (Reader.lex tolerant state)
    (fun verdict c => I c ∧ ∀ token, verdict = .token token →
      token.IsSound ∨ (token = .endOfInput ∧ D c))
    (fun _ => I) := by
  have hkept : ∀ {c c' : σ} {byte : Option UInt8}, I c → Cursor.next tolerant c = .ok byte c' → I c' := by
    intro c c' byte hc hr
    have hnext := ends.law.next tolerant c hc
    rw [hr] at hnext
    exact hnext
  have hsound : ∀ {state : Lexer.State} {c c' : σ} {b : UInt8} {token : Obj}, I c →
      Cursor.next tolerant c = .ok (some b) c' →
      (state.take (Cursor.isEnded c') b).verdict? = some (.token token) → token.IsSound := by
    intro state c c' b token hc hr hs
    rw [Lexer.State.take_of_not_ended (ends.isEnded hc hr)] at hs
    exact (Lexer.isMade_of_step hs).isSound
  refine Reader.lex_keeps (ends.law.next tolerant) ?finished ?done ?doneBefore state
  case finished =>
    intro state c c' verdict hc hr hfill
    refine ⟨hkept hc hr, fun token htoken => ?_⟩
    have hfinish := (Lexer.finish_of_fill hfill).trans htoken
    exact (Lexer.isMade_of_finish hfinish).imp Lexer.IsMade.isSound fun h => ⟨h, ends.ended hc hr⟩
  case done =>
    intro state c b c' verdict hc hr hs
    refine ⟨hkept hc hr, ?_⟩
    rintro token rfl
    exact .inl (hsound hc hr (by rw [hs]; rfl))
  case doneBefore =>
    intro state c b c' verdict hc hr hs
    refine ⟨ends.law.back (hkept hc hr), ?_⟩
    rintro token rfl
    exact .inl (hsound hc hr (by rw [hs]; rfl))

/-- In front of a token the end is the end of the input, be it met once or again. -/
theorem lex_of_ended (tolerant : Bool) : Ensures D (Reader.lex tolerant .gap)
    (fun verdict c => verdict = .token .endOfInput ∧ D c) (fun _ => D) := by
  intro c hc
  have hnext := ends.next tolerant c hc
  cases hr : Cursor.next tolerant c with
  | error e c' =>
    rw [hr] at hnext
    rw [Reader.lex_of_error hr]
    exact hnext
  | ok byte c' =>
    rw [hr] at hnext
    obtain ⟨rfl, hended⟩ := hnext
    rw [Reader.lex_of_end hr rfl]
    exact ⟨rfl, hended⟩

end Cursor.Ends

namespace Reader

/-- A reader that has pushed back nothing but sound tokens, and the end only where it is: behind all
other tokens, where the cursor yields no byte any more. -/
structure Sound (I D : σ → Prop) (r : Reader σ) : Prop where
  cursor : I r.cursor
  tokens : ∀ token ∈ r.pending, token.IsSound ∨ token = .endOfInput
  ends_last : r.pending.Pairwise fun a b => a = .endOfInput → b = .endOfInput
  ended : .endOfInput ∈ r.pending → D r.cursor

/-- A reader of which nothing but the end can come out any more. -/
structure Ended (I D : σ → Prop) (r : Reader σ) : Prop where
  cursor : I r.cursor
  ended : D r.cursor
  pending : ∀ token ∈ r.pending, token = .endOfInput

/-- A reader that has come to something as wished for, or to the end. -/
def Gives (I D : σ → Prop) (Wished : Obj → Prop) (obj : Obj) (r : Reader σ) : Prop :=
  (Wished obj ∧ Sound I D r) ∨ (obj = .endOfInput ∧ Ended I D r)

/-- A reader that has made an object. -/
def Makes (I D : σ → Prop) (obj : Obj) (r : Reader σ) : Prop :=
  obj.IsWellFormed ∧ Sound I D r

abbrev KeepsSound (I D : σ → Prop) (m : Reading σ α) : Prop :=
  Ensures (Sound I D) m (fun _ => Sound I D) (fun _ => Sound I D)

section Moves
variable {I D : σ → Prop} {E : Failure → Reader σ → Prop}

theorem Ended.sound {r : Reader σ} (h : Ended I D r) : Sound I D r where
  cursor := h.cursor
  tokens token ht := .inr (h.pending token ht)
  ends_last := List.pairwise_iff_forall_sublist.mpr fun hab _ =>
    h.pending _ (hab.subset (List.mem_cons_of_mem _ List.mem_cons_self))
  ended _ := h.ended

theorem Gives.sound {Wished : Obj → Prop} {obj : Obj} {r : Reader σ} (h : Gives I D Wished obj r) :
    Sound I D r := by
  rcases h with ⟨-, h⟩ | ⟨-, h⟩
  · exact h
  · exact h.sound

theorem Gives.of_ne_end {Wished : Obj → Prop} {obj : Obj} {r : Reader σ} (h : Gives I D Wished obj r)
    (hend : obj.isEnd = false) : Wished obj ∧ Sound I D r := by
  rcases h with h | ⟨rfl, -⟩
  · exact h
  · cases hend

theorem push_sound {token : Obj} (h : token.IsSound) :
    Ensures (Sound I D) (push token) (fun _ => Sound I D) E := by
  intro r hr
  refine ⟨hr.cursor, ?_, ?_, ?_⟩
  · intro t ht
    rcases List.mem_cons.mp ht with rfl | ht
    · exact .inl h
    · exact hr.tokens t ht
  · exact .cons (fun _ _ hend => absurd hend h.ne_end) hr.ends_last
  · intro hmem
    rcases List.mem_cons.mp hmem with hend | hmem
    · exact absurd hend.symm h.ne_end
    · exact hr.ended hmem

theorem push_ended : Ensures (Ended I D) (push .endOfInput) (fun _ => Sound I D) E := by
  intro r hr
  have hafter : Ended I D { r with pending := .endOfInput :: r.pending } := by
    refine ⟨hr.cursor, hr.ended, fun t ht => ?_⟩
    rcases List.mem_cons.mp ht with rfl | ht
    · rfl
    · exact hr.pending t ht
  exact hafter.sound

/-- What came out can be pushed back. -/
theorem push_given (token : Obj) :
    Ensures (Gives I D Obj.IsSound token) (push token) (fun _ => Sound I D) E := by
  rintro r (⟨htoken, hr⟩ | ⟨rfl, hr⟩)
  · exact push_sound (E := E) htoken r hr
  · exact push_ended (E := E) r hr

theorem onCursor_sound {m : EStateM Failure σ α} (hI : Ensures I m (fun _ => I) (fun _ => I))
    (hD : Ensures D m (fun _ => D) (fun _ => D)) : KeepsSound I D (onCursor m) := by
  intro r hr
  have hcursor := hI r.cursor hr.cursor
  have hended := hD r.cursor
  cases hm : m r.cursor with
  | ok a c =>
    rw [hm] at hcursor hended
    rw [onCursor_of_ok hm]
    exact ⟨hcursor, hr.tokens, hr.ends_last, fun hmem => hended (hr.ended hmem)⟩
  | error e c =>
    rw [hm] at hcursor hended
    rw [onCursor_of_error hm]
    exact ⟨hcursor, hr.tokens, hr.ends_last, fun hmem => hended (hr.ended hmem)⟩

theorem decipher_sound (data : Bytes) : KeepsSound I D (decipher data) :=
  decipher_ensures (fun _ h => { h with }) data

theorem getSettings_sound : KeepsSound I D (getSettings (σ := σ)) :=
  fun _ h => h

theorem within_sound {m : Reading σ α} {Q : α → Prop} (ref : Ref)
    (h : Ensures (Sound I D) m (fun a r => Q a ∧ Sound I D r) (fun _ => Sound I D)) :
    Ensures (Sound I D) (within ref m) (fun a r => Q a ∧ Sound I D r) (fun _ => Sound I D) := by
  intro r hr
  have hinner := h { r with context := ref } { hr with }
  simp only [within]
  cases hm : m { r with context := ref } with
  | ok a r' =>
    rw [hm] at hinner
    obtain ⟨ha, hr'⟩ := hinner
    exact ⟨ha, { hr' with }⟩
  | error e r' =>
    rw [hm] at hinner
    exact { hinner with }

theorem pop_sound : KeepsSound I D (pop (σ := σ)) := by
  intro r hr
  obtain ⟨cursor, pending, settings, context, decrypt, told, records, requests⟩ := r
  cases pending with
  | nil => exact hr
  | cons token pending =>
    exact ⟨hr.cursor, fun t ht => hr.tokens t (List.mem_cons_of_mem _ ht), hr.ends_last.of_cons,
      fun hmem => hr.ended (List.mem_cons_of_mem _ hmem)⟩

end Moves

section Reading
variable [Cursor σ] {I D : σ → Prop}

theorem fail_sound (fault : Fault) {Q : α → Reader σ → Prop} :
    Ensures (Sound I D) (fail fault) Q (fun _ => Sound I D) :=
  fail_ensures fun _ h => h

theorem record_sound (level : Level) (message text : String) :
    KeepsSound I D (record (σ := σ) level message (.ok text)) := by
  intro r hr
  obtain ⟨told, records, heq⟩ := exists_recorded level message text r
  rw [record_eq, heq]
  exact { hr with }

variable (ends : Cursor.Ends I D)
include ends

theorem token_sound : Ensures (Sound I D) token (Gives I D Obj.IsSound) (fun _ => Sound I D) := by
  intro r hr
  cases hp : r.pending with
  | cons first rest =>
    rw [token_of_pending hp]
    have hlast := hr.ends_last
    rw [hp] at hlast
    rcases hr.tokens first (hp ▸ List.mem_cons_self) with hfirst | rfl
    · refine .inl ⟨hfirst, hr.cursor, fun t ht => hr.tokens t (hp ▸ List.mem_cons_of_mem _ ht),
        hlast.of_cons, fun hmem => hr.ended (hp ▸ List.mem_cons_of_mem _ hmem)⟩
    · exact .inr ⟨rfl, hr.cursor, hr.ended (hp ▸ List.mem_cons_self),
        fun t ht => List.rel_of_pairwise_cons hlast ht rfl⟩
  | nil =>
    rw [token_of_no_pending hp]
    have hlex := ends.lex r.settings.tolerant .gap r.cursor hr.cursor
    have hmoved : ∀ {c}, I c → Sound I D { r with cursor := c } := by
      intro c hc
      refine ⟨hc, hr.tokens, hr.ends_last, fun hmem => ?_⟩
      rw [hp] at hmem
      cases hmem
    cases hresult : lex r.settings.tolerant .gap r.cursor with
    | error e c =>
      rw [hresult] at hlex
      exact hmoved hlex
    | ok verdict c =>
      rw [hresult] at hlex
      obtain ⟨hc, htoken⟩ := hlex
      cases verdict with
      | token token =>
        rcases htoken token rfl with hsound | ⟨rfl, hended⟩
        · exact .inl ⟨hsound, hmoved hc⟩
        · refine .inr ⟨rfl, hc, hended, fun t ht => ?_⟩
          rw [hp] at ht
          cases ht
      | fault fault => exact hmoved hc
      | cutShort string =>
        obtain ⟨told, records, heq⟩ :=
          exists_recorded .warning cutShortMessage cutShortMessage { r with cursor := c }
        have hafter := hmoved hc
        simp only [judged, heq]
        exact .inl ⟨.inr (.str string), { hafter with }⟩

/-- Behind the end there is nothing but the end. -/
theorem token_ended : Ensures (Ended I D) token
    (fun token r => token = .endOfInput ∧ Ended I D r) (fun _ => Sound I D) := by
  intro r hr
  cases hp : r.pending with
  | cons first rest =>
    rw [token_of_pending hp]
    exact ⟨hr.pending first (hp ▸ List.mem_cons_self), hr.cursor, hr.ended,
      fun t ht => hr.pending t (hp ▸ List.mem_cons_of_mem _ ht)⟩
  | nil =>
    rw [token_of_no_pending hp]
    have hlex := ends.lex r.settings.tolerant .gap r.cursor hr.cursor
    have hended := ends.lex_of_ended r.settings.tolerant r.cursor hr.ended
    cases hresult : lex r.settings.tolerant .gap r.cursor with
    | error e c =>
      rw [hresult] at hlex hended
      exact Ended.sound ⟨hlex, hended, hr.pending⟩
    | ok verdict c =>
      rw [hresult] at hlex hended
      obtain ⟨rfl, hc⟩ := hended
      exact ⟨rfl, hlex.1, hc, hr.pending⟩

theorem byte_sound : KeepsSound I D (byte (σ := σ)) := by
  have hbyte : KeepsSound I D (byte? (σ := σ)) :=
    getSettings_sound.bind fun settings => onCursor_sound (ends.law.next settings.tolerant)
      ((ends.next settings.tolerant).weaken (fun _ h => h) (fun _ _ h => h.2) (fun _ _ h => h))
  exact hbyte.bind fun _ => .pure fun _ h => h

theorem back_sound : KeepsSound I D (back (σ := σ)) :=
  fun _ hr => ⟨ends.law.back hr.cursor, hr.tokens, hr.ends_last, fun hmem => ends.back (hr.ended hmem)⟩

theorem streamStart_sound : KeepsSound I D (streamStart (σ := σ)) := by
  apply (byte_sound ends).bind
  intro first
  apply Ensures.ite
  · intro _
    apply (byte_sound ends).bind
    intro second
    apply Ensures.ite
    · exact fun _ => (back_sound ends).bind fun _ => record_sound _ _ _
    · exact fun _ => .pure fun _ h => h
  · intro _
    apply Ensures.ite
    · exact fun _ => fail_sound _
    · exact fun _ => .pure fun _ h => h

theorem suffix_sound {id : Int} (hid : 0 ≤ id ∧ id < Ref.idLimit) :
    Ensures (Sound I D) (suffix id)
      (fun suffix r => match suffix with
        | .nothing => Sound I D r
        | .reference ref => ref.IsSmall ∧ Sound I D r
        | .definition ref => ref.IsSmall ∧ Sound I D r)
      (fun _ => Sound I D) := by
  apply (token_sound ends).bind
  intro second
  cases hnat : second.natural? Ref.genLimit with
  | none => exact (push_given second).bind fun _ => .pure fun _ h => h
  | some gen =>
    obtain ⟨rfl, hgen⟩ := eq_int_of_natural? hnat
    refine .of_promise fun s hs => ?_
    have hsecond : Obj.IsSound (.int gen) := (hs.of_ne_end rfl).1
    have hsmall : Ref.IsSmall ⟨id, gen⟩ := ⟨hid.1, hid.2, hgen.1, hgen.2⟩
    refine Ensures.from_imp ?_ fun r h => h.sound
    apply (token_sound ends).bind
    intro third
    apply Ensures.ite
    · exact fun _ => .pure fun _ h => ⟨hsmall, h.sound⟩
    · intro _
      apply Ensures.ite
      · exact fun _ => .pure fun _ h => ⟨hsmall, h.sound⟩
      · exact fun _ => (push_given third).bind fun _ => (push_sound hsecond).bind fun _ =>
          .pure fun _ h => h

theorem dictOrStream_makes {entries : Dict} (h : Obj.IsWellFormed (.dict entries)) :
    Ensures (Sound I D) (dictOrStream entries) (Makes I D) (fun _ => Sound I D) := by
  apply getSettings_sound.bind
  intro settings
  apply Ensures.ite
  · intro _
    apply (token_sound ends).bind
    intro next
    apply Ensures.ite
    · intro _
      refine Ensures.from_imp ?_ fun r h => h.sound
      apply (streamStart_sound ends).bind
      intro _ r hr
      exact ⟨.stream _ _ h, hr⟩
    · exact fun _ => (push_given next).bind fun _ => .pure fun _ hr => ⟨h, hr⟩
  · exact fun _ => .pure fun _ hr => ⟨h, hr⟩

/-- What each activity with a bound makes. -/
structure Forms (I D : σ → Prop) (bound : Nat) : Prop where
  object : Ensures (Sound I D) (objectWithin bound) (Gives I D Obj.IsWellFormed) (fun _ => Sound I D)
  /-- An object whose first token is pushed back is no end of the input. -/
  pushed : ∀ {first : Obj}, first.IsSound → Ensures (Sound I D)
    (push first >>= fun _ => objectWithin bound) (Makes I D) (fun _ => Sound I D)
  definition : ∀ {ref : Ref}, ref.IsSmall → Ensures (Sound I D) (definitionWithin bound ref)
    (Makes I D) (fun _ => Sound I D)
  array : ∀ {items : List Obj}, (∀ item ∈ items, item.IsWellFormed) → Ensures (Sound I D)
    (arrayWithin bound items) (Makes I D) (fun _ => Sound I D)
  dict : ∀ {entries : Dict}, Obj.IsWellFormed (.dict entries) → Ensures (Sound I D)
    (dictWithin bound entries) (Makes I D) (fun _ => Sound I D)

section Step
variable {bound : Nat} (forms : Forms I D bound)
include forms

theorem objectAfter_makes {first : Obj} (h : first.IsSound) :
    Ensures (Sound I D) (objectAfter bound first) (Makes I D) (fun _ => Sound I D) := by
  rcases h with ⟨text, rfl⟩ | h
  · apply Ensures.ite
    · exact fun _ => .pure fun _ hr => ⟨.null, hr⟩
    · intro _
      apply Ensures.ite
      · exact fun _ => forms.dict Obj.isWellFormed_dict_nil
      · intro _
        apply Ensures.ite
        · exact fun _ => forms.array fun _ hmem => (List.not_mem_nil hmem).elim
        · exact fun _ => fail_sound _
  · cases h with
    | str data => exact (decipher_sound data).bind fun plain => .pure fun _ hr => ⟨.str plain, hr⟩
    | @int id hid =>
      apply getSettings_sound.bind
      intro settings
      apply Ensures.ite
      · intro hcond
        apply (suffix_sound ends hcond.2).bind
        intro suffix
        cases suffix with
        | nothing => exact .pure fun _ hr => ⟨.int hid, hr⟩
        | reference ref => exact .pure fun _ hr => ⟨.ref hr.1, hr.2⟩
        | definition ref => exact .of_fact fun href => within_sound ref (forms.definition href)
      · exact fun _ => .pure fun _ hr => ⟨.int hid, hr⟩
    | null => exact .pure fun _ hr => ⟨.null, hr⟩
    | bool b => exact .pure fun _ hr => ⟨.bool b, hr⟩
    | real x => exact .pure fun _ hr => ⟨.real x, hr⟩
    | name h => exact .pure fun _ hr => ⟨.name h, hr⟩
    | array h => exact .pure fun _ hr => ⟨.array h, hr⟩
    | dict h h' h'' => exact .pure fun _ hr => ⟨.dict h h' h'', hr⟩
    | ref h => exact .pure fun _ hr => ⟨.ref h, hr⟩
    | defn h h' => exact .pure fun _ hr => ⟨.defn h h', hr⟩
    | stream owner offset h => exact .pure fun _ hr => ⟨.stream owner offset h, hr⟩

theorem objectWithin_gives : Ensures (Sound I D) (objectWithin (bound + 1))
    (Gives I D Obj.IsWellFormed) (fun _ => Sound I D) := by
  rw [objectWithin_succ]
  apply (token_sound ends).bind
  rintro first r (⟨hfirst, hr⟩ | ⟨rfl, hr⟩)
  · exact (objectAfter_makes ends forms hfirst).weaken (fun _ h => h) (fun _ _ h => .inl h)
      (fun _ _ h => h) r hr
  · exact .inr ⟨rfl, hr⟩

/-- If the end came out in the place of the object, the definition is cut short too. -/
theorem definitionWithin_makes {ref : Ref} (h : ref.IsSmall) : Ensures (Sound I D)
    (definitionWithin (bound + 1) ref) (Makes I D) (fun _ => Sound I D) := by
  apply forms.object.bind
  intro body
  apply Ensures.of_or
  · refine .of_fact fun hbody => ?_
    apply Ensures.ite
    · exact fun _ => .pure fun _ hr => ⟨.defn h hbody, hr⟩
    · intro _
      apply (token_sound ends).bind
      intro next
      apply Ensures.ite
      · exact fun _ => .pure fun _ hr => ⟨.defn h hbody, hr.sound⟩
      · exact fun _ => (push_given next).bind fun _ => fail_sound _
  · refine .of_fact fun hbody => ?_
    subst hbody
    apply Ensures.ite
    · intro hstream
      cases hstream
    · intro _
      apply (token_ended ends).bind
      intro next
      refine .of_fact fun hnext => ?_
      subst hnext
      apply Ensures.ite
      · intro hkeyword
        cases hkeyword
      · exact fun _ => push_ended.bind fun _ => fail_sound _

theorem arrayWithin_makes {items : List Obj} (h : ∀ item ∈ items, item.IsWellFormed) :
    Ensures (Sound I D) (arrayWithin (bound + 1) items) (Makes I D) (fun _ => Sound I D) := by
  apply (token_sound ends).bind
  intro next
  apply Ensures.ite
  · exact fun _ => .pure fun _ hr =>
      ⟨.array fun item hitem => h item (List.mem_reverse.mp hitem), hr.sound⟩
  · intro hnext
    have hend : next.isEnd = false := by
      rw [Bool.or_eq_true, not_or] at hnext
      exact Bool.eq_false_iff.mpr hnext.1
    refine .of_promise fun s hs => ?_
    refine Ensures.from_imp ?_ fun r h => h.sound
    apply (forms.pushed (hs.of_ne_end hend).1).bind
    intro item
    refine .of_fact fun hitem => ?_
    exact forms.array fun other hother => (List.mem_cons.mp hother).elim (fun heq => heq ▸ hitem) (h other)

theorem dictWithin_makes {entries : Dict} (h : Obj.IsWellFormed (.dict entries)) :
    Ensures (Sound I D) (dictWithin (bound + 1) entries) (Makes I D) (fun _ => Sound I D) := by
  apply (token_sound ends).bind
  intro next
  apply Ensures.ite
  · exact fun _ => (dictOrStream_makes ends h).from_imp fun _ hr => hr.sound
  · intro _
    cases next with
    | name name =>
      refine .of_promise fun s hs => ?_
      have hname : Name.IsLatin name := by
        rcases (hs.of_ne_end rfl).1 with ⟨text, heq⟩ | hname
        · cases heq
        · cases hname
          assumption
      refine Ensures.from_imp ?_ fun r h => h.sound
      apply forms.object.bind
      intro value
      apply Ensures.ite
      · intro _
        exact ((record_sound _ _ _).bind fun _ => dictOrStream_makes ends h).from_imp fun _ hr => hr.sound
      · intro hvalue
        refine .of_promise fun s hs => ?_
        have hvalue := (hs.of_ne_end (Bool.eq_false_iff.mpr hvalue)).1
        exact (forms.dict (h.insertEntry hname hvalue)).from_imp fun _ hr => hr.sound
    | _ => exact Ensures.from_imp (fail_sound _) fun _ hr => hr.sound

end Step

/-- All four activities that read an object, by induction on the bound that they share. -/
theorem forms (bound : Nat) : Forms I D bound := by
  induction bound with
  | zero =>
    exact ⟨.throw fun _ h => h, fun h => (push_sound h).bind fun _ => .throw fun _ h => h,
      fun _ => .throw fun _ h => h, fun _ => .throw fun _ h => h, fun _ => .throw fun _ h => h⟩
  | succ bound ih =>
    refine ⟨objectWithin_gives ends ih, fun h => ?_, definitionWithin_makes ends ih,
      arrayWithin_makes ends ih, dictWithin_makes ends ih⟩
    rw [push_objectWithin]
    exact objectAfter_makes ends ih h

theorem object_gives :
    Ensures (Sound I D) object (Gives I D Obj.IsWellFormed) (fun _ => Sound I D) :=
  fun r hr => (forms ends (2 * r.weight + 2)).object r hr

theorem objectsWithin_makes (bound : Nat) : Ensures (Sound I D) (objectsWithin bound)
    (fun objs r => (∀ obj ∈ objs, obj.IsWellFormed) ∧ Sound I D r) (fun _ => Sound I D) := by
  induction bound with
  | zero => exact .throw fun _ h => h
  | succ bound ih =>
    apply (object_gives ends).bind
    intro object
    cases hend : object.isEnd with
    | true =>
      exact .pure fun _ hr => ⟨fun _ hmem => (List.not_mem_nil hmem).elim, hr.sound⟩
    | false =>
      refine .of_promise fun s hs => ?_
      have hobject := (hs.of_ne_end hend).1
      refine (ih.from_imp fun r hr => hr.sound).bind fun objs => .pure fun _ hr => ⟨?_, hr.2⟩
      exact fun obj hmem => (List.mem_cons.mp hmem).elim (fun heq => heq ▸ hobject) (hr.1 obj)

end Reading
end Reader

/-- A buffer that comes to the end of a conclusive source is drained. -/
theorem Buffer.ends {start : Buffer} (h : start.source.IsConclusive) :
    Cursor.Ends (fun b => Buffer.StemsFrom start b ∧ b.IsSpent) Buffer.IsDrained where
  law := spent_invariant h
  isEnded hb hnext := hb.2.isEnded_of_next hnext
  ended hb hnext := drained_of_next_eq_none _ (hb.1.isConclusive h) hnext
  next := next_drained
  back h := h.back
  forward tolerant := forward_ensures (refill_drained tolerant) (fun target h => h.moveTo target)
    (fun _ h => h)

end PdfSyntax
