import PdfSyntax.Proofs.Reader.Peek
import PdfSyntax.Proofs.Reader.Spacing
import PdfSyntax.Proofs.Reader.Trailing

/-!
# Looking ahead for references that are not there

A reader that looks for references takes up to two tokens after an integer and pushes them back if they
make none. One that does not look for references lags behind it meanwhile, and comes to the same
objects and mistakes, as long as there is no mistake where the first one looks ahead: to find a mistake
ends its reading, and then the integers that it had taken before are gone.
-/

set_option autoImplicit false

namespace PdfSyntax

/-- What a verdict is to whoever takes tokens. -/
def Lexer.Verdict.outcome : Verdict → Except Fault Obj
  | .token lexeme => .ok lexeme
  | .cutShort string => .ok (.str string)
  | .fault cause => .error cause

theorem Lexer.Verdict.taken?_of_outcome {verdict : Verdict} {lexeme : Obj}
    (h : verdict.outcome = .ok lexeme) : verdict.taken? = some lexeme := by
  cases verdict with
  | token _ =>
    cases h
    rfl
  | cutShort _ =>
    cases h
    rfl
  | fault _ => cases h

theorem Lexer.Verdict.eq_fault_of_outcome {verdict : Verdict} {fault : Fault}
    (h : verdict.outcome = .error fault) : verdict = .fault fault := by
  cases verdict with
  | fault _ =>
    cases h
    rfl
  | _ => cases h

namespace Reader

section Scans
variable {σ : Type} [Cursor σ]

/-- What a lexer that tolerates the end makes of a cursor again and again, mistakes included, and where
the cursor stands then. -/
inductive Scans (c : σ) : List (Except Fault Obj) → σ → Prop where
  | nothing : Scans c [] c
  | more {outcomes : List (Except Fault Obj)} {d d' : σ} {verdict : Lexer.Verdict} :
    Scans c outcomes d → lex true .gap d = .ok verdict d' → Scans c (outcomes ++ [verdict.outcome]) d'

/-- Whether ahead of a cursor there is no keyword of references or definitions, and no mistake right
behind an integer that could begin either. -/
structure Harmless (start : σ) : Prop where
  keyword : ∀ {outcomes c text}, Scans start outcomes c → .ok (.keyword text) ∈ outcomes →
    text ≠ "R" ∧ text ≠ "obj"
  fault : ∀ {outcomes c n fault}, Scans start (outcomes ++ [.ok (.int n), .error fault]) c → 0 ≤ n →
    ¬ n < Ref.idLimit

/-- Two readers of which the first one looks for references. It has taken some tokens and holds more of
them than the other one has taken; all that it holds or has pushed back it took last from its cursor. -/
structure Foresees (InFront : σ → Bytes → Prop) (start : σ) (taken : List (Except Fault Obj))
    (held : List Obj) (r s : Reader σ) : Prop where
  tolerant : r.settings.tolerant = true
  references : r.settings.references = true
  streams : r.settings.streams = false
  key : r.settings.key = none
  settings_eq : s.settings = { r.settings with references := false }
  inFront : ∃ bytes, InFront r.cursor bytes
  inFront' : ∃ bytes, InFront s.cursor bytes
  scans : Scans start (taken ++ (held ++ r.pending).map .ok) r.cursor
  ahead : ∃ ahead, Emits true s.cursor ahead r.cursor ∧ held ++ r.pending = s.pending ++ ahead

end Scans

section Moves
variable {σ : Type} [Cursor σ] {InFront : σ → Bytes → Prop} {start : σ}
variable {taken : List (Except Fault Obj)} {held : List Obj} {r s : Reader σ} {token : Obj}

theorem lex_of_supplies (supplies : Supplies InFront) {c : σ} {bytes : Bytes} (h : InFront c bytes) :
    ∃ verdict c' bytes', lex true .gap c = .ok verdict c' ∧ InFront c' bytes' := by
  have hlex := supplies.lex_ensures true .gap bytes c h
  cases hr : lex true .gap c with
  | ok verdict c' =>
    rw [hr] at hlex
    obtain ⟨rest, -, hrest⟩ := hlex
    exact ⟨verdict, c', rest, rfl, hrest⟩
  | error e c' =>
    rw [hr] at hlex
    cases hlex.1

namespace Foresees

/-- What else the readers keep does not matter. -/
theorem congr {r' s' : Reader σ} (h : Foresees InFront start taken held r s)
    (hcursor : r'.cursor = r.cursor) (hpending : r'.pending = r.pending)
    (hsettings : r'.settings = r.settings) (hcursor' : s'.cursor = s.cursor)
    (hpending' : s'.pending = s.pending) (hsettings' : s'.settings = s.settings) :
    Foresees InFront start taken held r' s' where
  tolerant := by rw [hsettings]; exact h.tolerant
  references := by rw [hsettings]; exact h.references
  streams := by rw [hsettings]; exact h.streams
  key := by rw [hsettings]; exact h.key
  settings_eq := by rw [hsettings, hsettings']; exact h.settings_eq
  inFront := by rw [hcursor]; exact h.inFront
  inFront' := by rw [hcursor']; exact h.inFront'
  scans := by rw [hcursor, hpending]; exact h.scans
  ahead := by rw [hcursor, hpending, hcursor', hpending']; exact h.ahead

theorem push (h : Foresees InFront start (taken ++ [.ok token]) [] r s) :
    Foresees InFront start taken [] { r with pending := token :: r.pending }
      { s with pending := token :: s.pending } := by
  obtain ⟨ahead, hemits, hahead⟩ := h.ahead
  refine { h with scans := ?_, ahead := ⟨ahead, hemits, ?_⟩ }
  · simpa using h.scans
  · simpa using hahead

/-- The reader that looks for references pushes back what it holds. -/
theorem putBack (h : Foresees InFront start taken (held ++ [token]) r s) :
    Foresees InFront start taken held { r with pending := token :: r.pending } s := by
  obtain ⟨ahead, hemits, hahead⟩ := h.ahead
  refine { h with scans := ?_, ahead := ⟨ahead, hemits, ?_⟩ }
  · simpa using h.scans
  · simpa using hahead

/-- One more token, taken by the reader that looks for references alone: there is no mistake, since it
has just taken an integer. -/
theorem look (supplies : Supplies InFront) (hharmless : Harmless start)
    (h : Foresees InFront start taken held r s) {before : List (Except Fault Obj)} {n : Int}
    (hlast : taken ++ held.map .ok = before ++ [.ok (.int n)]) (hn : 0 ≤ n) (hlimit : n < Ref.idLimit) :
    ∃ token r', Reader.token r = .ok token r' ∧ Foresees InFront start taken (held ++ [token]) r' s := by
  obtain ⟨ahead, hemits, hahead⟩ := h.ahead
  cases hp : r.pending with
  | cons first rest =>
    refine ⟨first, _, token_of_pending hp, { h with scans := ?_, ahead := ⟨ahead, hemits, ?_⟩ }⟩
    · simpa [hp] using h.scans
    · simpa [hp] using hahead
  | nil =>
    obtain ⟨bytes, hfront⟩ := h.inFront
    obtain ⟨verdict, c, bytes', hlex, hfront'⟩ := lex_of_supplies supplies hfront
    have hscans := h.scans
    rw [hp, List.append_nil, hlast] at hscans
    cases houtcome : verdict.outcome with
    | error fault =>
      have hfault := hscans.more hlex
      rw [houtcome, List.append_assoc] at hfault
      exact absurd hlimit (hharmless.fault hfault hn)
    | ok token =>
      have htaken := Lexer.Verdict.taken?_of_outcome houtcome
      obtain ⟨told, records, htoken⟩ := token_of_lex hp (h.tolerant ▸ hlex) htaken
      have hmore := hscans.more hlex
      rw [houtcome, ← hlast] at hmore
      refine ⟨token, _, htoken, { h with
        inFront := ⟨bytes', hfront'⟩
        scans := ?_
        ahead := ⟨ahead ++ [token], hemits.snoc hlex htaken, ?_⟩ }⟩
      · simpa [hp] using hmore
      · rw [hp, List.append_nil] at hahead
        simp [hp, hahead]

/-- Where nothing is pushed back to either, both take the next verdict from the same place. -/
theorem moved (h : Foresees InFront start taken [] r s) (hp : r.pending = []) {verdict : Lexer.Verdict}
    {c : σ} {bytes : Bytes} (hlex : lex true .gap r.cursor = .ok verdict c) (hfront : InFront c bytes) :
    Foresees InFront start (taken ++ [verdict.outcome]) [] { r with cursor := c }
      { s with cursor := c } := by
  obtain ⟨ahead, -, hahead⟩ := h.ahead
  have hp' : s.pending = [] := by
    rw [hp] at hahead
    exact (List.append_eq_nil_iff.mp hahead.symm).1
  have hmore := h.scans.more hlex
  refine { h with
    inFront := ⟨bytes, hfront⟩
    inFront' := ⟨bytes, hfront⟩
    scans := ?_
    ahead := ⟨[], .nil c, by simp [hp, hp']⟩ }
  simpa [hp] using hmore

/-- The reader that does not look for references takes what the other one has pushed back. -/
theorem caughtUp (h : Foresees InFront start taken [] r s) {first : Obj} {rest : List Obj}
    (hp : r.pending = first :: rest) {c : σ} {bytes : Bytes} (hfront : InFront c bytes)
    (hemits : Emits true c rest r.cursor) (hp' : s.pending = []) :
    Foresees InFront start (taken ++ [.ok first]) [] { r with pending := rest }
      { s with cursor := c } := by
  refine { h with
    inFront' := ⟨bytes, hfront⟩
    scans := ?_
    ahead := ⟨rest, hemits, by simp [hp']⟩ }
  simpa [hp] using h.scans

end Foresees

/-- The same token comes to both, from what is pushed back or from the cursor; so does a mistake, where
both have come to the same place. -/
theorem token_foresees (supplies : Supplies InFront) :
    Agree (Foresees InFront start taken []) Reader.token Reader.token
      (fun token => Foresees InFront start (taken ++ [.ok token]) [])
      (fun _ r s => ∃ taken, Foresees InFront start taken [] r s) := by
  intro r s h
  obtain ⟨ahead, hemits, hahead⟩ := h.ahead
  have htolerant' : s.settings.tolerant = true := by rw [h.settings_eq]; exact h.tolerant
  cases hp : s.pending with
  | cons first rest =>
    have hp' : r.pending = first :: (rest ++ ahead) := by rw [hp] at hahead; exact hahead
    rw [token_of_pending hp, token_of_pending hp']
    refine .ok { h with scans := ?_, ahead := ⟨ahead, hemits, rfl⟩ }
    simpa [hp'] using h.scans
  | nil =>
    have hahead : r.pending = ahead := by rw [hp] at hahead; exact hahead
    cases ahead with
    | nil =>
      have hcursor : r.cursor = s.cursor := hemits.eq_of_nil
      obtain ⟨bytes, hfront⟩ := h.inFront
      obtain ⟨verdict, c, bytes', hlex, hfront'⟩ := lex_of_supplies supplies hfront
      have hmoved := h.moved hahead hlex hfront'
      rw [token_of_no_pending hahead, token_of_no_pending hp, h.tolerant, htolerant', ← hcursor, hlex]
      cases houtcome : verdict.outcome with
      | error fault =>
        obtain rfl := Lexer.Verdict.eq_fault_of_outcome houtcome
        exact .error ⟨_, hmoved⟩
      | ok token =>
        have htaken := Lexer.Verdict.taken?_of_outcome houtcome
        obtain ⟨told, records, hr⟩ := judged_eq (r := { r with cursor := c }) htaken
        obtain ⟨told', records', hs⟩ := judged_eq (r := { s with cursor := c }) htaken
        rw [houtcome] at hmoved
        simp only [hr, hs]
        exact .ok (hmoved.congr rfl rfl rfl rfl rfl rfl)
    | cons first rest =>
      generalize hc : r.cursor = c at hemits
      generalize hd : s.cursor = d at hemits
      cases hemits with
      | cons hlex htaken hrest =>
        subst hd hc
        obtain ⟨bytes, hfront⟩ := h.inFront'
        obtain ⟨verdict', c', bytes', hlex', hfront'⟩ := lex_of_supplies supplies hfront
        obtain ⟨rfl, rfl⟩ := EStateM.Result.ok.inj (hlex.symm.trans hlex')
        obtain ⟨told, records, htoken⟩ := token_of_lex hp (htolerant' ▸ hlex) htaken
        rw [token_of_pending hahead, htoken]
        exact .ok ((h.caughtUp hahead hfront' hrest hp).congr rfl rfl rfl rfl rfl rfl)

/-- What is looked ahead for after an integer is not there, so all of it is pushed back. -/
theorem suffix_foresees (supplies : Supplies InFront) (hharmless : Harmless start) {n : Int} (hn : 0 ≤ n)
    (hlimit : n < Ref.idLimit) (h : Foresees InFront start (taken ++ [.ok (.int n)]) [] r s) :
    ∃ r', suffix n r = .ok .nothing r' ∧ Foresees InFront start (taken ++ [.ok (.int n)]) [] r' s := by
  obtain ⟨second, r₂, hsecond, h₂⟩ := h.look supplies hharmless (List.append_nil _) hn hlimit
  simp only [suffix, Bind.bind, EStateM.bind, hsecond]
  cases hnat : second.natural? Ref.genLimit with
  | none => exact ⟨_, rfl, h₂.putBack⟩
  | some gen =>
    obtain ⟨rfl, hgen, hgenLimit⟩ := eq_int_of_natural? hnat
    have hsmall : gen < Ref.idLimit := Int.lt_trans hgenLimit (by decide)
    obtain ⟨third, r₃, hthird, h₃⟩ := h₂.look supplies hharmless rfl hgen hsmall
    have hkeyword : ∀ text, third = .keyword text → text ≠ "R" ∧ text ≠ "obj" := by
      rintro text rfl
      exact hharmless.keyword h₃.scans (by simp)
    have hreference : third.isKeyword "R" = false := by
      by_contra hnot
      have hthird := Obj.eq_keyword_of_isKeyword (Bool.not_eq_false _ ▸ hnot)
      exact (hkeyword "R" hthird).1 rfl
    have hdefinition : third.isKeyword "obj" = false := by
      by_contra hnot
      have hthird := Obj.eq_keyword_of_isKeyword (Bool.not_eq_false _ ▸ hnot)
      exact (hkeyword "obj" hthird).2 rfl
    simp only [EStateM.bind, hthird, hreference, hdefinition, Bool.false_eq_true, if_false]
    exact ⟨_, rfl, h₃.putBack.putBack⟩

end Moves

section Objects
variable {σ : Type} [Cursor σ] (InFront : σ → Bytes → Prop) (start : σ)

/-- Two readers of which the first one looks for references, between activities. -/
def Outruns (r s : Reader σ) : Prop :=
  ∃ taken, Foresees InFront start taken [] r s

/-- After a token that has just been taken, and may be pushed back. -/
def OutrunsAfter (token : Obj) (r s : Reader σ) : Prop :=
  ∃ taken, Foresees InFront start (taken ++ [.ok token]) [] r s

/-- What comes to the same in both, but for places. -/
abbrev Unharmed {α : Type} (P : Reader σ → Reader σ → Prop) (m : Reading σ α)
    (Q : α → Reader σ → Reader σ → Prop) : Prop :=
  Agree P (unplaced m) (unplaced m) Q (fun _ => Outruns InFront start)

/-- What comes to the same in both, but for places, and keeps them as they are to each other. -/
abbrev Unaffected {α : Type} (m : Reading σ α) : Prop :=
  Unharmed InFront start (Outruns InFront start) m (fun _ => Outruns InFront start)

variable {InFront start} {α β : Type} {P P' : Reader σ → Reader σ → Prop} {bound : Nat}
variable {Q : α → Reader σ → Reader σ → Prop} {B : β → Reader σ → Reader σ → Prop}

theorem OutrunsAfter.outruns {token : Obj} {r s : Reader σ} (h : OutrunsAfter InFront start token r s) :
    Outruns InFront start r s := by
  obtain ⟨taken, h⟩ := h
  exact ⟨_, h⟩

theorem Outruns.congr {r s r' s' : Reader σ} (h : Outruns InFront start r s)
    (hcursor : r'.cursor = r.cursor) (hpending : r'.pending = r.pending)
    (hsettings : r'.settings = r.settings) (hcursor' : s'.cursor = s.cursor)
    (hpending' : s'.pending = s.pending) (hsettings' : s'.settings = s.settings) :
    Outruns InFront start r' s' := by
  obtain ⟨taken, h⟩ := h
  exact ⟨taken, h.congr hcursor hpending hsettings hcursor' hpending' hsettings'⟩

namespace Unharmed

theorem of_agree {m : Reading σ α} (h : Agree P m m Q (fun _ => Outruns InFront start)) :
    Unharmed InFront start P m Q := by
  intro r s hrs
  have hend := h r s hrs
  simp only [unplaced]
  generalize m r = x at hend ⊢
  generalize m s = y at hend ⊢
  cases hend with
  | ok hq => exact .ok hq
  | error he => exact .error he

theorem pure {a : α} (h : ∀ r s, P r s → Q a r s) : Unharmed InFront start P (Pure.pure a) Q :=
  of_agree (.pure h)

theorem bind {m : Reading σ α} {f : α → Reading σ β} (hm : Unharmed InFront start P m Q)
    (hf : ∀ a, Unharmed InFront start (Q a) (f a) B) : Unharmed InFront start P (m >>= f) B := by
  rw [Unharmed, unplaced_bind]
  exact Agree.bind hm hf

theorem ite {c : Prop} [Decidable c] {m n : Reading σ α} (ht : c → Unharmed InFront start P m Q)
    (he : ¬ c → Unharmed InFront start P n Q) : Unharmed InFront start P (if c then m else n) Q := by
  by_cases hc : c
  · rw [if_pos hc]; exact ht hc
  · rw [if_neg hc]; exact he hc

theorem from_imp {m : Reading σ α} (h : Unharmed InFront start P m Q) (hP : ∀ r s, P' r s → P r s) :
    Unharmed InFront start P' m Q :=
  h.weaken hP (fun _ _ _ h => h) (fun _ _ _ h => h)

theorem after {m : Reading σ α} {token : Obj} (h : Unharmed InFront start (Outruns InFront start) m Q) :
    Unharmed InFront start (OutrunsAfter InFront start token) m Q :=
  h.from_imp fun _ _ => OutrunsAfter.outruns

/-- The readers may fail at different places. -/
theorem fail (fault : Fault) : Unharmed InFront start (Outruns InFront start) (fail fault) Q := by
  intro r s h
  rw [unplaced_of_error (fail_apply fault r), unplaced_of_error (fail_apply fault s)]
  exact .error h

theorem push (token : Obj) : Unharmed InFront start (OutrunsAfter InFront start token) (push token)
    (fun _ => Outruns InFront start) := by
  apply of_agree
  rintro r s ⟨taken, h⟩
  exact .ok ⟨taken, h.push⟩

theorem record (level : Level) (message text : String) :
    Unaffected InFront start (record level message (.ok text)) := by
  apply of_agree
  intro r s h
  obtain ⟨told, records, hr⟩ := exists_recorded level message text r
  obtain ⟨told', records', hs⟩ := exists_recorded level message text s
  rw [record_eq, record_eq, hr, hs]
  exact .ok (h.congr rfl rfl rfl rfl rfl rfl)

theorem decipher (data : Bytes) : Unaffected InFront start (decipher data) := by
  apply of_agree
  rintro r s ⟨taken, h⟩
  rw [decipher_of_no_key h.key, decipher_of_no_key (by rw [h.settings_eq]; exact h.key)]
  exact .ok ⟨taken, h⟩

theorem dictOrStream (entries : Dict) : Unaffected InFront start (dictOrStream entries) := by
  apply of_agree
  rintro r s ⟨taken, h⟩
  have hstreams : ¬ r.settings.streams = true := by rw [h.streams]; decide
  have hstreams' : ¬ s.settings.streams = true := by rw [h.settings_eq]; exact hstreams
  rw [dictOrStream_eq, dictOrStream_eq, if_neg hstreams, if_neg hstreams']
  exact .ok ⟨taken, h⟩

variable (supplies : Supplies InFront)
include supplies

theorem token : Unharmed InFront start (Outruns InFront start) token (OutrunsAfter InFront start) := by
  apply of_agree
  rintro r s ⟨taken, h⟩
  exact (token_foresees supplies r s h).imp (fun _ _ _ h => ⟨taken, h⟩) (fun _ _ _ h => h)

theorem arrayWithin_succ
    (object : Unaffected InFront start (objectWithin bound))
    (array : ∀ items, Unaffected InFront start (arrayWithin bound items)) (items : List Obj) :
    Unaffected InFront start (arrayWithin (bound + 1) items) := by
  apply (token supplies).bind
  intro next
  apply ite
  · exact fun _ => pure fun _ _ => OutrunsAfter.outruns
  · exact fun _ => (push next).bind fun _ => object.bind fun item => array (item :: items)

theorem dictWithin_succ
    (object : Unaffected InFront start (objectWithin bound))
    (dict : ∀ entries, Unaffected InFront start (dictWithin bound entries)) (entries : Dict) :
    Unaffected InFront start (dictWithin (bound + 1) entries) := by
  apply (token supplies).bind
  intro next
  apply ite
  · exact fun _ => (dictOrStream entries).after
  · intro _
    cases next with
    | name name =>
      apply object.after.bind
      intro value
      apply ite
      · intro _
        rw [render_valueless]
        exact (record _ _ _).bind fun _ => dictOrStream entries
      · exact fun _ => dict _
    | _ => exact after (fail _)

variable (hharmless : Harmless start)
include hharmless

/-- After an integer the first reader looks ahead in vain, and the second one does not look. -/
theorem objectAfter_int (n : Int) : Unharmed InFront start (OutrunsAfter InFront start (.int n))
    (objectAfter bound (.int n)) (fun _ => Outruns InFront start) := by
  apply of_agree
  rintro r s ⟨taken, h⟩
  have hs : objectAfter bound (.int n) s = .ok (.int n) s := by
    have hreferences : s.settings.references = false := by rw [h.settings_eq]
    simp only [objectAfter, objectFrom, getSettings, Bind.bind, EStateM.bind, hreferences, Bool.false_eq_true,
      false_and, if_false]
    rfl
  rw [hs]
  by_cases hsmall : 0 ≤ n ∧ n < Ref.idLimit
  · obtain ⟨r', hsuffix, h'⟩ := suffix_foresees supplies hharmless hsmall.1 hsmall.2 h
    have hr : objectAfter bound (.int n) r = .ok (.int n) r' := by
      simp only [objectAfter, objectFrom, getSettings, Bind.bind, EStateM.bind, h.references, hsmall, true_and,
        if_true, hsuffix]
      rfl
    rw [hr]
    exact .ok ⟨_, h'⟩
  · have hr : objectAfter bound (.int n) r = .ok (.int n) r := by
      simp only [objectAfter, objectFrom, getSettings, Bind.bind, EStateM.bind, hsmall, and_false, if_false]
      rfl
    rw [hr]
    exact .ok ⟨_, h⟩

theorem objectWithin_succ
    (array : Unaffected InFront start (arrayWithin bound []))
    (dict : Unaffected InFront start (dictWithin bound [])) :
    Unaffected InFront start (objectWithin (bound + 1)) := by
  rw [Reader.objectWithin_succ]
  apply (token supplies).bind
  intro next
  cases next with
  | keyword text =>
    apply after
    apply ite
    · exact fun _ => pure fun _ _ h => h
    · intro _
      apply ite
      · exact fun _ => dict
      · intro _
        apply ite
        · exact fun _ => array
        · exact fun _ => fail _
  | str data =>
    have hstr : Unaffected InFront start (Reader.decipher (σ := σ) data >>= fun plain =>
        Pure.pure (Obj.str plain)) := (decipher data).bind fun _ => pure fun _ _ h => h
    exact hstr.after
  | int n => exact objectAfter_int supplies hharmless n
  | _ => exact pure fun _ _ => OutrunsAfter.outruns

/-- No definition is ever begun, so three of the four activities remain. By induction on their bound. -/
theorem all (bound : Nat) :
    Unaffected InFront start (objectWithin bound) ∧
    (∀ items, Unaffected InFront start (arrayWithin bound items)) ∧
    (∀ entries, Unaffected InFront start (dictWithin bound entries)) := by
  induction bound with
  | zero =>
    have hexhausted : Unaffected InFront start (throw .exhausted : Reading σ Obj) :=
      of_agree (.throw fun _ _ h => h)
    exact ⟨hexhausted, fun _ => hexhausted, fun _ => hexhausted⟩
  | succ bound ih =>
    obtain ⟨object, array, dict⟩ := ih
    exact ⟨objectWithin_succ supplies hharmless (array []) (dict []), arrayWithin_succ supplies object array,
      dictWithin_succ supplies object dict⟩

/-- The readers weigh what is left differently, but a bound that covers both can stand for theirs. -/
theorem object : Unaffected InFront start object := by
  rintro r s ⟨taken, h⟩
  obtain ⟨bytes, hfront⟩ := h.inFront
  obtain ⟨bytes', hfront'⟩ := h.inFront'
  have hr := objectWithin_eq_object supplies hfront
    (Nat.le_max_left (2 * r.weight + 2) (2 * s.weight + 2))
  have hs := objectWithin_eq_object supplies hfront'
    (Nat.le_max_right (2 * r.weight + 2) (2 * s.weight + 2))
  rw [← unplaced_congr hr, ← unplaced_congr hs]
  exact (all supplies hharmless _).1 r s ⟨taken, h⟩

end Unharmed
end Objects
end Reader
end PdfSyntax
