import PdfSyntax.Proofs.Reader.Journal
import PdfSyntax.Proofs.Reader.Token
import PdfSyntax.Proofs.Reader.Watching

/-!
# What is left unread

A reader to which nobody else pushes tokens back has two of them pushed back at most, and of two the first
is an integer that could be a generation. Where an array or a dictionary begins there are none: its bracket
is no integer, so nothing was pushed back behind it. What the cursor does makes no difference.
-/

set_option autoImplicit false

namespace PdfSyntax

/-- The tokens that looking ahead can leave pushed back. -/
inductive Unread : List Obj → Prop where
  | nothing : Unread []
  | one (token : Obj) : Unread [token]
  | two {n : Int} (token : Obj) : 0 ≤ n → n < Ref.genLimit → Unread [.int n, token]

namespace Unread
variable {token : Obj} {pending : List Obj}

theorem tail (h : Unread (token :: pending)) : Unread pending := by
  cases h with
  | one _ => exact .nothing
  | two token _ _ => exact .one token

theorem eq_nil (h : Unread (token :: pending)) (hint : ∀ n, token ≠ .int n) : pending = [] := by
  cases h with
  | one _ => rfl
  | two _ _ _ => exact absurd rfl (hint _)

theorem tail_eq_nil (h : Unread (token :: pending)) : pending.tail = [] := by
  cases h <;> rfl

theorem length_le (h : Unread pending) : pending.length ≤ 2 := by
  cases h <;> simp

theorem exists_int (h : Unread pending) (hlength : pending.length = 2) :
    ∃ n last, pending = [.int n, last] ∧ 0 ≤ n ∧ n < Ref.genLimit := by
  cases h with
  | nothing => cases hlength
  | one _ => cases hlength
  | @two n last hn hlimit => exact ⟨n, last, rfl, hn, hlimit⟩

end Unread

namespace Reader
variable {σ α : Type}

/-- What keeps a promise about the tokens pushed back, also where it fails. -/
abbrev KeepsPending (P : List Obj → Prop) (m : Reading σ α) : Prop :=
  Ensures (fun r => P r.pending) m (fun _ r => P r.pending) (fun _ r => P r.pending)

section Pending
variable {P : List Obj → Prop}

theorem onCursor_keepsPending (m : EStateM Failure σ α) : KeepsPending P (onCursor m) := by
  intro r hr
  simp only [onCursor]
  cases m r.cursor <;> exact hr

variable [Cursor σ]

theorem fail_keepsPending (fault : Fault) : KeepsPending (σ := σ) (α := α) P (fail fault) :=
  fail_ensures fun _ h => h

theorem record_keepsPending (level : Level) (message : String) (text : Except Failure String) :
    KeepsPending (σ := σ) P (record level message text) :=
  record_ensures (fun _ _ h => h) (fun _ h => h) level message text

omit [Cursor σ] in
theorem decipher_keepsPending (data : Bytes) : KeepsPending (σ := σ) P (decipher data) :=
  decipher_ensures (fun _ h => h) data

theorem byte_keepsPending : KeepsPending (σ := σ) P byte := by
  have hbyte : KeepsPending (σ := σ) P byte? := fun r hr => onCursor_keepsPending _ r hr
  exact hbyte.bind fun _ => .pure fun _ h => h

theorem streamStart_keepsPending : KeepsPending (σ := σ) P streamStart := by
  apply byte_keepsPending.bind
  intro first
  apply Ensures.ite
  · intro _
    apply byte_keepsPending.bind
    intro second
    apply Ensures.ite
    · intro _
      have hback : KeepsPending (σ := σ) P back := fun _ h => h
      exact hback.bind fun _ => record_keepsPending _ _ _
    · exact fun _ => .pure fun _ h => h
  · intro _
    apply Ensures.ite
    · exact fun _ => fail_keepsPending _
    · exact fun _ => .pure fun _ h => h

/-- A token is the one pushed back last, or none is and the cursor yields it. -/
theorem token_pending (pending : List Obj) : Ensures (σ := Reader σ) (·.pending = pending) token
    (fun token r => r.pending = pending.tail ∧ (pending = [] ∨ pending = token :: pending.tail))
    (fun _ r => r.pending = []) := by
  rintro r rfl
  cases hp : r.pending with
  | cons first rest =>
    rw [token_of_pending hp]
    exact ⟨rfl, .inr rfl⟩
  | nil =>
    rw [token_of_no_pending hp]
    cases lex r.settings.tolerant .gap r.cursor with
    | error e c => exact hp
    | ok verdict c =>
      cases verdict with
      | token token => exact ⟨hp, .inl rfl⟩
      | fault fault => exact hp
      | cutShort string => exact ⟨(pending_recorded ..).trans hp, .inl rfl⟩

end Pending

/-- A reader between activities. -/
def Rested (r : Reader σ) : Prop :=
  Unread r.pending

/-- A reader that has just taken a token, which it may push back. -/
def Taken (token : Obj) (r : Reader σ) : Prop :=
  Unread (token :: r.pending)

theorem Taken.rested {token : Obj} {r : Reader σ} (h : Taken token r) : Rested r :=
  h.tail

theorem rested_of_nil {r : Reader σ} (h : r.pending = []) : Rested r := by
  rw [Rested, h]
  exact .nothing

section Moves
variable {token : Obj} {E : Failure → Reader σ → Prop}

theorem push_rested (token : Obj) : Ensures (Taken (σ := σ) token) (push token) (fun _ => Rested) E :=
  fun _ h => h

variable [Cursor σ]

theorem token_taken_of_unread {pending : List Obj} (h : Unread pending) :
    Ensures (σ := Reader σ) (·.pending = pending) Reader.token
      (fun token r => r.pending = pending.tail ∧ Taken token r) (fun _ => Rested) := by
  refine (token_pending pending).weaken (fun _ h => h) ?_ fun _ _ => rested_of_nil
  rintro token r ⟨hpending, hfirst⟩
  refine ⟨hpending, ?_⟩
  rw [Taken, hpending]
  rcases hfirst with rfl | hfirst
  · exact .one token
  · rwa [← hfirst]

theorem token_rested : Ensures (Rested (σ := σ)) Reader.token Taken (fun _ => Rested) := by
  intro r hr
  exact (token_taken_of_unread hr).weaken (fun _ h => h) (fun _ _ h => h.2) (fun _ _ h => h) r rfl

/-- After an integer at most one token is pushed back, and two at most are when looking ahead is over. -/
theorem suffix_rested_of_unread {n : Int} {pending : List Obj} (h : Unread (.int n :: pending))
    (id : Int) :
    Ensures (σ := Reader σ) (·.pending = pending) (suffix id) (fun _ => Rested) (fun _ => Rested) := by
  apply (token_taken_of_unread h.tail).bind
  intro second
  rw [h.tail_eq_nil]
  cases hnat : second.natural? Ref.genLimit with
  | none =>
    apply ((push_rested second).from_imp fun _ h => h.2).bind
    exact fun _ => .pure fun _ h => h
  | some gen =>
    obtain ⟨rfl, hgen, hlimit⟩ := eq_int_of_natural? hnat
    refine Ensures.from_imp (P := (·.pending = [])) ?_ fun _ h => h.1
    apply (token_taken_of_unread .nothing).bind
    intro third
    apply Ensures.ite
    · exact fun _ => .pure fun _ h => rested_of_nil h.1
    · intro _
      apply Ensures.ite
      · exact fun _ => .pure fun _ h => rested_of_nil h.1
      · intro _ r hr
        have hpushed : Unread (.int gen :: third :: r.pending) := by
          rw [hr.1]
          exact .two third hgen hlimit
        exact hpushed

theorem suffix_rested (n id : Int) :
    Ensures (Taken (σ := σ) (.int n)) (suffix id) (fun _ => Rested) (fun _ => Rested) :=
  fun r hr => suffix_rested_of_unread hr id r rfl

theorem dictOrStream_rested (entries : Dict) :
    Ensures (Rested (σ := σ)) (dictOrStream entries) (fun _ => Rested) (fun _ => Rested) := by
  have hsettings : Ensures (Rested (σ := σ)) getSettings (fun _ => Rested) (fun _ => Rested) :=
    fun _ h => h
  apply hsettings.bind
  intro settings
  apply Ensures.ite
  · intro _
    apply token_rested.bind
    intro next
    apply Ensures.ite
    · intro _
      refine Ensures.from_imp (P := Rested) ?_ fun _ => Taken.rested
      apply (streamStart_keepsPending (P := Unread)).bind
      exact fun _ _ h => h
    · exact fun _ => (push_rested next).bind fun _ => .pure fun _ h => h
  · exact fun _ => .pure fun _ h => h

theorem seek_rested (target : Int) :
    Ensures (Rested (σ := σ)) (seek target) (fun _ => Rested) (fun _ => Rested) := by
  have hmoved : KeepsPending (σ := σ) Unread (onCursor (Cursor.seek target)) := onCursor_keepsPending _
  exact fun r _ => hmoved { r with pending := [] } .nothing

omit [Cursor σ] in
theorem pop_rested : Ensures (Rested (σ := σ)) pop (fun _ => Rested) (fun _ => Rested) := by
  intro r hr
  obtain ⟨cursor, pending, settings, context, decrypt, told, records, requests⟩ := r
  cases pending with
  | nil => exact hr
  | cons token pending => exact Unread.tail hr

/-- Of the operations that read no objects only one may push back what nobody took: that of a caller who
does so. -/
theorem perform_rested {operation : Operation} (hscope : operation.scope ≠ .objects)
    (hpush : ∀ token, operation ≠ .push token) :
    Ensures (Rested (σ := σ)) (perform operation) (fun _ => Rested) (fun _ => Rested) := by
  have out : ∀ {α : Type} {m : Reading σ α} {f : α → Outcome},
      Ensures (Rested (σ := σ)) m (fun _ => Rested) (fun _ => Rested) →
      Ensures (Rested (σ := σ)) (m >>= fun a => Pure.pure (f a)) (fun _ => Rested) (fun _ => Rested) :=
    fun hm => hm.bind fun _ => .pure fun _ h => h
  have htoken : Ensures (Rested (σ := σ)) Reader.token (fun _ => Rested) (fun _ => Rested) :=
    token_rested.weaken (fun _ h => h) (fun _ _ h => h.rested) (fun _ _ h => h)
  cases operation with
  | byte => exact out (byte_keepsPending (P := Unread))
  | bytes count => exact out (bytes_keeps (byte_keepsPending (P := Unread)) count)
  | back =>
    have hback : Ensures (Rested (σ := σ)) back (fun _ => Rested) (fun _ => Rested) := fun _ h => h
    exact out hback
  | offset =>
    have hplace : Ensures (Rested (σ := σ)) place (fun _ => Rested) (fun _ => Rested) := fun _ h => h
    exact out hplace
  | seek target => exact out (seek_rested target)
  | forward target =>
    have hsettings : Ensures (Rested (σ := σ)) getSettings (fun _ => Rested) (fun _ => Rested) :=
      fun _ h => h
    exact out (hsettings.bind fun _ => onCursor_keepsPending _)
  | push token => exact absurd rfl (hpush token)
  | pop => exact out pop_rested
  | token => exact out htoken
  | tokens count =>
    apply Ensures.ite
    · exact fun _ => out (tokens_keeps htoken _)
    · exact fun _ => .throw fun _ h => h
  | tokenOr fallback => exact out (htoken.bind fun _ => .pure fun _ h => h)
  | set setting =>
    have hset : Ensures (Rested (σ := σ)) (set setting) (fun _ => Rested) (fun _ => Rested) := by
      intro r hr
      cases setting <;> exact hr
    exact out hset
  | tell template arguments =>
    exact out (tell_ensures (P := Rested (σ := σ)) (fun _ _ h => h) template _)
  | record level template arguments => exact out (record_keepsPending (P := Unread) level template _)
  | fail template arguments => exact failWith_ensures template arguments (fun _ _ h => h) fun _ _ h => h
  | _ => exact absurd rfl hscope

end Moves
end Reader

namespace Watched
variable {σ α : Type} {bound : Nat}

open Reader (Rested Taken)

/-- What leaves no more unread than there may be, and has nothing unread at the visits. -/
abbrev Rests (P : Reader σ → Prop) (m : Reading (Watched σ) α) : Prop :=
  Ensures (fun v => v.reader.pending = []) P m (fun _ => Rested) (fun _ => Rested)

section Steps
variable {token : Obj} {m : Reading (Watched σ) α}

theorem Rests.after (h : Rests Rested m) : Rests (Taken token) m :=
  h.from_imp fun _ hr => ⟨hr.1.rested, hr.2⟩

theorem pure_rests (a : α) : Rests (σ := σ) Rested (Pure.pure a) :=
  pure_ensures fun _ h => h

/-- The bracket that has just been taken is no integer, so it was the last token pushed back. -/
theorem note_rests {bracket : String} (h : Rests Rested m) :
    Rests (Taken (.keyword bracket)) (note bracket >>= fun _ => m) := by
  have hempty : ∀ r : Reader σ, Taken (.keyword bracket) r → r.pending = [] :=
    fun r hr => hr.eq_nil fun n h => by cases h
  exact (note_ensures hempty).bind fun _ => h.after

variable [Cursor σ]

theorem push_rests (token : Obj) : Rests (σ := σ) (Taken token) (Reader.push token) :=
  (push_unseen token).ensures (Reader.push_rested token)

theorem token_rests : Ensures (σ := σ) (fun v => v.reader.pending = []) Rested Reader.token Taken
    (fun _ => Rested) :=
  token_unseen.ensures Reader.token_rested

theorem fail_rests (fault : Fault) : Rests (σ := σ) Rested (Reader.fail (α := α) fault) :=
  (fail_unseen fault).ensures (Reader.fail_keepsPending fault)

end Steps

section Descent
variable [Cursor σ]

theorem object_succ_rests
    (definition : ∀ ref, Rests Rested ((note (σ := σ)).definition bound ref))
    (array : ∀ items, Rests Rested ((note (σ := σ)).array bound items))
    (dict : ∀ entries, Rests Rested ((note (σ := σ)).dict bound entries)) :
    Rests Rested ((note (σ := σ)).object (bound + 1)) := by
  apply token_rests.bind
  intro first
  cases first with
  | keyword text =>
    by_cases hnull : text = "null"
    · subst hnull
      exact (pure_rests _).after
    · by_cases hdict : text = "<<"
      · subst hdict
        exact note_rests (dict [])
      · by_cases harray : text = "["
        · subst harray
          exact note_rests (array [])
        · simp only [Reader.objectFrom, if_neg hnull, if_neg hdict, if_neg harray]
          exact Rests.after (fail_rests _)
  | str data =>
    have hdecipher : Rests Rested (Reader.decipher (σ := Watched σ) data) :=
      (decipher_unseen data).ensures (Reader.decipher_keepsPending (P := Unread) data)
    exact hdecipher.after.bind fun _ => pure_rests _
  | int n =>
    have hsettings : Ensures (σ := σ) (fun v => v.reader.pending = []) (Taken (.int n))
        Reader.getSettings (fun _ => Taken (.int n)) (fun _ => Rested) :=
      getSettings_unseen.ensures fun _ h => h
    apply hsettings.bind
    intro settings
    apply PdfSyntax.Ensures.ite
    · intro _
      apply ((suffix_unseen n).ensures (Reader.suffix_rested n n)).bind
      intro suffix
      cases suffix with
      | nothing => exact pure_rests _
      | reference ref => exact pure_rests _
      | definition ref =>
        exact within_ensures ref (definition ref) (fun _ h => h) (fun _ h => h) (fun _ h => h)
    · exact fun _ => (pure_rests _).after
  | _ => exact (pure_rests _).after

theorem definition_succ_rests (ref : Ref) (object : Rests Rested ((note (σ := σ)).object bound)) :
    Rests Rested ((note (σ := σ)).definition (bound + 1) ref) := by
  apply object.bind
  intro body
  apply PdfSyntax.Ensures.ite
  · exact fun _ => pure_rests _
  · intro _
    apply token_rests.bind
    intro next
    apply PdfSyntax.Ensures.ite
    · exact fun _ => (pure_rests _).after
    · exact fun _ => (push_rests next).bind fun _ => fail_rests _

theorem array_succ_rests (items : List Obj) (object : Rests Rested ((note (σ := σ)).object bound))
    (array : ∀ items, Rests Rested ((note (σ := σ)).array bound items)) :
    Rests Rested ((note (σ := σ)).array (bound + 1) items) := by
  apply token_rests.bind
  intro next
  apply PdfSyntax.Ensures.ite
  · exact fun _ => (pure_rests _).after
  · intro _
    apply (push_rests next).bind
    exact fun _ => object.bind fun item => array (item :: items)

theorem dict_succ_rests (entries : Dict) (object : Rests Rested ((note (σ := σ)).object bound))
    (dict : ∀ entries, Rests Rested ((note (σ := σ)).dict bound entries)) :
    Rests Rested ((note (σ := σ)).dict (bound + 1) entries) := by
  have hend : Rests Rested (Reader.dictOrStream (σ := Watched σ) entries) :=
    (dictOrStream_unseen entries).ensures (Reader.dictOrStream_rested entries)
  apply token_rests.bind
  intro next
  apply PdfSyntax.Ensures.ite
  · exact fun _ => hend.after
  · intro _
    cases next with
    | name name =>
      apply object.after.bind
      intro value
      apply PdfSyntax.Ensures.ite
      · intro _
        have hwarn : Rests Rested (Reader.record (σ := Watched σ) .warning Reader.valuelessMessage
            (Reader.render Reader.valuelessMessage [.name name])) :=
          (record_unseen _ _ _).ensures (Reader.record_keepsPending (P := Unread) _ _ _)
        exact hwarn.bind fun _ => hend
      · exact fun _ => dict _
    | _ => exact Rests.after (fail_rests _)

/-- By induction on the bound that the four activities share. -/
theorem all_rest (bound : Nat) :
    Rests Rested ((note (σ := σ)).object bound) ∧
    (∀ ref, Rests Rested ((note (σ := σ)).definition bound ref)) ∧
    (∀ items, Rests Rested ((note (σ := σ)).array bound items)) ∧
    (∀ entries, Rests Rested ((note (σ := σ)).dict bound entries)) := by
  induction bound with
  | zero =>
    have hexhausted : Rests Rested (throw .exhausted : Reading (Watched σ) Obj) := .throw fun _ h => h
    exact ⟨hexhausted, fun _ => hexhausted, fun _ => hexhausted, fun _ => hexhausted⟩
  | succ bound ih =>
    obtain ⟨object, definition, array, dict⟩ := ih
    exact ⟨object_succ_rests definition array dict, fun ref => definition_succ_rests ref object,
      fun items => array_succ_rests items object array,
      fun entries => dict_succ_rests entries object dict⟩

theorem next_rests : Rests Rested (note (σ := σ)).next :=
  fun r hr => (all_rest _).1 r hr

theorem objectsWithin_rests (bound : Nat) : Rests Rested ((note (σ := σ)).objectsWithin bound) := by
  induction bound with
  | zero => exact .throw fun _ h => h
  | succ bound ih =>
    apply next_rests.bind
    intro object
    apply PdfSyntax.Ensures.ite
    · exact fun _ => pure_rests _
    · exact fun _ => ih.bind fun _ => pure_rests _

/-- No operation leaves more unread than there may be, unless somebody pushes back. -/
theorem perform_rests {operation : Operation} (hpush : ∀ token, operation ≠ .push token) :
    Rests Rested (perform (σ := σ) operation) := by
  cases operation with
  | object => exact next_rests.bind fun _ => pure_rests _
  | objectAt target =>
    have hseek : Rests Rested (Reader.seek (σ := Watched σ) target) :=
      (seek_unseen target).ensures (Reader.seek_rested target)
    have hobject : Rests Rested (objectAt (σ := σ) target) := hseek.bind fun _ => next_rests
    exact hobject.bind fun _ => pure_rests _
  | objects =>
    have hobjects : Rests Rested (note (σ := σ)).objects := fun r hr => objectsWithin_rests _ r hr
    exact hobjects.bind fun _ => pure_rests _
  | _ =>
    rw [perform_eq fun h => by cases h]
    exact (perform_unseen fun h => by cases h).ensures
      (Reader.perform_rested (fun h => by cases h) hpush)

end Descent
end Watched
end PdfSyntax
