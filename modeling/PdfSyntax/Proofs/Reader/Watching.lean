import PdfSyntax.Proofs.Session.Agreement

/-!
# Watching a reader

The inside of an array or of a dictionary is read by an activity of its own. To speak of the reader as it
is whenever one of these begins, it reads from a watched cursor, which keeps a note of each time. A watched
cursor does what it does without the notes, and so does the reader: it does not act on them.
-/

set_option autoImplicit false

namespace PdfSyntax

/-- The beginning of an array or of a dictionary: its bracket, and the reader right behind it. -/
structure Visit (σ : Type) where
  bracket : String
  reader : Reader σ

/-- A cursor with the visits so far. -/
structure Watched (σ : Type) where
  cursor : σ
  visits : List (Visit σ)

namespace Watched
variable {σ α β : Type}

/-- A move of the cursor, which makes no note. -/
def move (m : EStateM Failure σ α) : EStateM Failure (Watched σ) α := fun w =>
  match m w.cursor with
  | .ok a cursor => .ok a { w with cursor }
  | .error e cursor => .error e { w with cursor }

theorem eq_ok_of_move {m : EStateM Failure σ α} {w w' : Watched σ} {a : α} (h : move m w = .ok a w') :
    m w.cursor = .ok a w'.cursor := by
  unfold move at h
  split at h
  · next hm =>
    cases h
    exact hm
  · cases h

instance [Cursor σ] : Cursor (Watched σ) where
  next tolerant := move (Cursor.next tolerant)
  back w := { w with cursor := Cursor.back w.cursor }
  offset w := Cursor.offset w.cursor
  isEnded w := Cursor.isEnded w.cursor
  seek target := move (Cursor.seek target)
  forward tolerant target := move (Cursor.forward tolerant target)
  left w := Cursor.left w.cursor
  left_next h := Cursor.left_next (eq_ok_of_move h)
  left_end h := Cursor.left_end (eq_ok_of_move h)

/-- The reader without the notes. -/
def unwatched (r : Reader (Watched σ)) : Reader σ :=
  r.withCursor r.cursor.cursor

/-- Makes a note of the bracket that has just been taken. -/
def note : Reader.Opening (Watched σ) := fun bracket =>
  modify fun r =>
    { r with cursor := { r.cursor with visits := r.cursor.visits ++ [⟨bracket, unwatched r⟩] } }

def objectAt [Cursor σ] (target : Int) : Reading (Watched σ) Obj := do
  Reader.seek target
  note.next

/-- As `Reader.perform`, with the beginnings of arrays and dictionaries noted. -/
def perform [Cursor σ] : Operation → Reading (Watched σ) Outcome
  | .object => return .object (some (← note.next))
  | .objectAt target => return .object (some (← objectAt target))
  | .objects => return .objects (← note.objects)
  | operation => Reader.perform operation

/-- A watched cursor with such visits, and the same cursor. -/
def Shows (K : List (Visit σ) → Prop) (w : Watched σ) (c : σ) : Prop :=
  w.cursor = c ∧ K w.visits

section Unwatched
variable {K : List (Visit σ) → Prop}

theorem alike_unwatched {r : Reader (Watched σ)} (h : K r.cursor.visits) :
    r.Alike (Shows K) (unwatched r) :=
  ⟨r.cursor.cursor, ⟨rfl, h⟩, rfl⟩

theorem eq_unwatched_of_alike {r : Reader (Watched σ)} {s : Reader σ} (h : r.Alike (Shows K) s) :
    s = unwatched r ∧ K r.cursor.visits := by
  obtain ⟨c, ⟨rfl, hK⟩, rfl⟩ := h
  exact ⟨rfl, hK⟩

theorem move_keep (m : EStateM Failure σ α) : Keep Failure (Shows K) (move m) m := by
  rintro w c ⟨rfl, hK⟩
  simp only [move]
  cases m w.cursor with
  | ok a c => exact .ok ⟨rfl, hK⟩
  | error e c => exact .error ⟨rfl, hK⟩

theorem note_keep (bracket : String) : Keep Failure (Reader.Alike (Shows fun _ => True))
    (note (σ := σ) bracket) (Reader.Opening.none bracket) := by
  rintro r s ⟨c, ⟨rfl, -⟩, rfl⟩
  exact .ok ⟨r.cursor.cursor, ⟨rfl, trivial⟩, rfl⟩

variable [Cursor σ]

theorem shows_simulation (K : List (Visit σ) → Prop) : Simulation (Shows K) fun _ => True where
  next tolerant := by
    rintro w c ⟨rfl, hK⟩
    simp only [Cursor.next, move]
    cases Cursor.next tolerant w.cursor with
    | ok byte c => exact .ok ⟨⟨rfl, hK⟩, fun _ => ⟨rfl, hK⟩⟩
    | error e c => exact .error ⟨rfl, hK⟩
  offset h := congrArg Cursor.offset h.1
  isEnded h := congrArg Cursor.isEnded h.1
  left h := congrArg Cursor.left h.1
  seek _ := move_keep _

theorem likeness (K : List (Visit σ) → Prop) : Reader.Likeness (Shows K) (Reader.Alike (Shows K)) :=
  Reader.alike_likeness (shows_simulation K)

/-- What does the same to a reader, be it watched or not, and makes no note. -/
def Unseen (m : Reading (Watched σ) α) (n : Reading σ α) : Prop :=
  ∀ K : List (Visit σ) → Prop, Keep Failure (Reader.Alike (Shows K)) m n

omit [Cursor σ] in
theorem getSettings_unseen : Unseen (σ := σ) Reader.getSettings Reader.getSettings :=
  fun _ => Reader.keep_of_withCursor fun _ _ => ⟨rfl, rfl⟩

omit [Cursor σ] in
theorem decipher_unseen (data : Bytes) : Unseen (σ := σ) (Reader.decipher data) (Reader.decipher data) :=
  fun _ => Reader.decipher_keep data

theorem token_unseen : Unseen (σ := σ) Reader.token Reader.token :=
  fun K => (likeness K).token_keep (shows_simulation K)

theorem push_unseen (token : Obj) : Unseen (σ := σ) (Reader.push token) (Reader.push token) :=
  fun K => (likeness K).push_keep token

theorem fail_unseen (fault : Fault) :
    Unseen (σ := σ) (Reader.fail (α := α) fault) (Reader.fail fault) :=
  fun K => (likeness K).fail_keep (shows_simulation K) fault

theorem record_unseen (level : Level) (message : String) (text : Except Failure String) :
    Unseen (σ := σ) (Reader.record level message text) (Reader.record level message text) :=
  fun K => Reader.record_keep (shows_simulation K) level message text

theorem suffix_unseen (id : Int) : Unseen (σ := σ) (Reader.suffix id) (Reader.suffix id) :=
  fun K => (likeness K).suffix_keep (shows_simulation K) id

theorem dictOrStream_unseen (entries : Dict) :
    Unseen (σ := σ) (Reader.dictOrStream entries) (Reader.dictOrStream entries) :=
  fun K => ((likeness K).congruence (shows_simulation K)).toPayloadCongruence.dictOrStream entries

theorem seek_unseen (target : Int) : Unseen (σ := σ) (Reader.seek target) (Reader.seek target) :=
  fun K => (likeness K).seek_keep (shows_simulation K) trivial

/-- Only what reads objects comes to the beginning of any. -/
theorem perform_unseen {operation : Operation} (h : operation.scope ≠ .objects) :
    Unseen (σ := σ) (Reader.perform operation) (Reader.perform operation) := by
  intro K
  have like := likeness (σ := σ) K
  have sim := shows_simulation (σ := σ) K
  refine Reader.perform_keep like sim ?_
  cases operation with
  | back =>
    rintro r s ⟨c, hc, rfl⟩
    obtain ⟨rfl, hK⟩ := hc
    exact .ok ⟨Cursor.back r.cursor.cursor, ⟨rfl, hK⟩, rfl⟩
  | forward target => exact like.settings_bind fun a b hab => hab.tolerant ▸ like.onCursor_keep (move_keep _)
  | object | objectAt _ | objects => exact absurd rfl h
  | _ => exact Operation.KeepsWithin.isKept sim (by trivial)

theorem perform_eq {operation : Operation} (h : operation.scope ≠ .objects) :
    perform (σ := σ) operation = Reader.perform operation := by
  cases operation with
  | object | objectAt _ | objects => exact absurd rfl h
  | _ => rfl

/-- A watched reader does what it does when it is not watched. -/
theorem perform_shows (operation : Operation) :
    Keep Failure (Reader.Alike (Shows fun _ => True)) (perform (σ := σ) operation)
      (Reader.perform operation) := by
  have like := likeness (σ := σ) fun _ => True
  have sim := shows_simulation (σ := σ) fun _ => True
  have hnext := like.next_keep sim note_keep
  cases operation with
  | object => exact hnext.bind fun _ => .pure fun _ _ h => h
  | objectAt target =>
    have hobject : Keep Failure (Reader.Alike (Shows fun _ => True)) (objectAt (σ := σ) target)
        (Reader.objectAt target) := (seek_unseen target _).bind fun _ => hnext
    exact hobject.bind fun _ => .pure fun _ _ h => h
  | objects => exact (like.allOpened_keep sim note_keep).bind fun _ => .pure fun _ _ h => h
  | _ =>
    rw [perform_eq fun h => by cases h]
    exact perform_unseen (fun h => by cases h) _

end Unwatched

/-- A watched reader that is as promised, and was at every visit. -/
def Has (V : Visit σ → Prop) (P : Reader σ → Prop) (r : Reader (Watched σ)) : Prop :=
  P (unwatched r) ∧ ∀ v ∈ r.cursor.visits, V v

section Promises
variable {V : Visit σ → Prop} {P : Reader σ → Prop} {Q : α → Reader σ → Prop}
variable {E : Failure → Reader σ → Prop}

/-- What a reader ensures, whether it is watched or not. -/
abbrev Ensures (V : Visit σ → Prop) (P : Reader σ → Prop) (m : Reading (Watched σ) α)
    (Q : α → Reader σ → Prop) (E : Failure → Reader σ → Prop) : Prop :=
  PdfSyntax.Ensures (Has V P) m (fun a => Has V (Q a)) (fun e => Has V (E e))

theorem Unseen.ensures {m : Reading (Watched σ) α} {n : Reading σ α} (hsame : Unseen m n)
    (h : PdfSyntax.Ensures P n Q E) : Ensures V P m Q E := by
  rintro r ⟨hr, hvisits⟩
  have hn := h (unwatched r) hr
  have hend := hsame (fun visits => ∀ v ∈ visits, V v) r (unwatched r) (alike_unwatched hvisits)
  generalize m r = x at hend ⊢
  generalize n (unwatched r) = y at hend hn
  cases hend with
  | ok halike =>
    obtain ⟨rfl, hvisits⟩ := eq_unwatched_of_alike halike
    exact ⟨hn, hvisits⟩
  | error halike =>
    obtain ⟨rfl, hvisits⟩ := eq_unwatched_of_alike halike
    exact ⟨hn, hvisits⟩

theorem note_ensures {bracket : String} (h : ∀ r, P r → V ⟨bracket, r⟩) :
    Ensures V P (note bracket) (fun _ => P) E := by
  rintro r ⟨hr, hvisits⟩
  refine ⟨hr, fun v hv => ?_⟩
  rcases List.mem_append.mp hv with hv | hv
  · exact hvisits v hv
  · rw [List.mem_singleton.mp hv]
    exact h _ hr

/-- An activity as part of another object, where what is promised is not about the object at hand. -/
theorem within_ensures (ref : Ref) {m : Reading (Watched σ) α} (h : Ensures V P m Q E)
    (hP : ∀ {r} context, P r → P { r with context })
    (hQ : ∀ {a r} context, Q a r → Q a { r with context })
    (hE : ∀ {e r} context, E e r → E e { r with context }) : Ensures V P (Reader.within ref m) Q E := by
  rintro r ⟨hr, hvisits⟩
  have hm := h { r with context := ref } ⟨hP ref hr, hvisits⟩
  simp only [Reader.within]
  cases hend : m { r with context := ref } with
  | ok a r' =>
    rw [hend] at hm
    exact ⟨hQ _ hm.1, hm.2⟩
  | error e r' =>
    rw [hend] at hm
    exact ⟨hE _ hm.1, hm.2⟩

theorem Ensures.of_fact {p : Prop} {m : Reading (Watched σ) α} (h : p → Ensures V P m Q E) :
    Ensures V (fun r => p ∧ P r) m Q E :=
  fun r hr => h hr.1.1 r ⟨hr.1.2, hr.2⟩

/-- Where it is known what the first activity yields, the second one starts from that. -/
theorem Ensures.bind_of_eq {a : α} {R : Reader σ → Prop} {B : β → Reader σ → Prop}
    {m : Reading (Watched σ) α} {f : α → Reading (Watched σ) β}
    (hm : Ensures V P m (fun read r => read = a ∧ R r) E) (hf : Ensures V R (f a) B E) :
    Ensures V P (m >>= f) B E := by
  apply PdfSyntax.Ensures.bind hm
  intro read
  refine Ensures.of_fact ?_
  rintro rfl
  exact hf

theorem pure_ensures {a : α} (h : ∀ r, P r → Q a r) : Ensures V P (Pure.pure a) Q E :=
  .pure fun _ hr => ⟨h _ hr.1, hr.2⟩

/-- Making something of the value changes nothing. -/
theorem Ensures.returns {R : Reader σ → Prop} {m : Reading (Watched σ) α}
    (h : Ensures V P m (fun _ => R) E) (f : α → β) :
    Ensures V P (m >>= fun a => Pure.pure (f a)) (fun _ => R) E :=
  PdfSyntax.Ensures.bind h fun _ => pure_ensures fun _ h => h

end Promises

end Watched

/-- The reader as it is watched from now on. -/
def Reader.watched {σ : Type} (r : Reader σ) : Reader (Watched σ) :=
  r.withCursor ⟨r.cursor, []⟩

/-- The beginnings of arrays and dictionaries in an operation of a reader. -/
def Reader.visits {σ : Type} [Cursor σ] (r : Reader σ) (operation : Operation) : List (Visit σ) :=
  match Watched.perform operation r.watched with
  | .ok _ r' => r'.cursor.visits
  | .error _ r' => r'.cursor.visits

/-- What an operation ensures of a watched reader at its end and at the visits holds of the reader and of
its visits. -/
theorem Watched.Ensures.leaves_visits {σ : Type} [Cursor σ] {V : Visit σ → Prop} {P : Reader σ → Prop}
    {Q : Outcome → Reader σ → Prop} {E : Failure → Reader σ → Prop} {operation : Operation}
    (h : Watched.Ensures V P (Watched.perform operation) Q E) :
    (PdfSyntax.Ensures P (Reader.perform operation) Q E) ∧
      ∀ r, P r → ∀ v ∈ r.visits operation, V v := by
  have hstart : ∀ r : Reader σ, P r → Watched.Has V P r.watched :=
    fun r hr => ⟨hr, fun _ hv => (nomatch hv)⟩
  constructor
  · intro r hr
    have hend := h _ (hstart r hr)
    have hsame := perform_shows operation r.watched r ⟨r.cursor, ⟨rfl, trivial⟩, rfl⟩
    generalize perform operation r.watched = x at hend hsame
    generalize Reader.perform operation r = y at hsame ⊢
    cases hsame with
    | ok halike =>
      obtain ⟨rfl, -⟩ := eq_unwatched_of_alike halike
      exact hend.1
    | error halike =>
      obtain ⟨rfl, -⟩ := eq_unwatched_of_alike halike
      exact hend.1
  · intro r hr v hv
    have hend := h _ (hstart r hr)
    rw [Reader.visits] at hv
    generalize perform operation r.watched = x at hend hv
    cases x with
    | ok a r' => exact hend.2 v hv
    | error e r' => exact hend.2 v hv

end PdfSyntax
