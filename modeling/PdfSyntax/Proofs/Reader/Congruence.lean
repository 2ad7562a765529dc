import PdfSyntax.Proofs.Reader.Messages

/-!
# Relations that reading respects

Whatever takes tokens is made of a few moves, by sequencing and by choices that go by the settings, by
the tokens and by nothing else. A relation between activities that holds of the moves and is closed under
sequencing therefore holds of all that takes tokens. If it moreover holds of what comes after a
dictionary and of deciphering, and is closed under reading as part of an object, it holds of all that
reads objects. What comes after a dictionary may be a stream, and to read on to its payload takes further
moves, which look at bytes and places.
-/

set_option autoImplicit false

namespace PdfSyntax.Reader

variable {σ τ : Type}

/-- What reading records of its own accord: a level, a message and the text that the message makes. -/
inductive IsSaid : Level → String → String → Prop where
  | cutShort : IsSaid .warning cutShortMessage cutShortMessage
  | valueless (name : String) :
    IsSaid .warning valuelessMessage ("dictionary key /" ++ name ++ " has no value")
  | loneReturn : IsSaid .warning loneReturnMessage loneReturnMessage

/-- A relation that sequencing and the moves of taking tokens respect. -/
structure TokenCongruence [Cursor σ] [Cursor τ]
    (C : (α : Type) → Reading σ α → Reading τ α → Prop) : Prop where
  pure : ∀ {α : Type} (a : α), C α (Pure.pure a) (Pure.pure a)
  bind : ∀ {α β : Type} {m : Reading σ α} {n : Reading τ α} {f : α → Reading σ β} {g : α → Reading τ β},
    C α m n → (∀ a, C β (f a) (g a)) → C β (m >>= f) (n >>= g)
  settings : ∀ {β : Type} {f : Settings → Reading σ β} {g : Settings → Reading τ β},
    (∀ a b : Settings, a.references = b.references → a.streams = b.streams → C β (f a) (g b)) →
    C β (getSettings >>= f) (getSettings >>= g)
  push : ∀ token, C Unit (push token) (push token)
  token : C Obj token token
  fail : ∀ {α : Type} fault, C α (fail fault) (fail fault)
  record : ∀ {level message text}, IsSaid level message text →
    C Unit (record level message (.ok text)) (record level message (.ok text))

/-- A relation that also the moves of reading on to a payload respect. -/
structure PayloadCongruence [Cursor σ] [Cursor τ]
    (C : (α : Type) → Reading σ α → Reading τ α → Prop) : Prop extends TokenCongruence C where
  context : C Ref getContext getContext
  place : C Int place place
  streamStart : C Unit streamStart streamStart

/-- A relation that reading objects respects, whatever it makes of streams. -/
structure ObjectCongruence [Cursor σ] [Cursor τ]
    (C : (α : Type) → Reading σ α → Reading τ α → Prop) : Prop extends TokenCongruence C where
  dictOrStream : ∀ entries, C Obj (dictOrStream entries) (dictOrStream entries)
  exhausted : C Obj (throw .exhausted) (throw .exhausted)
  decipher : ∀ data, C Bytes (decipher data) (decipher data)
  within : ∀ {α : Type} {m : Reading σ α} {n : Reading τ α} ref,
    C α m n → C α (within ref m) (within ref n)

/-- A relation that all moves of reading objects respect. -/
structure Congruence [Cursor σ] [Cursor τ] (C : (α : Type) → Reading σ α → Reading τ α → Prop) : Prop
    extends PayloadCongruence C where
  exhausted : C Obj (throw .exhausted) (throw .exhausted)
  decipher : ∀ data, C Bytes (decipher data) (decipher data)
  within : ∀ {α : Type} {m : Reading σ α} {n : Reading τ α} ref,
    C α m n → C α (within ref m) (within ref n)

/-- Two choices by one condition are related if they are in either case. -/
theorem choose {R : σ → τ → Prop} {c : Prop} [Decidable c] {a a' : σ} {b b' : τ} (ht : c → R a b)
    (he : ¬ c → R a' b') : R (if c then a else a') (if c then b else b') := by
  by_cases hc : c
  · rw [if_pos hc, if_pos hc]; exact ht hc
  · rw [if_neg hc, if_neg hc]; exact he hc

variable [Cursor σ] [Cursor τ] {C : (α : Type) → Reading σ α → Reading τ α → Prop}

namespace TokenCongruence
variable (congr : TokenCongruence C)
include congr

theorem tokens (count : Nat) : C (List Obj) (tokens count) (tokens count) := by
  induction count with
  | zero => exact congr.pure []
  | succ count ih =>
    apply congr.bind congr.token
    intro token
    cases token.isEnd with
    | true => exact congr.pure []
    | false => exact congr.bind ih fun rest => congr.pure (token :: rest)

theorem tokenOr (fallback : Obj) : C Obj (tokenOr fallback) (tokenOr fallback) :=
  congr.bind congr.token fun _ => congr.pure _

theorem suffix (id : Int) : C Suffix (suffix id) (suffix id) := by
  apply congr.bind congr.token
  intro second
  cases second.natural? Ref.genLimit with
  | none => exact congr.bind (congr.push second) fun _ => congr.pure _
  | some gen =>
    apply congr.bind congr.token
    intro third
    apply choose (R := C _)
    · exact fun _ => congr.pure _
    · intro _
      apply choose (R := C _)
      · exact fun _ => congr.pure _
      · exact fun _ => congr.bind (congr.push third) fun _ => congr.bind (congr.push second) fun _ =>
          congr.pure _

end TokenCongruence

theorem PayloadCongruence.dictOrStream (congr : PayloadCongruence C) (entries : Dict) :
    C Obj (dictOrStream entries) (dictOrStream entries) := by
  apply congr.settings
  intro a b _ hstreams
  rw [hstreams]
  apply choose (R := C _)
  · intro _
    apply congr.bind congr.token
    intro next
    apply choose (R := C _)
    · exact fun _ => congr.bind congr.streamStart fun _ => congr.bind congr.context fun _ =>
        congr.bind congr.place fun _ => congr.pure _
    · exact fun _ => congr.bind (congr.push next) fun _ => congr.pure _
  · exact fun _ => congr.pure _

namespace ObjectCongruence
variable (congr : ObjectCongruence C)
include congr

section Step
variable {bound bound' : Nat}

theorem objectFrom {definition : Ref → Reading σ Obj} {definition' : Ref → Reading τ Obj}
    {array dict : Reading σ Obj} {array' dict' : Reading τ Obj}
    (hdefinition : ∀ ref, C Obj (definition ref) (definition' ref)) (harray : C Obj array array')
    (hdict : C Obj dict dict') (first : Obj) :
    C Obj (objectFrom definition array dict first) (objectFrom definition' array' dict' first) := by
  cases first with
  | keyword text =>
    apply choose (R := C _)
    · exact fun _ => congr.pure _
    · intro _
      apply choose (R := C _)
      · exact fun _ => hdict
      · intro _
        apply choose (R := C _)
        · exact fun _ => harray
        · exact fun _ => congr.fail _
  | str data => exact congr.bind (congr.decipher data) fun _ => congr.pure _
  | int n =>
    apply congr.settings
    intro a b hreferences _
    rw [hreferences]
    apply choose (R := C _)
    · intro _
      apply congr.bind (congr.suffix n)
      intro suffix
      cases suffix with
      | nothing => exact congr.pure _
      | reference ref => exact congr.pure _
      | definition ref => exact congr.within ref (hdefinition ref)
    · exact fun _ => congr.pure _
  | _ => exact congr.pure _

variable {opening : Opening σ} {opening' : Opening τ}

theorem definition_succ (object : C Obj (opening.object bound) (opening'.object bound')) (ref : Ref) :
    C Obj (opening.definition (bound + 1) ref) (opening'.definition (bound' + 1) ref) := by
  apply congr.bind object
  intro body
  apply choose (R := C _)
  · exact fun _ => congr.pure _
  · intro _
    apply congr.bind congr.token
    intro next
    apply choose (R := C _)
    · exact fun _ => congr.pure _
    · exact fun _ => congr.bind (congr.push next) fun _ => congr.fail _

theorem array_succ (object : C Obj (opening.object bound) (opening'.object bound'))
    (array : ∀ items, C Obj (opening.array bound items) (opening'.array bound' items))
    (items : List Obj) : C Obj (opening.array (bound + 1) items) (opening'.array (bound' + 1) items) := by
  apply congr.bind congr.token
  intro next
  apply choose (R := C _)
  · exact fun _ => congr.pure _
  · exact fun _ => congr.bind (congr.push next) fun _ => congr.bind object fun item =>
      array (item :: items)

theorem dict_succ (object : C Obj (opening.object bound) (opening'.object bound'))
    (dict : ∀ entries, C Obj (opening.dict bound entries) (opening'.dict bound' entries))
    (entries : Dict) : C Obj (opening.dict (bound + 1) entries) (opening'.dict (bound' + 1) entries) := by
  apply congr.bind congr.token
  intro next
  apply choose (R := C _)
  · exact fun _ => congr.dictOrStream entries
  · intro _
    cases next with
    | name name =>
      apply congr.bind object
      intro value
      apply choose (R := C _)
      · intro _
        rw [render_valueless]
        exact congr.bind (congr.record (.valueless name)) fun _ => congr.dictOrStream entries
      · exact fun _ => dict _
    | _ => exact congr.fail _

end Step

section Opened
variable {opening : Opening σ} {opening' : Opening τ}
variable (hopening : ∀ bracket, C Unit (opening bracket) (opening' bracket))
include hopening

/-- All four activities that read an object, by induction on the bound that they share. -/
theorem all (bound : Nat) :
    C Obj (opening.object bound) (opening'.object bound) ∧
    (∀ ref, C Obj (opening.definition bound ref) (opening'.definition bound ref)) ∧
    (∀ items, C Obj (opening.array bound items) (opening'.array bound items)) ∧
    (∀ entries, C Obj (opening.dict bound entries) (opening'.dict bound entries)) := by
  induction bound with
  | zero => exact ⟨congr.exhausted, fun _ => congr.exhausted, fun _ => congr.exhausted,
      fun _ => congr.exhausted⟩
  | succ bound ih =>
    obtain ⟨object, definition, array, dict⟩ := ih
    have hobject := congr.objectFrom definition (congr.bind (hopening "[") fun _ => array [])
      (congr.bind (hopening "<<") fun _ => dict [])
    exact ⟨congr.bind congr.token hobject, congr.definition_succ object, congr.array_succ object array,
      congr.dict_succ object dict⟩

theorem opened (bound : Nat) : C Obj (opening.object bound) (opening'.object bound) :=
  (congr.all hopening bound).1

end Opened

theorem objectWithin (bound : Nat) : C Obj (objectWithin bound) (objectWithin bound) :=
  congr.opened (fun _ => congr.pure ()) bound

end ObjectCongruence

namespace Congruence
variable (congr : Congruence C)
include congr

theorem toObject : ObjectCongruence C :=
  { congr with dictOrStream := congr.toPayloadCongruence.dictOrStream }

theorem objectWithin (bound : Nat) : C Obj (objectWithin bound) (objectWithin bound) :=
  congr.toObject.objectWithin bound

end Congruence
end PdfSyntax.Reader
