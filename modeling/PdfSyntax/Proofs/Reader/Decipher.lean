import PdfSyntax.Proofs.Obj.Decipher
import PdfSyntax.Proofs.Reader.Pending

/-!
# Reading with a key and without

Which strings a reader takes as objects does not depend on the key: they are listed here along a reading
without one, in the order of the text, each with the object that it is part of. With a key, the same
reading asks for each of these strings, if it is part of an object, and for no other; and it yields the
same objects with their strings deciphered. Whatever is only looked at and pushed back is not among
them, and neither is any name.
-/

set_option autoImplicit false

namespace PdfSyntax

variable {σ α β γ : Type}

namespace Reader

/-- What the rest of an activity takes, after a first part that takes no string. -/
def afterwards (m : Reading σ α) (strings : α → Reader σ → List PlacedString) (r : Reader σ) :
    List PlacedString :=
  match m r with
  | .ok a r' => strings a r'
  | .error _ _ => []

theorem afterwards_of_ok {m : Reading σ α} {r r' : Reader σ} {a : α} (h : m r = .ok a r')
    (strings : α → Reader σ → List PlacedString) : afterwards m strings r = strings a r' := by
  rw [afterwards, h]

theorem afterwards_nothing (m : Reading σ α) (r : Reader σ) :
    [] = afterwards m (fun _ _ => []) r := by
  unfold afterwards
  cases m r <;> rfl

/-- What is taken after an integer, depending on what it turned out to begin. -/
def suffixStrings (definition : Reader σ → List PlacedString) : Suffix → Reader σ → List PlacedString
  | .definition ref, r => definition { r with context := ref }
  | _, _ => []

section Strings
variable [Cursor σ]

mutual

/-- The strings that are taken while an object is read. -/
def stringsWithin : Nat → Reader σ → List PlacedString
  | 0, _ => []
  | bound + 1, r =>
    afterwards token (fun
      | .keyword text, r =>
        if text = "<<" then dictStringsWithin bound r
        else if text = "[" then arrayStringsWithin bound r
        else []
      | .str data, r => [⟨r.context, data⟩]
      | .int n, r =>
        if r.settings.references ∧ 0 ≤ n ∧ n < Ref.idLimit then
          afterwards (suffix n) (suffixStrings (definitionStringsWithin bound)) r
        else []
      | _, _ => []) r

def definitionStringsWithin : Nat → Reader σ → List PlacedString
  | 0, _ => []
  | bound + 1, r => stringsWithin bound r

/-- A token pushed back is read again as an object, and is taken then. -/
def arrayStringsWithin : Nat → Reader σ → List PlacedString
  | 0, _ => []
  | bound + 1, r =>
    afterwards token (fun next r =>
      if next.isEnd || next.isKeyword "]" then []
      else
        afterwards (push next) (fun _ r =>
          stringsWithin bound r ++
            afterwards (objectWithin bound) (fun _ => arrayStringsWithin bound) r) r) r

/-- A key is no object. -/
def dictStringsWithin : Nat → Reader σ → List PlacedString
  | 0, _ => []
  | bound + 1, r =>
    afterwards token (fun next r =>
      if next.isEnd || next.isKeyword ">>" then []
      else
        match next with
        | .name _ =>
          stringsWithin bound r ++
            afterwards (objectWithin bound) (fun value r =>
              if value.isEnd then [] else dictStringsWithin bound r) r
        | _ => []) r

end

def objectStrings (r : Reader σ) : List PlacedString :=
  stringsWithin (2 * r.weight + 2) r

def objectsStringsWithin : Nat → Reader σ → List PlacedString
  | 0, _ => []
  | bound + 1, r =>
    objectStrings r ++
      afterwards object (fun object r => if object.isEnd then [] else objectsStringsWithin bound r) r

def objectsStrings (r : Reader σ) : List PlacedString :=
  objectsStringsWithin (r.weight + 1) r

end Strings
end Reader

/-- A key with all that bears on what it does: the other settings, the decipherment that a reader is
given, and what this makes of the strings of an object. -/
structure Keying where
  settings : Settings
  decrypt : Decipherment
  key : Bytes
  cipher : Ref → Bytes → Bytes

namespace Keying
variable (w : Keying)

/-- A reader without the key, at an object. -/
structure Keyless (context : Ref) (r : Reader σ) : Prop where
  settings : r.settings = { w.settings with key := none }
  decrypt : r.decrypt = w.decrypt
  context : r.context = context

/-- Moreover nothing but tokens is pushed back. -/
structure Plain (context : Ref) (r : Reader σ) : Prop extends w.Keyless context r where
  tokens : r.HoldsTokens

/-- The reader with the key, when it has asked for some strings. -/
def keyed (asked : List Request) (r : Reader σ) : Reader σ :=
  { r with settings := { w.settings with key := some w.key }, requests := asked }

def request (string : PlacedString) : Request :=
  ⟨w.key, w.settings.algorithm, string.context, string.data⟩

/-- What is asked for strings: each one once that is part of an object. -/
def requests (strings : List PlacedString) : List Request :=
  (strings.filter fun string => string.context.id ≠ 0).map w.request

/-- Whether the decipherment makes of all strings what it is said to make. -/
def Answers (strings : List PlacedString) : Prop :=
  ∀ string ∈ strings, string.context.id ≠ 0 →
    w.decrypt (w.request string) = .ok (w.cipher string.context string.data)

def keyedEnd (asked : List Request) (f : α → β) :
    EStateM.Result Failure (Reader σ) α → EStateM.Result Failure (Reader σ) β
  | .ok a r => .ok (f a) (w.keyed asked r)
  | .error e r => .error e (w.keyed asked r)

theorem requests_append (as bs : List PlacedString) :
    w.requests (as ++ bs) = w.requests as ++ w.requests bs := by
  simp only [requests, List.filter_append, List.map_append]

/-- With the key, the second activity does what the first one does without: it yields what the function
makes of the first one's value, and asks for the strings given. -/
structure Commutes (context : Ref) (strings : Reader σ → List PlacedString) (f : α → β)
    (m : Reading σ α) (n : Reading σ β) : Prop where
  keeps : Ensures (w.Plain context) m (fun _ => w.Plain context) (fun _ => w.Plain context)
  keyed_eq : ∀ r asked, w.Plain context r → w.Answers (strings r) →
    n (w.keyed asked r) = w.keyedEnd (asked ++ w.requests (strings r)) f (m r)

/-- An activity that takes no string. -/
abbrev Silent (context : Ref) (m : Reading σ α) : Prop :=
  w.Commutes context (fun _ => []) id m m

namespace Commutes
variable {w} {context : Ref} {strings strings' : Reader σ → List PlacedString} {f : α → β}
variable {m m' : Reading σ α} {n n' : Reading σ β}

theorem congr (h : w.Commutes context strings f m n)
    (heq : ∀ r, w.Plain context r → strings' r = strings r) : w.Commutes context strings' f m n := by
  refine ⟨h.keeps, ?_⟩
  intro r asked hr
  rw [heq r hr]
  exact h.keyed_eq r asked hr

theorem pure {a : α} {b : β} (h : b = f a) :
    w.Commutes (σ := σ) context (fun _ => []) f (Pure.pure a) (Pure.pure b) := by
  refine ⟨.pure fun _ h => h, ?_⟩
  intro r asked _ _
  rw [h]
  simp only [requests, List.filter_nil, List.map_nil, List.append_nil]
  rfl

theorem throw {e : Failure} :
    w.Commutes (σ := σ) context (fun _ => []) f (throw e) (throw e) := by
  refine ⟨.throw fun _ h => h, ?_⟩
  intro r asked _ _
  simp only [requests, List.filter_nil, List.map_nil, List.append_nil]
  rfl

theorem ite {c : Prop} [Decidable c] (ht : c → w.Commutes context strings f m n)
    (he : ¬ c → w.Commutes context strings' f m' n') :
    w.Commutes context (fun r => if c then strings r else strings' r) f (if c then m else m')
      (if c then n else n') := by
  by_cases hc : c
  · simpa only [if_pos hc] using ht hc
  · simpa only [if_neg hc] using he hc

/-- Neither alternative takes strings that the other does not take. -/
theorem ite_same {c : Prop} [Decidable c] (ht : c → w.Commutes context strings f m n)
    (he : ¬ c → w.Commutes context strings f m' n') :
    w.Commutes context strings f (if c then m else m') (if c then n else n') :=
  (ite ht he).congr fun _ _ => (ite_self _).symm

section Bind
variable {g : β → Reading σ γ} {δ : Type} {k : α → Reading σ δ} {f' : δ → γ}
variable {later : α → Reader σ → List PlacedString}

/-- What comes second need commute only for the values that the first activity can have. -/
theorem bind_of {P : α → Prop} (hm : w.Commutes context strings f m n)
    (hP : Ensures (w.Plain context) m (fun a _ => P a) (fun _ _ => True))
    (hk : ∀ a, P a → w.Commutes context (later a) f' (k a) (g (f a))) :
    w.Commutes context (fun r => strings r ++ Reader.afterwards m later r) f' (m >>= k)
      (n >>= g) := by
  constructor
  · intro r hr
    have hplain := hm.keeps r hr
    have hvalue := hP r hr
    simp only [Bind.bind, EStateM.bind]
    cases hend : m r with
    | error e r' =>
      rw [hend] at hplain
      exact hplain
    | ok a r' =>
      rw [hend] at hplain hvalue
      exact (hk a hvalue).keeps r' hplain
  · intro r asked hr hanswers
    have hfirst := hm.keyed_eq r asked hr fun s hs => hanswers s (List.mem_append_left _ hs)
    have hplain := hm.keeps r hr
    have hvalue := hP r hr
    simp only [Bind.bind, EStateM.bind, hfirst]
    cases hend : m r with
    | error e r' =>
      simp only [Reader.afterwards, hend, List.append_nil]
      rfl
    | ok a r' =>
      rw [hend] at hplain hvalue
      have hlater := (hk a hvalue).keyed_eq r' (asked ++ w.requests (strings r)) hplain fun s hs =>
        hanswers s (List.mem_append_right _ (by simpa only [Reader.afterwards, hend] using hs))
      simp only [keyedEnd, Reader.afterwards, hend, requests_append, ← List.append_assoc]
      exact hlater

theorem bind (hm : w.Commutes context strings f m n)
    (hk : ∀ a, w.Commutes context (later a) f' (k a) (g (f a))) :
    w.Commutes context (fun r => strings r ++ Reader.afterwards m later r) f' (m >>= k)
      (n >>= g) :=
  hm.bind_of (hm.keeps.weaken (fun _ h => h) (fun _ _ _ => trivial) fun _ _ _ => trivial)
    fun a _ => hk a

/-- The first activity takes no string. -/
theorem after {m : Reading σ α} {g : α → Reading σ γ} (hm : w.Silent context m)
    (hk : ∀ a, w.Commutes context (later a) f' (k a) (g a)) :
    w.Commutes context (Reader.afterwards m later) f' (m >>= k) (m >>= g) :=
  hm.bind hk

/-- The second activity takes no string. -/
theorem followed (hm : w.Commutes context strings f m n)
    (hk : ∀ a, w.Commutes context (fun _ => []) f' (k a) (g (f a))) :
    w.Commutes context strings f' (m >>= k) (n >>= g) := by
  refine (hm.bind hk).congr ?_
  intro r _
  rw [← Reader.afterwards_nothing, List.append_nil]

end Bind

/-- Settings count only as far as they do not concern the key. -/
theorem settings_bind {k : Settings → Reading σ α} {g : Settings → Reading σ β}
    (h : w.Commutes context strings f (k { w.settings with key := none })
      (g { w.settings with key := some w.key })) :
    w.Commutes context strings f (Reader.getSettings >>= k) (Reader.getSettings >>= g) := by
  constructor
  · intro r hr
    have := h.keeps r hr
    rw [← hr.settings] at this
    exact this
  · intro r asked hr hanswers
    have := h.keyed_eq r asked hr hanswers
    rw [← hr.settings] at this
    exact this

/-- As part of an object, strings are deciphered for this object. -/
theorem within {ref : Ref} (h : w.Commutes ref strings f m n) :
    w.Commutes context (fun r => strings { r with context := ref }) f (Reader.within ref m)
      (Reader.within ref n) := by
  constructor
  · intro r hr
    have hinner := h.keeps { r with context := ref } ⟨⟨hr.settings, hr.decrypt, rfl⟩, hr.tokens⟩
    simp only [Reader.within]
    cases hend : m { r with context := ref } with
    | ok a r' =>
      rw [hend] at hinner
      exact ⟨⟨hinner.settings, hinner.decrypt, hr.context⟩, hinner.tokens⟩
    | error e r' =>
      rw [hend] at hinner
      exact ⟨⟨hinner.settings, hinner.decrypt, hr.context⟩, hinner.tokens⟩
  · intro r asked hr hanswers
    have hinner := h.keyed_eq { r with context := ref } asked
      ⟨⟨hr.settings, hr.decrypt, rfl⟩, hr.tokens⟩ hanswers
    have hkeyed : n { w.keyed asked r with context := ref } =
        n (w.keyed asked { r with context := ref }) := rfl
    simp only [Reader.within, hkeyed, hinner]
    cases m { r with context := ref } <;> rfl

end Commutes

section Moves
variable {context : Ref}

variable {w} in
/-- An activity that looks at nothing of the key takes no string. -/
theorem silent_of_keep {m : Reading σ α} (htokens : Reader.KeepsTokens m)
    (h : ∀ asked, Keep Failure (fun r s => w.Keyless context r ∧ s = w.keyed asked r) m m) :
    w.Silent context m := by
  constructor
  · intro r hr
    have hkeyless := h [] r _ ⟨hr.toKeyless, rfl⟩
    have hpending := htokens r hr.tokens
    generalize m (w.keyed [] r) = y at hkeyless
    cases hend : m r with
    | ok a r' =>
      rw [hend] at hkeyless hpending
      cases hkeyless with
      | ok hq => exact ⟨hq.1, hpending⟩
    | error e r' =>
      rw [hend] at hkeyless hpending
      cases hkeyless with
      | error he => exact ⟨he.1, hpending⟩
  · intro r asked hr _
    have hkeyed := h asked r _ ⟨hr.toKeyless, rfl⟩
    simp only [requests, List.filter_nil, List.map_nil, List.append_nil]
    generalize m (w.keyed asked r) = y at hkeyed ⊢
    generalize m r = x at hkeyed ⊢
    cases hkeyed with
    | ok hq => rw [hq.2]; rfl
    | error he => rw [he.2]; rfl

variable {w} in
/-- Only here does the key come in. -/
theorem commutes_decipher (data : Bytes) :
    w.Commutes (σ := σ) context (fun r => [⟨r.context, data⟩]) (context.decipher w.cipher)
      (Reader.decipher data) (Reader.decipher data) := by
  have hplain : ∀ r : Reader σ, w.Plain context r → Reader.decipher data r = .ok data r := by
    intro r hr
    exact Reader.decipher_of_no_key (by rw [hr.settings]) data
  constructor
  · intro r hr
    rw [hplain r hr]
    exact hr
  · intro r asked hr hanswers
    rw [hplain r hr]
    obtain rfl := hr.context
    by_cases hid : r.context.id = 0
    · simp [Reader.decipher, keyed, keyedEnd, requests, Ref.decipher, hid]
    · have hanswer : r.decrypt ⟨w.key, w.settings.algorithm, r.context, data⟩ =
          .ok (w.cipher r.context data) := by
        rw [hr.decrypt]
        exact hanswers _ List.mem_cons_self hid
      simp [Reader.decipher, keyed, keyedEnd, requests, request, Ref.decipher, hid, hanswer]

variable [Cursor σ] (context)

/-- Reading tokens has nothing to do with the key. -/
theorem tokenLikeness (asked : List Request) : Reader.TokenLikeness (σ := σ) Eq
    (fun r s => w.Keyless context r ∧ s = w.keyed asked r) where
  cursor := by
    rintro r s ⟨-, rfl⟩
    rfl
  withCursor := by
    rintro r s c d ⟨hr, rfl⟩ rfl
    exact ⟨⟨hr.settings, hr.decrypt, hr.context⟩, rfl⟩
  pending := by
    rintro r s ⟨-, rfl⟩
    rfl
  withPending := by
    rintro r s pending ⟨hr, rfl⟩
    exact ⟨⟨hr.settings, hr.decrypt, hr.context⟩, rfl⟩
  switches := by
    rintro r s ⟨hr, rfl⟩
    rw [hr.settings]
    exact ⟨rfl, rfl, rfl⟩
  context := by
    rintro r s ⟨-, rfl⟩
    rfl
  record := by
    rintro level message text - r s ⟨hr, rfl⟩
    rw [Reader.record_eq, Reader.record_eq]
    apply SameEnd.ok
    by_cases hknown : r.knows message = true
    · rw [Reader.recorded_of_knows hknown, Reader.recorded_of_knows (r := w.keyed asked r) hknown]
      exact ⟨hr, rfl⟩
    · have hknown' : ¬ (w.keyed asked r).knows message = true := hknown
      simp only [Reader.recorded, if_neg hknown, if_neg hknown']
      exact ⟨⟨hr.settings, hr.decrypt, hr.context⟩, rfl⟩

variable {w context}

theorem silent_suffix (id : Int) : w.Silent (σ := σ) context (Reader.suffix id) :=
  silent_of_keep (Reader.suffix_keepsTokens id) fun asked =>
    (w.tokenLikeness context asked).suffix_keep (.same fun _ => True) id

theorem silent_token : w.Silent (σ := σ) context Reader.token :=
  silent_of_keep Reader.token_keepsTokens fun asked =>
    (w.tokenLikeness context asked).token_keep (.same fun _ => True)

theorem silent_push {token : Obj} (h : Reader.IsToken token) :
    w.Silent (σ := σ) context (Reader.push token) :=
  silent_of_keep (Reader.push_keepsTokens h) fun asked =>
    (w.tokenLikeness context asked).push_keep token

theorem silent_record {level : Level} {message text : String} (h : Reader.IsSaid level message text) :
    w.Silent (σ := σ) context (Reader.record level message (.ok text)) :=
  silent_of_keep (Reader.record_keepsTokens level message text) fun asked =>
    (w.tokenLikeness context asked).record h

theorem silent_place : w.Silent (σ := σ) context Reader.place :=
  silent_of_keep (fun _ h => h) fun asked =>
    (w.tokenLikeness context asked).place_keep (.same fun _ => True)

theorem commutes_fail (f : α → β) (fault : Fault) :
    w.Commutes (σ := σ) context (fun _ => []) f (Reader.fail fault) (Reader.fail fault) := by
  rw [Reader.fail_eq, Reader.fail_eq]
  exact silent_place.followed fun _ => .throw

/-- What is read as a token is one. -/
theorem commutes_token {strings : Obj → Reader σ → List PlacedString} {f : α → β}
    {k : Obj → Reading σ α} {g : Obj → Reading σ β}
    (h : ∀ token, Reader.IsToken token → w.Commutes context (strings token) f (k token) (g token)) :
    w.Commutes context (Reader.afterwards Reader.token strings) f (Reader.token >>= k)
      (Reader.token >>= g) :=
  silent_token.bind_of (Reader.token_isToken.weaken (fun _ hr => hr.tokens) (fun _ _ hr => hr.1)
    fun _ _ _ => trivial) h

theorem commutes_token_of_nothing {f : α → β} {k : Obj → Reading σ α} {g : Obj → Reading σ β}
    (h : ∀ token, Reader.IsToken token → w.Commutes context (fun _ => []) f (k token) (g token)) :
    w.Commutes context (fun _ => []) f (Reader.token >>= k) (Reader.token >>= g) :=
  (commutes_token h).congr fun r _ => Reader.afterwards_nothing _ r

/-- The header of a stream is deciphered like the dictionary it is. -/
theorem commutes_dictOrStream (entries : Dict) :
    w.Commutes (σ := σ) context (fun _ => []) (Obj.decipher w.cipher context)
      (Reader.dictOrStream entries)
      (Reader.dictOrStream (Obj.decipherEntries w.cipher context entries)) := by
  have hstart : w.Silent (σ := σ) context Reader.streamStart :=
    silent_of_keep Reader.streamStart_keepsTokens fun asked =>
      (w.tokenLikeness context asked).streamStart_keep (.same fun _ => True)
  have hcontext : w.Silent (σ := σ) context Reader.getContext :=
    silent_of_keep (fun _ h => h) fun asked => (w.tokenLikeness context asked).getContext_keep
  apply Commutes.settings_bind
  refine .ite_same (fun _ => ?_) fun _ => .pure rfl
  refine commutes_token_of_nothing fun next hnext => ?_
  refine .ite_same (fun _ => ?_) fun _ => ?_
  · exact hstart.followed fun _ => hcontext.followed fun _ => silent_place.followed fun _ => .pure rfl
  · exact (silent_push hnext).followed fun _ => .pure rfl

end Moves

/-- What is to be shown of reading objects with a bound on the depth of calls. -/
structure CommutesWithin (σ : Type) [Cursor σ] (w : Keying) (bound : Nat) : Prop where
  object : ∀ context, w.Commutes (σ := σ) context (Reader.stringsWithin bound)
    (Obj.decipher w.cipher context) (Reader.objectWithin bound) (Reader.objectWithin bound)
  definition : ∀ context ref, w.Commutes (σ := σ) ref (Reader.definitionStringsWithin bound)
    (Obj.decipher w.cipher context) (Reader.definitionWithin bound ref)
    (Reader.definitionWithin bound ref)
  array : ∀ context items, w.Commutes (σ := σ) context (Reader.arrayStringsWithin bound)
    (Obj.decipher w.cipher context) (Reader.arrayWithin bound items)
    (Reader.arrayWithin bound (Obj.decipherAll w.cipher context items))
  dict : ∀ context entries, w.Commutes (σ := σ) context (Reader.dictStringsWithin bound)
    (Obj.decipher w.cipher context) (Reader.dictWithin bound entries)
    (Reader.dictWithin bound (Obj.decipherEntries w.cipher context entries))

namespace CommutesWithin
variable [Cursor σ] {w} {bound : Nat} (ih : CommutesWithin σ w bound) (context : Ref)
include ih

theorem suffix (n : Int) (suffix : Reader.Suffix) : w.Commutes (σ := σ) context
    (Reader.suffixStrings (Reader.definitionStringsWithin bound) suffix)
    (Obj.decipher w.cipher context)
    (match suffix with
      | .nothing => pure (.int n)
      | .reference ref => pure (.ref ref)
      | .definition ref => Reader.within ref (Reader.definitionWithin bound ref))
    (match suffix with
      | .nothing => pure (.int n)
      | .reference ref => pure (.ref ref)
      | .definition ref => Reader.within ref (Reader.definitionWithin bound ref)) := by
  cases suffix with
  | nothing => exact .pure rfl
  | reference ref => exact .pure rfl
  | definition ref => exact (ih.definition context ref).within

theorem object_succ : w.Commutes (σ := σ) context (Reader.stringsWithin (bound + 1))
    (Obj.decipher w.cipher context) (Reader.objectWithin (bound + 1))
    (Reader.objectWithin (bound + 1)) := by
  apply commutes_token
  intro token htoken
  cases token with
  | keyword text =>
    refine Commutes.congr (.ite (fun _ => .pure rfl) fun _ => .ite (fun _ => ih.dict context [])
      fun _ => .ite (fun _ => ih.array context []) fun _ => commutes_fail _ _) fun r _ => ?_
    by_cases hnull : text = "null"
    · rcases hnull with rfl
      rfl
    · exact (if_neg hnull).symm
  | str data => exact (commutes_decipher data).followed fun _ => .pure rfl
  | int n =>
    apply Commutes.settings_bind
    have hsuffix : w.Commutes context
        (Reader.afterwards (Reader.suffix n)
          (Reader.suffixStrings (Reader.definitionStringsWithin bound))) _ _ _ :=
      (silent_suffix n).after fun suffix => ih.suffix context n suffix
    refine Commutes.congr (.ite (fun _ => hsuffix) fun _ => .pure rfl) fun r hr => ?_
    simp only [hr.settings]
  | bool _ | real _ | name _ | endOfInput => exact .pure rfl
  | _ => exact absurd htoken (by simp [Reader.IsToken, Lexer.IsLexeme])

theorem definition_succ (ref : Ref) : w.Commutes (σ := σ) ref
    (Reader.definitionStringsWithin (bound + 1)) (Obj.decipher w.cipher context)
    (Reader.definitionWithin (bound + 1) ref) (Reader.definitionWithin (bound + 1) ref) := by
  refine (ih.object ref).followed fun body => ?_
  rw [Obj.isStream_decipher]
  refine .ite_same (fun _ => .pure rfl) fun _ => ?_
  refine commutes_token_of_nothing fun next hnext => ?_
  refine .ite_same (fun _ => .pure rfl) fun _ => ?_
  exact (silent_push hnext).followed fun _ => commutes_fail _ _

theorem array_succ (items : List Obj) : w.Commutes (σ := σ) context
    (Reader.arrayStringsWithin (bound + 1)) (Obj.decipher w.cipher context)
    (Reader.arrayWithin (bound + 1) items)
    (Reader.arrayWithin (bound + 1) (Obj.decipherAll w.cipher context items)) := by
  apply commutes_token
  intro next hnext
  apply Commutes.ite
  · intro _
    apply Commutes.pure
    rw [Obj.decipherAll_reverse]
    rfl
  · intro _
    apply (silent_push hnext).after
    intro _
    exact (ih.object context).bind fun item => ih.array context (item :: items)

theorem dict_succ (entries : Dict) : w.Commutes (σ := σ) context
    (Reader.dictStringsWithin (bound + 1)) (Obj.decipher w.cipher context)
    (Reader.dictWithin (bound + 1) entries)
    (Reader.dictWithin (bound + 1) (Obj.decipherEntries w.cipher context entries)) := by
  apply commutes_token
  intro next hnext
  apply Commutes.ite
  · exact fun _ => commutes_dictOrStream entries
  · intro _
    cases next with
    | name name =>
      apply (ih.object context).bind
      intro value
      rw [Obj.isEnd_decipher, ← Obj.decipherEntries_insertEntry]
      apply Commutes.ite
      · intro _
        rw [Reader.render_valueless]
        exact (silent_record (.valueless name)).followed fun _ => commutes_dictOrStream entries
      · exact fun _ => ih.dict context (insertEntry name value entries)
    | _ => exact commutes_fail _ _

omit ih in
theorem zero : CommutesWithin σ w 0 where
  object _ := .throw
  definition _ _ := .throw
  array _ _ := .throw
  dict _ _ := .throw

end CommutesWithin

section Objects
variable [Cursor σ] {w}

theorem commutesWithin (bound : Nat) : CommutesWithin σ w bound := by
  induction bound with
  | zero => exact .zero
  | succ bound ih => exact ⟨ih.object_succ, ih.definition_succ, ih.array_succ, ih.dict_succ⟩

theorem commutes_object (context : Ref) : w.Commutes (σ := σ) context Reader.objectStrings
    (Obj.decipher w.cipher context) Reader.object Reader.object :=
  ⟨fun r hr => ((commutesWithin _).object context).keeps r hr,
    fun r asked hr => ((commutesWithin _).object context).keyed_eq r asked hr⟩

theorem commutes_objectsWithin (context : Ref) (bound : Nat) : w.Commutes (σ := σ) context
    (Reader.objectsStringsWithin bound) (List.map (Obj.decipher w.cipher context))
    (Reader.objectsWithin bound) (Reader.objectsWithin bound) := by
  induction bound with
  | zero => exact .throw
  | succ bound ih =>
    apply (commutes_object context).bind
    intro object
    rw [Obj.isEnd_decipher]
    refine .ite (fun _ => .pure rfl) fun _ => ?_
    exact ih.followed fun _ => .pure rfl

theorem commutes_objects (context : Ref) : w.Commutes (σ := σ) context Reader.objectsStrings
    (List.map (Obj.decipher w.cipher context)) Reader.objects Reader.objects :=
  ⟨fun r hr => (commutes_objectsWithin context _).keeps r hr,
    fun r asked hr => (commutes_objectsWithin context _).keyed_eq r asked hr⟩

end Objects

end Keying
end PdfSyntax
