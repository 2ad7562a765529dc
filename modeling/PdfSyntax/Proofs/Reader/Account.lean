import PdfSyntax.Proofs.Reader.Invariant
import PdfSyntax.Proofs.Reader.Peek
import PdfSyntax.Proofs.Reader.Trailing

/-!
# What becomes of the tokens

What was pushed back and then what the cursor yields is used up in this order: a token that was taken is
used, unless it was pushed back again, and then it is still the next one. So a token that stands where a
definition should end is the next one after the failure, and behind it is what was behind it before.
-/

set_option autoImplicit false

namespace PdfSyntax

/-- The tokens that begin the definition of an object. -/
def Ref.heading (ref : Ref) : List Obj :=
  [.int ref.id, .int ref.gen, .keyword "obj"]

/-- The definition that is not ended where it should be, if a failure is about one. -/
def Failure.unended? : Failure → Option Ref
  | malformed (.missingEnd ref) _ => some ref
  | _ => none

theorem Failure.eq_of_unended? {e : Failure} {ref : Ref} (h : e.unended? = some ref) :
    ∃ place, e = .malformed (.missingEnd ref) place := by
  unfold Failure.unended? at h
  split at h
  · cases h
    exact ⟨_, rfl⟩
  · cases h

/-- Cursors that yield bytes, whatever these are part of. -/
def Cursor.Indifferent (σ : Type) [Cursor σ] : Prop :=
  ∀ {tolerant} {c c' : σ} {e}, Cursor.next tolerant c = .error e c' → e.unended? = none

theorem Buffer.indifferent : Cursor.Indifferent Buffer := by
  intro tolerant b b' e h
  replace h : Buffer.next tolerant b = .error e b' := h
  have hrefill : ∀ {e b'}, Buffer.refill tolerant b = .error e b' → e.unended? = none := by
    intro e b' h
    unfold Buffer.refill at h
    split at h
    · cases h
      rfl
    · split at h
      · cases h
        rfl
      · cases tolerant <;> cases h
        rfl
      · cases h
  unfold Buffer.next at h
  split at h
  · cases h
  · split at h
    · next heq =>
      cases h
      exact hrefill heq
    · cases h
    · split at h
      · cases h
      · cases h
        rfl

namespace Reader

section Bounds
variable {σ α β : Type}

/-- What yields a value at all does not yield another one under a higher bound. -/
def Extends (m n : Reading σ α) : Prop :=
  ∀ {r a s}, m r = .ok a s → n r = .ok a s

theorem Extends.same (m : Reading σ α) : Extends m m :=
  fun h => h

theorem Extends.bind {m n : Reading σ α} {f g : α → Reading σ β} (hm : Extends m n)
    (hf : ∀ a, Extends (f a) (g a)) : Extends (m >>= f) (n >>= g) := by
  intro r b s h
  simp only [Bind.bind, EStateM.bind] at h ⊢
  cases hr : m r with
  | ok a r' =>
    rw [hr] at h
    rw [hm hr]
    exact hf a h
  | error e r' =>
    rw [hr] at h
    cases h

theorem Extends.within {m n : Reading σ α} (ref : Ref) (h : Extends m n) :
    Extends (within ref m) (within ref n) := by
  intro r a s hr
  simp only [Reader.within] at hr ⊢
  cases hm : m { r with context := ref } with
  | ok b r' =>
    rw [hm] at hr
    rw [h hm]
    exact hr
  | error e r' =>
    rw [hm] at hr
    cases hr

variable [Cursor σ]

theorem Extends.congruence : ObjectCongruence (σ := σ) (τ := σ) fun _ m n => Extends m n where
  pure _ := Extends.same _
  bind := Extends.bind
  settings h := Extends.bind (Extends.same _) fun a => h a a rfl rfl
  push _ := Extends.same _
  token := Extends.same _
  fail _ := Extends.same _
  record _ := Extends.same _
  dictOrStream _ := Extends.same _
  exhausted := Extends.same _
  decipher _ := Extends.same _
  within := Extends.within

theorem extends_of_le {bound bound' : Nat} (hle : bound ≤ bound') :
    Extends (objectWithin (σ := σ) bound) (objectWithin bound') ∧
    (∀ ref, Extends (definitionWithin (σ := σ) bound ref) (definitionWithin bound' ref)) ∧
    (∀ items, Extends (arrayWithin (σ := σ) bound items) (arrayWithin bound' items)) ∧
    (∀ entries, Extends (dictWithin (σ := σ) bound entries) (dictWithin bound' entries)) := by
  induction bound generalizing bound' with
  | zero =>
    have hnothing : ∀ {n : Reading σ Obj}, Extends (throw .exhausted) n := fun h => by cases h
    exact ⟨hnothing, fun _ => hnothing, fun _ => hnothing, fun _ => hnothing⟩
  | succ bound ih =>
    obtain ⟨bound', rfl⟩ : ∃ b, bound' = b + 1 := ⟨bound' - 1, by omega⟩
    obtain ⟨object, definition, array, dict⟩ := ih (Nat.le_of_succ_le_succ hle)
    have congr := Extends.congruence (σ := σ)
    exact ⟨congr.bind congr.token (congr.objectFrom definition (array []) (dict [])),
      congr.definition_succ object, congr.array_succ object array, congr.dict_succ object dict⟩

end Bounds

section Account
variable {σ : Type} [Cursor σ]

/-- What tokens a cursor feeds to readers one after another, and where it stands then. On the way it may
have passed the ends of lines after which payloads start. -/
inductive Feeds (settings : Settings) (c : σ) : List Obj → σ → Prop where
  | nothing : Feeds settings c [] c
  | token {tokens : List Obj} {d d' : σ} {verdict : Lexer.Verdict} {token : Obj} :
    Feeds settings c tokens d → lex settings.tolerant .gap d = .ok verdict d' →
    verdict.taken? = some token → Feeds settings c (tokens ++ [token]) d'
  | lineEnd {tokens : List Obj} {s s' : Reader σ} :
    Feeds settings c tokens s.cursor → s.settings = settings → settings.streams = true →
    streamStart s = .ok () s' → Feeds settings c tokens s'.cursor

/-- One reader has come to another by using up tokens: those pushed back to it, and then those that its
cursor has fed since, are those used and then those still pushed back. -/
structure Uses (r : Reader σ) (used : List Obj) (s : Reader σ) : Prop where
  settings_eq : s.settings = r.settings
  decrypt_eq : s.decrypt = r.decrypt
  balance : ∃ fed, Feeds r.settings r.cursor fed s.cursor ∧
    r.pending ++ fed = used ++ s.pending

section Moves
variable {r s u : Reader σ} {used more : List Obj} {token : Obj}

theorem uses_self (r : Reader σ) : Uses r [] r :=
  ⟨rfl, rfl, [], .nothing, List.append_nil _⟩

theorem Feeds.trans {settings : Settings} {c d e : σ} {tokens tokens' : List Obj}
    (h : Feeds settings c tokens d) (h' : Feeds settings d tokens' e) :
    Feeds settings c (tokens ++ tokens') e := by
  induction h' with
  | nothing =>
    rw [List.append_nil]
    exact h
  | token _ hlex htaken ih =>
    rw [← List.append_assoc]
    exact .token ih hlex htaken
  | lineEnd _ hsettings hstreams hstart ih => exact .lineEnd ih hsettings hstreams hstart

/-- What all moves of a cursor keep is kept by whatever it yields. -/
theorem Feeds.keeps {I : σ → Prop} (inv : Cursor.Invariant I) {settings : Settings} {c d : σ}
    {tokens : List Obj} (h : Feeds settings c tokens d) (hc : I c) : I d := by
  induction h with
  | nothing => exact hc
  | @token _ d _ _ _ _ hlex _ ih =>
    have hkeep := lex_keep inv.law.simulation settings.tolerant .gap d d ⟨rfl, ih⟩
    rw [hlex] at hkeep
    cases hkeep with
    | ok hd => exact hd.2
  | @lineEnd _ s _ _ _ _ hstart ih =>
    have hstays : Ensures (fun r : Reader σ => I r.cursor) streamStart (fun _ r => I r.cursor)
        (fun _ r => I r.cursor) :=
      stays_of_keep fun _ _ => over_likeness.streamStart_keep inv.law.simulation
    replace hstays := hstays s ih
    rw [hstart] at hstays
    exact hstays

theorem Uses.trans (h : Uses r used s) (h' : Uses s more u) : Uses r (used ++ more) u := by
  obtain ⟨fed, hfeeds, hbalance⟩ := h.balance
  obtain ⟨fed', hfeeds', hbalance'⟩ := h'.balance
  rw [h.settings_eq] at hfeeds'
  refine ⟨h'.settings_eq.trans h.settings_eq, h'.decrypt_eq.trans h.decrypt_eq, fed ++ fed',
    hfeeds.trans hfeeds', ?_⟩
  rw [← List.append_assoc, hbalance, List.append_assoc, hbalance', List.append_assoc]

/-- What else a reader keeps does not matter. -/
theorem Uses.congr (h : Uses r used s) (hcursor : u.cursor = s.cursor) (hpending : u.pending = s.pending)
    (hsettings : u.settings = s.settings) (hdecrypt : u.decrypt = s.decrypt) : Uses r used u where
  settings_eq := hsettings.trans h.settings_eq
  decrypt_eq := hdecrypt.trans h.decrypt_eq
  balance := by
    rw [hcursor, hpending]
    exact h.balance

theorem Uses.push (h : Uses r (used ++ [token]) s) :
    Uses r used { s with pending := token :: s.pending } where
  settings_eq := h.settings_eq
  decrypt_eq := h.decrypt_eq
  balance := by
    obtain ⟨fed, hfeeds, hbalance⟩ := h.balance
    exact ⟨fed, hfeeds, by simpa using hbalance⟩

/-- What is used was pushed back before, or it is fed by the cursor. -/
theorem Uses.taken {s' : Reader σ} (h : Uses r used s) (htoken : Reader.token s = .ok token s') :
    Uses r (used ++ [token]) s' := by
  obtain ⟨fed, hfeeds, hbalance⟩ := h.balance
  cases hp : s.pending with
  | cons first rest =>
    rw [token_of_pending hp] at htoken
    cases htoken
    rw [hp] at hbalance
    exact ⟨h.settings_eq, h.decrypt_eq, fed, hfeeds, by simpa using hbalance⟩
  | nil =>
    obtain ⟨verdict, told, records, hlex, htaken, hs'⟩ := lex_of_token hp htoken
    rw [h.settings_eq] at hlex
    refine ⟨hs' ▸ h.settings_eq, hs' ▸ h.decrypt_eq, fed ++ [token], hfeeds.token hlex htaken, ?_⟩
    have hpending : s'.pending = [] := by rw [hs']; exact hp
    rw [hp, List.append_nil] at hbalance
    rw [hpending, List.append_nil, ← List.append_assoc, hbalance]

end Moves

/-- A definition that was read up to a token that does not end it, and how the reader has come there: by
tokens before the definition, by those that begin it, and by those of its body. The token is pushed
back again, and then the failure has left the reader for another one. -/
def Unended (r : Reader σ) (ref : Ref) (left : Reader σ) : Prop :=
  ∃ before inner spent body after next rest,
    Uses r (before ++ ref.heading) inner ∧ inner.context = ref ∧
    (∃ bound, objectWithin bound inner = .ok body after) ∧ Uses inner spent after ∧
    body.isStream = false ∧ token after = .ok next rest ∧ next.isKeyword "endobj" = false ∧
    left = { rest with pending := next :: rest.pending, context := left.context }

/-- What there is to know about a failure for a definition that is not ended: that a decipherment has
failed so, or that a definition indeed is not ended. -/
def Explains (r : Reader σ) (e : Failure) (left : Reader σ) : Prop :=
  ∀ ref, e.unended? = some ref → (∃ request, r.decrypt request = .error e) ∨ Unended r ref left

/-- From a reader as promised, an activity uses up tokens since the starting one, and if it fails for a
definition that is not ended, there is one since then. -/
abbrev AccountsFrom {α : Type} (r : Reader σ) (P : Reader σ → Prop) (m : Reading σ α) : Prop :=
  Ensures P m (fun _ s => ∃ used, Uses r used s) (Explains r)

/-- An activity that uses up tokens, and if it fails for a definition that is not ended, there is one. -/
def Accounts {α : Type} (m : Reading σ α) : Prop :=
  ∀ r, AccountsFrom r (· = r) m

section Failures
variable {r s left : Reader σ} {used : List Obj} {e : Failure} {α β : Type}

theorem Explains.of_none (h : e.unended? = none) : Explains r e left := by
  intro ref href
  rw [h] at href
  cases href

theorem Unended.after {ref : Ref} (h : Uses r used s) (hs : Unended s ref left) : Unended r ref left := by
  obtain ⟨before, inner, spent, body, after, next, rest, huses, hunended⟩ := hs
  refine ⟨used ++ before, inner, spent, body, after, next, rest, ?_, hunended⟩
  rw [List.append_assoc]
  exact h.trans huses

theorem Explains.after (h : Uses r used s) (hs : Explains s e left) : Explains r e left := by
  intro ref href
  rw [← h.decrypt_eq]
  exact (hs ref href).imp_right (.after h)

theorem Explains.withContext (h : Explains r e left) (context : Ref) :
    Explains r e { left with context } := by
  intro ref href
  refine (h ref href).imp_right ?_
  rintro ⟨before, inner, spent, body, after, next, rest, huses, hcontext, hbody, hspent, hstream, hnext,
    hend, hleft⟩
  refine ⟨before, inner, spent, body, after, next, rest, huses, hcontext, hbody, hspent, hstream, hnext,
    hend, ?_⟩
  rw [hleft]

theorem Accounts.from_uses {m : Reading σ α} (h : Accounts m) :
    AccountsFrom r (fun s => ∃ used, Uses r used s) m := by
  rintro s ⟨used, hs⟩
  have hm := h s s rfl
  cases hr : m s with
  | ok a u =>
    rw [hr] at hm
    obtain ⟨more, hu⟩ := hm
    exact ⟨_, hs.trans hu⟩
  | error e u =>
    rw [hr] at hm
    exact hm.after hs

theorem Accounts.pure (a : α) : Accounts (Pure.pure a : Reading σ α) := by
  rintro r s rfl
  exact ⟨[], uses_self s⟩

theorem Accounts.bind {m : Reading σ α} {f : α → Reading σ β} (hm : Accounts m)
    (hf : ∀ a, Accounts (f a)) : Accounts (m >>= f) :=
  fun r => (hm r).bind fun a => (hf a).from_uses

theorem Accounts.ite {c : Prop} [Decidable c] {m n : Reading σ α} (hm : c → Accounts m)
    (hn : ¬ c → Accounts n) : Accounts (if c then m else n) :=
  fun r => .ite (fun hc => hm hc r) (fun hc => hn hc r)

theorem Accounts.throw (h : e.unended? = none) : Accounts (throw e : Reading σ α) :=
  fun _ _ _ => .of_none h

theorem Accounts.fail {fault : Fault} (h : ∀ ref, fault ≠ .missingEnd ref) :
    Accounts (fail fault : Reading σ α) := by
  refine fun r => fail_ensures fun s _ ref href => ?_
  cases fault with
  | missingEnd ref' => exact absurd rfl (h ref')
  | _ => cases href

theorem Accounts.record (level : Level) (message text : String) :
    Accounts (record (σ := σ) level message (.ok text)) := by
  rintro r s rfl
  rw [record_eq]
  obtain ⟨told, records, heq⟩ := exists_recorded level message text s
  rw [heq]
  exact ⟨[], (uses_self s).congr rfl rfl rfl rfl⟩

theorem Accounts.decipher (data : Bytes) : Accounts (decipher (σ := σ) data) := by
  rintro r s rfl
  have hasking : ∀ request, Uses s [] (s.asking request) :=
    fun request => (uses_self s).congr rfl rfl rfl rfl
  rcases decipher_cases data s with heq | ⟨request, -, ⟨plain, -, heq⟩ | ⟨e, he, heq⟩⟩
  · rw [heq]
    exact ⟨[], uses_self s⟩
  · rw [heq]
    exact ⟨[], hasking request⟩
  · rw [heq]
    exact fun _ _ => .inl ⟨request, he⟩

theorem Accounts.within {m : Reading σ α} (ref : Ref) (h : Accounts m) : Accounts (within ref m) := by
  rintro r s rfl
  have hinner := h { s with context := ref } _ rfl
  have huses : Uses s [] { s with context := ref } := (uses_self s).congr rfl rfl rfl rfl
  simp only [Reader.within]
  cases hm : m { s with context := ref } with
  | ok a u =>
    rw [hm] at hinner
    obtain ⟨used, hu⟩ := hinner
    exact ⟨_, (huses.trans hu).congr rfl rfl rfl rfl⟩
  | error e u =>
    rw [hm] at hinner
    exact (hinner.after huses).withContext s.context

end Failures

section Moves
variable {r s : Reader σ} {used : List Obj} {next : Obj} (indifferent : Cursor.Indifferent σ)
include indifferent

theorem unended?_of_lex {tolerant : Bool} {state : Lexer.State} {c c' : σ} {e : Failure}
    (h : lex tolerant state c = .error e c') : e.unended? = none := by
  induction state, c using lex_induction (σ := σ) tolerant with
  | error hn hlex =>
    cases hlex.symm.trans h
    exact indifferent hn
  | again _ _ hlex ih => exact ih (hlex.symm.trans h)
  | more _ _ hlex ih => exact ih (hlex.symm.trans h)
  | _ _ _ hlex => cases hlex.symm.trans h

theorem unended?_of_token {e : Failure} {s' : Reader σ} (h : token s = .error e s') :
    e.unended? = none := by
  cases hp : s.pending with
  | cons first rest =>
    rw [token_of_pending hp] at h
    cases h
  | nil =>
    rw [token_of_no_pending hp] at h
    cases hr : lex s.settings.tolerant .gap s.cursor with
    | error e' c =>
      rw [hr] at h
      cases h
      exact unended?_of_lex indifferent hr
    | ok verdict c =>
      rw [hr] at h
      cases verdict with
      | token _ => cases h
      | cutShort _ => cases h
      | fault fault =>
        cases h
        have hlexical := (isReached_of_lex hr).isLexical
        cases fault with
        | missingEnd ref => cases hlexical
        | _ => rfl

theorem token_uses : Ensures (Uses r used) token (fun next => Uses r (used ++ [next])) (Explains r) := by
  intro s hs
  cases htoken : token s with
  | ok next s' => exact hs.taken htoken
  | error e s' => exact .of_none (unended?_of_token indifferent htoken)

omit indifferent in
theorem push_uses {E : Failure → Reader σ → Prop} :
    Ensures (Uses r (used ++ [next])) (push next) (fun _ => Uses r used) E :=
  fun _ hs => hs.push

/-- What is looked ahead for and not used is pushed back; what is used is known. -/
theorem suffix_uses (id : Int) : Ensures (Uses r used) (suffix id)
    (fun suffix s => match suffix with
      | .nothing => Uses r used s
      | .reference ref => ref.id = id ∧ Uses r (used ++ [.int ref.gen, .keyword "R"]) s
      | .definition ref => ref.id = id ∧ Uses r (used ++ [.int ref.gen, .keyword "obj"]) s)
    (Explains r) := by
  apply (token_uses indifferent).bind
  intro second
  cases hnat : second.natural? Ref.genLimit with
  | none => exact push_uses.bind fun _ => .pure fun _ h => h
  | some gen =>
    obtain ⟨rfl, -⟩ := eq_int_of_natural? hnat
    apply (token_uses indifferent).bind
    intro third
    have hjoin : used ++ [.int gen] ++ [third] = used ++ [.int gen, third] := by simp
    apply Ensures.ite
    · intro hreference
      obtain rfl := Obj.eq_keyword_of_isKeyword hreference
      exact .pure fun _ h => ⟨rfl, hjoin ▸ h⟩
    · intro _
      apply Ensures.ite
      · intro hdefinition
        obtain rfl := Obj.eq_keyword_of_isKeyword hdefinition
        exact .pure fun _ h => ⟨rfl, hjoin ▸ h⟩
      · exact fun _ => push_uses.bind fun _ => push_uses.bind fun _ => .pure fun _ h => h

theorem byte_apart {P : Reader σ → Prop} (h : ∀ {s : Reader σ} (cursor : σ), P s → P { s with cursor }) :
    Ensures P byte (fun _ => P) (fun e s => e.unended? = none ∧ P s) := by
  have hbyte : Ensures P byte? (fun _ => P) (fun e s => e.unended? = none ∧ P s) := by
    intro s hs
    have hread : byte? s = onCursor (Cursor.next s.settings.tolerant) s := rfl
    rw [hread]
    cases hc : Cursor.next s.settings.tolerant s.cursor with
    | ok byte c =>
      rw [onCursor_of_ok hc]
      exact h c hs
    | error e c =>
      rw [onCursor_of_error hc]
      exact ⟨indifferent hc, h c hs⟩
  exact hbyte.bind fun _ => .pure fun _ h => h

theorem streamStart_apart {P : Reader σ → Prop}
    (h : ∀ {s : Reader σ} cursor told records, P s → P { s with cursor, told, records }) :
    Ensures P streamStart (fun _ => P) (fun e s => e.unended? = none ∧ P s) := by
  have hbyte : Ensures P byte (fun _ => P) (fun e s => e.unended? = none ∧ P s) :=
    byte_apart indifferent fun c hs => h c _ _ hs
  apply hbyte.bind
  intro first
  apply Ensures.ite
  · intro _
    apply hbyte.bind
    intro second
    apply Ensures.ite
    · intro _
      apply Ensures.bind (Q := fun _ => P)
      · exact fun s hs => h _ _ _ hs
      · intro _ s hs
        obtain ⟨told, records, heq⟩ := exists_recorded .warning loneReturnMessage loneReturnMessage s
        rw [record_eq, heq]
        exact h _ _ _ hs
    · exact fun _ => .pure fun _ hs => hs
  · intro _
    apply Ensures.ite
    · exact fun _ s hs => ⟨rfl, hs⟩
    · exact fun _ => .pure fun _ hs => hs

theorem streamStart_uses : Ensures (fun s => Uses r used s ∧ s.settings.streams = true) streamStart
    (fun _ => Uses r used) (Explains r) := by
  rintro s ⟨hs, hstreams⟩
  have hapart := streamStart_apart indifferent
    (P := fun u => u.pending = s.pending ∧ u.settings = s.settings ∧ u.decrypt = s.decrypt)
    (fun _ _ _ h => h) s ⟨rfl, rfl, rfl⟩
  cases hstart : streamStart s with
  | error e s' =>
    rw [hstart] at hapart
    exact .of_none hapart.1
  | ok _ s' =>
    rw [hstart] at hapart
    obtain ⟨hpending, hsettings, hdecrypt⟩ := hapart
    obtain ⟨fed, hfeeds, hbalance⟩ := hs.balance
    refine ⟨hsettings.trans hs.settings_eq, hdecrypt.trans hs.decrypt_eq, fed, ?_, ?_⟩
    · exact hfeeds.lineEnd hs.settings_eq (hs.settings_eq ▸ hstreams) hstart
    · rw [hpending, hbalance]

end Moves

section Objects
variable {r : Reader σ} {used : List Obj} {bound : Nat} (indifferent : Cursor.Indifferent σ)
include indifferent

theorem token_accounts : Accounts (token (σ := σ)) := by
  rintro r s rfl
  have huses := token_uses indifferent s (uses_self s)
  generalize token s = result at huses ⊢
  cases result with
  | ok next s' => exact ⟨_, huses⟩
  | error e s' => exact huses

/-- A token that is taken and pushed back is not used. -/
theorem accounts_of_token {α : Type} {f : Obj → Reading σ α}
    (hf : ∀ next r, AccountsFrom r (Uses r [next]) (f next)) : Accounts (token >>= f) := by
  intro r
  apply Ensures.bind (Q := fun next => Uses r [next])
  · rintro s rfl
    exact token_uses indifferent s (uses_self s)
  · exact fun next => hf next r

omit indifferent in
theorem Accounts.after {α : Type} {m : Reading σ α} (h : Accounts m) : AccountsFrom r (Uses r used) m :=
  h.from_uses.from_imp fun _ hs => ⟨used, hs⟩

omit indifferent in
theorem push_accounts {α : Type} {next : Obj} {m : Reading σ α} (h : Accounts m) :
    AccountsFrom r (Uses r [next]) (push next >>= fun _ => m) := by
  have hpush : Ensures (Uses r ([] ++ [next])) (push next) (fun _ => Uses r []) (Explains r) :=
    push_uses
  exact hpush.bind fun _ => h.after

theorem streamOrDict_accounts (entries : Dict) (hstreams : r.settings.streams = true) :
    AccountsFrom r (· = r) (streamOrDict entries) := by
  apply Ensures.bind (Q := fun next => Uses r [next])
  · rintro s rfl
    exact token_uses indifferent s (uses_self s)
  · intro next
    apply Ensures.ite
    · intro _
      have hstart : Ensures (Uses r [next]) streamStart (fun _ => Uses r [next]) (Explains r) :=
        (streamStart_uses indifferent).from_imp fun _ hs => ⟨hs, hs.settings_eq ▸ hstreams⟩
      refine hstart.bind fun _ => ?_
      have hcontext : Ensures (Uses r [next]) getContext (fun _ => Uses r [next]) (Explains r) :=
        fun _ hs => hs
      refine hcontext.bind fun _ => ?_
      have hplace : Ensures (Uses r [next]) place (fun _ => Uses r [next]) (Explains r) :=
        fun _ hs => hs
      exact hplace.bind fun _ => .pure fun _ hs => ⟨_, hs⟩
    · exact fun _ => push_accounts (.pure _)

theorem dictOrStream_accounts (entries : Dict) : Accounts (dictOrStream (σ := σ) entries) := by
  rintro r s rfl
  rw [dictOrStream_eq]
  by_cases hstreams : s.settings.streams = true
  · rw [if_pos hstreams]
    exact streamOrDict_accounts indifferent entries hstreams s rfl
  · rw [if_neg hstreams]
    exact ⟨[], uses_self s⟩

/-- A failure for a definition that is not ended comes from its body, or from the token after its body. -/
theorem definitionWithin_accounts (object : Accounts (objectWithin (σ := σ) bound)) {ref : Ref}
    {inner : Reader σ} (hinner : Uses r (used ++ ref.heading) inner)
    (hcontext : inner.context = ref) :
    AccountsFrom r (· = inner) (definitionWithin (bound + 1) ref) := by
  have hobject : Ensures (· = inner) (objectWithin bound) (fun body after =>
      objectWithin bound inner = .ok body after ∧ ∃ spent, Uses inner spent after) (Explains r) := by
    rintro s rfl
    have hbody := object s s rfl
    generalize objectWithin bound s = result at hbody
    cases result with
    | ok body after => exact ⟨rfl, hbody⟩
    | error e left => exact hbody.after hinner
  apply hobject.bind
  · rintro body after ⟨hbody, spent, hspent⟩
    have hafter := hinner.trans hspent
    by_cases hstream : body.isStream = true
    · rw [if_pos hstream]
      exact ⟨_, hafter⟩
    · rw [if_neg hstream]
      simp only [Bind.bind, EStateM.bind]
      cases hnext : token after with
      | error e left => exact .of_none (unended?_of_token indifferent hnext)
      | ok next rest =>
        by_cases hend : next.isKeyword "endobj" = true
        · simp only [hend, if_true]
          exact ⟨_, hafter.taken hnext⟩
        · have hfail : (push next >>= fun _ => fail (α := Obj) (.missingEnd ref)) rest =
              .error (.malformed (.missingEnd ref) (Cursor.offset rest.cursor))
                { rest with pending := next :: rest.pending } := fail_apply _ _
          simp only [Bind.bind] at hfail
          simp only [hend, Bool.false_eq_true, if_false, hfail]
          intro ref' href
          obtain rfl : ref = ref' := Option.some.inj href
          exact .inr ⟨used, inner, spent, body, after, next, rest, hinner, hcontext, ⟨bound, hbody⟩,
            hspent, Bool.eq_false_iff.mpr hstream, hnext, Bool.eq_false_iff.mpr hend, rfl⟩

theorem definition_accounts (object : Accounts (objectWithin (σ := σ) bound)) {ref : Ref} :
    AccountsFrom r (Uses r (used ++ ref.heading)) (within ref (definitionWithin (bound + 1) ref)) := by
  intro s hs
  have hinner : Uses r _ { s with context := ref } := hs.congr rfl rfl rfl rfl
  have hdefinition := definitionWithin_accounts indifferent object hinner rfl _ rfl
  simp only [within]
  generalize definitionWithin (bound + 1) ref { s with context := ref } = result at hdefinition ⊢
  cases result with
  | ok object s' =>
    obtain ⟨used', hs'⟩ := hdefinition
    exact ⟨used', hs'.congr rfl rfl rfl rfl⟩
  | error e left => exact hdefinition.withContext s.context

theorem arrayWithin_accounts (object : Accounts (objectWithin (σ := σ) bound))
    (array : ∀ items, Accounts (arrayWithin (σ := σ) bound items)) (items : List Obj) :
    Accounts (arrayWithin (σ := σ) (bound + 1) items) := by
  apply accounts_of_token indifferent
  intro next r
  apply Ensures.ite
  · exact fun _ => .pure fun _ hs => ⟨_, hs⟩
  · exact fun _ => push_accounts (object.bind fun item => array (item :: items))

theorem dictWithin_accounts (object : Accounts (objectWithin (σ := σ) bound))
    (dict : ∀ entries, Accounts (dictWithin (σ := σ) bound entries)) (entries : Dict) :
    Accounts (dictWithin (σ := σ) (bound + 1) entries) := by
  have hfail : ∀ key, Accounts (fail (.nonNameKey key) : Reading σ Obj) :=
    fun _ => .fail fun _ h => by cases h
  apply (token_accounts indifferent).bind
  intro next
  apply Accounts.ite
  · exact fun _ => dictOrStream_accounts indifferent entries
  · intro _
    cases next with
    | name name =>
      apply object.bind
      intro value
      apply Accounts.ite
      · intro _
        rw [render_valueless]
        exact (Accounts.record _ _ _).bind fun _ => dictOrStream_accounts indifferent entries
      · exact fun _ => dict _
    | _ => exact hfail _

theorem objectWithin_accounts
    (definition : ∀ {r : Reader σ} {used ref},
      AccountsFrom r (Uses r (used ++ ref.heading)) (within ref (definitionWithin bound ref)))
    (array : Accounts (arrayWithin (σ := σ) bound []))
    (dict : Accounts (dictWithin (σ := σ) bound [])) : Accounts (objectWithin (σ := σ) (bound + 1)) := by
  rw [objectWithin_succ]
  apply accounts_of_token indifferent
  intro next r
  cases next with
  | keyword text =>
    apply Accounts.after
    apply Accounts.ite
    · exact fun _ => .pure _
    · intro _
      apply Accounts.ite
      · exact fun _ => dict
      · intro _
        apply Accounts.ite
        · exact fun _ => array
        · exact fun _ => .fail fun _ h => by cases h
  | str data => exact ((Accounts.decipher data).bind fun _ => .pure _).after
  | int n =>
    have hsettings : Ensures (Uses r [.int n]) getSettings (fun _ => Uses r [.int n]) (Explains r) :=
      fun _ hs => hs
    apply hsettings.bind
    intro settings
    apply Ensures.ite
    · intro _
      apply (suffix_uses indifferent n).bind
      intro suffix
      cases suffix with
      | nothing => exact .pure fun _ hs => ⟨_, hs⟩
      | reference ref => exact .pure fun _ hs => ⟨_, hs.2⟩
      | definition ref =>
        apply Ensures.of_fact
        intro hid
        have hjoin : [Obj.int n] ++ [.int ref.gen, .keyword "obj"] = [] ++ ref.heading := by
          rw [← hid]
          rfl
        rw [hjoin]
        exact definition
    · exact fun _ => .pure fun _ hs => ⟨_, hs⟩
  | _ => exact .pure fun _ hs => ⟨_, hs⟩

/-- All activities that read an object, by induction on the bound that they share. -/
theorem accounts (bound : Nat) : Accounts (objectWithin (σ := σ) bound) ∧
    (∀ {r : Reader σ} {used ref},
      AccountsFrom r (Uses r (used ++ ref.heading)) (within ref (definitionWithin bound ref))) ∧
    (∀ items, Accounts (arrayWithin (σ := σ) bound items)) ∧
    (∀ entries, Accounts (dictWithin (σ := σ) bound entries)) := by
  induction bound with
  | zero =>
    have hexhausted : Accounts (throw .exhausted : Reading σ Obj) := .throw rfl
    exact ⟨hexhausted, (hexhausted.within _).after, fun _ => hexhausted, fun _ => hexhausted⟩
  | succ bound ih =>
    obtain ⟨object, definition, array, dict⟩ := ih
    exact ⟨objectWithin_accounts indifferent definition (array []) (dict []),
      definition_accounts indifferent object, arrayWithin_accounts indifferent object array,
      dictWithin_accounts indifferent object dict⟩

theorem object_accounts : Accounts (object (σ := σ)) :=
  fun r s hs => (accounts indifferent (2 * s.weight + 2)).1 r s hs

end Objects
end Account
end Reader
end PdfSyntax
