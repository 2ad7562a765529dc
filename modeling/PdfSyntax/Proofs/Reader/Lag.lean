import PdfSyntax.Proofs.Reader.Lookahead
import PdfSyntax.Proofs.Reader.Peek
import PdfSyntax.Proofs.Reader.Waning
import PdfSyntax.Proofs.Reader.Termination
import PdfSyntax.Proofs.Session.History

/-!
# Reading after a look at the tokens ahead

A reader that has taken tokens ahead and holds them back goes on like one that has not: what the second
one has still to take from its cursor the first one has pushed back. The second one lags behind until it
has taken all of these tokens; from then on the two differ in what they have told only. Only the payload
of a stream is looked for at the cursor itself, so it is there that they part, if the first one has its
cursor beyond the keyword that the payload follows.
-/

set_option autoImplicit false

namespace PdfSyntax

/-- Failures that differ at most in the place that they name. -/
inductive Failure.Resembles : Failure → Failure → Prop where
  | same (e : Failure) : Resembles e e
  | elsewhere (fault : Fault) (place place' : Int) :
    Resembles (.malformed fault place) (.malformed fault place')

section Follows
variable {σ τ α β : Type}

/-- Two ends that are the same value, with related states, or failures that resemble each other. -/
inductive SimilarEnd (Q : α → σ → τ → Prop) :
    EStateM.Result Failure σ α → EStateM.Result Failure τ α → Prop where
  | ok {a : α} {s : σ} {t : τ} : Q a s t → SimilarEnd Q (.ok a s) (.ok a t)
  | error {e e' : Failure} {s : σ} {t : τ} : e.Resembles e' → SimilarEnd Q (.error e s) (.error e' t)

/-- From related states, two activities come to similar ends, unless the first one gets past a point to
which it never returns. -/
structure Follows (past : σ → Prop) (P : σ → τ → Prop) (m : EStateM Failure σ α)
    (n : EStateM Failure τ α) (Q : α → σ → τ → Prop) : Prop where
  stays : Ensures past m (fun _ => past) (fun _ => past)
  follows : ∀ {s t}, P s t → SimilarEnd Q (m s) (n t) ∨ Leaves past (m s)

namespace Follows
variable {past : σ → Prop} {P P' : σ → τ → Prop} {Q Q' : α → σ → τ → Prop} {B : β → σ → τ → Prop}
variable {m : EStateM Failure σ α} {n : EStateM Failure τ α}
variable {f : α → EStateM Failure σ β} {g : α → EStateM Failure τ β}

theorem pure {a : α} (h : ∀ s t, P s t → Q a s t) :
    Follows past P (Pure.pure a : EStateM Failure σ α) (Pure.pure a : EStateM Failure τ α) Q :=
  ⟨.pure fun _ h => h, fun {s t} hst => .inl (.ok (h s t hst))⟩

theorem bind (hm : Follows past P m n Q) (hf : ∀ a, Follows past (Q a) (f a) (g a) B) :
    Follows past P (m >>= f) (n >>= g) B := by
  refine ⟨hm.stays.bind fun a => (hf a).stays, fun {s t} hst => ?_⟩
  have h := hm.follows hst
  simp only [Bind.bind, EStateM.bind]
  generalize m s = x at h ⊢
  generalize n t = y at h ⊢
  rcases h with hsimilar | hpast
  · cases hsimilar with
    | ok hq => exact (hf _).follows hq
    | error he => exact .inl (.error he)
  · cases x with
    | error e s' => exact .inr hpast
    | ok a s' => exact .inr ((hf a).stays.leaves hpast)

theorem ite {c : Prop} [Decidable c] {m' : EStateM Failure σ α} {n' : EStateM Failure τ α}
    (ht : c → Follows past P m n Q) (he : ¬ c → Follows past P m' n' Q) :
    Follows past P (if c then m else m') (if c then n else n') Q := by
  by_cases hc : c
  · rw [if_pos hc, if_pos hc]; exact ht hc
  · rw [if_neg hc, if_neg hc]; exact he hc

theorem from_imp (h : Follows past P m n Q) (hP : ∀ {s t}, P' s t → P s t) :
    Follows past P' m n Q :=
  ⟨h.stays, fun hst => h.follows (hP hst)⟩

theorem imp (h : Follows past P m n Q) (hQ : ∀ {a s t}, Q a s t → Q' a s t) :
    Follows past P m n Q' := by
  refine ⟨h.stays, fun {s t} hst => (h.follows hst).imp_left fun hsimilar => ?_⟩
  generalize m s = x at hsimilar ⊢
  generalize n t = y at hsimilar ⊢
  cases hsimilar with
  | ok hq => exact .ok (hQ hq)
  | error he => exact .error he

theorem of_or (h : Follows past P m n Q) (h' : Follows past P' m n Q) :
    Follows past (fun s t => P s t ∨ P' s t) m n Q := by
  refine ⟨h.stays, fun {s t} hst => ?_⟩
  rcases hst with hst | hst
  · exact h.follows hst
  · exact h'.follows hst

theorem of_keep {E : Failure → σ → τ → Prop} (h : Agree P m n Q E)
    (hstays : Ensures past m (fun _ => past) (fun _ => past)) : Follows past P m n Q := by
  refine ⟨hstays, fun {s t} hst => .inl ?_⟩
  have hsame := h s t hst
  generalize m s = x at hsame ⊢
  generalize n t = y at hsame ⊢
  cases hsame with
  | ok hq => exact .ok hq
  | error _ => exact .error (.same _)

end Follows
end Follows

namespace Buffer

/-- Whether a buffer stands at one of some points or farther on. -/
def IsBeyond (points : Int → Prop) (b : Buffer) : Prop :=
  0 < b.blockSize ∧ ∃ point, points point ∧ point ≤ b.offset

/-- A buffer goes back only by a byte that it has just yielded. -/
theorem beyond_simulation (points : Int → Prop) :
    Simulation (Fixed (IsBeyond points)) (fun _ => False) where
  next tolerant := by
    rintro _ b ⟨rfl, hsize, point, hpoint, hle⟩
    have hnext : Nexts tolerant b (Cursor.next tolerant b) := next_nexts hsize tolerant
    generalize Cursor.next tolerant b = result at hnext ⊢
    have hpassed : ∀ (b' : Buffer) {byte : UInt8} {after : Bytes}, b'.after = byte :: after →
        b'.blockSize = b.blockSize → b.offset = b'.offset →
        IsBeyond points (b'.passed byte after) ∧ IsBeyond points (b'.passed byte after).back := by
      intro b' byte after hafter hsize' hoffset
      have hstep : (b'.passed byte after).offset = b'.offset + 1 := by
        simp only [offset, passed, hafter, List.length_cons]
        omega
      rw [back_passed hafter]
      exact ⟨⟨hsize'.symm ▸ hsize, point, hpoint, by omega⟩,
        hsize'.symm ▸ hsize, point, hpoint, by omega⟩
    have hemptied : b.after = [] → IsBeyond points b.emptied := by
      intro hafter
      refine ⟨hsize, point, hpoint, ?_⟩
      rw [offset_of_after_nil hafter] at hle
      rwa [offset_of_after_nil (b := b.emptied) rfl]
    cases hnext with
    | inBlock hafter =>
      obtain ⟨h, hback⟩ := hpassed b hafter rfl rfl
      exact .ok ⟨⟨rfl, h⟩, fun _ => ⟨rfl, hback⟩⟩
    | refused hafter _ => exact .error ⟨rfl, hemptied hafter⟩
    | ended hafter _ _ _ => exact .ok ⟨⟨rfl, hemptied hafter⟩, fun h => by cases h⟩
    | cutShort hafter _ _ _ => exact .error ⟨rfl, hemptied hafter⟩
    | refilled hafter _ hblock =>
      have hoffset : b.offset = b.afterRead.offset := by
        rw [offset_of_after_nil hafter]
        simp only [offset, afterRead]
        omega
      obtain ⟨h, hback⟩ := hpassed b.afterRead hblock rfl hoffset
      exact .ok ⟨⟨rfl, h⟩, fun _ => ⟨rfl, hback⟩⟩
  offset h := by rw [h.1]
  isEnded h := by rw [h.1]
  left h := by rw [h.1]
  seek h := h.elim

end Buffer

/-- What ends a dictionary: its closing bracket, or the end of the input. -/
def Obj.ClosesDict (token : Obj) : Prop :=
  token.isEnd = true ∨ token = .keyword ">>"

namespace Reader

section Lag
variable {start r s : Reader Buffer} {tokens consumed pending : List Obj}

/-- A reader that has come from the start by taking tokens, some of which it has pushed back, and another
one with its cursor farther on, which holds more of them back. -/
structure Lag (start : Reader Buffer) (tokens consumed pending : List Obj) (r s : Reader Buffer) :
    Prop where
  settings_eq : r.settings = start.settings
  size_pos : 0 < r.cursor.blockSize
  pending_eq : r.pending = pending
  emits : Emits start.settings.tolerant start.cursor (consumed ++ pending) r.cursor
  ahead : ∃ ahead cursor told records, ahead ≠ [] ∧ tokens = consumed ++ pending ++ ahead ∧
    Emits start.settings.tolerant r.cursor ahead cursor ∧
    s = { r with cursor, pending := pending ++ ahead, told, records }

theorem size_of_lex {tolerant : Bool} {state : Lexer.State} {verdict : Lexer.Verdict} {b b' : Buffer}
    (hsize : 0 < b.blockSize) (h : lex tolerant state b = .ok verdict b') : 0 < b'.blockSize := by
  have hkeep := lex_keep (Buffer.beyond_simulation (· = b.offset)) tolerant state b b
    ⟨rfl, hsize, _, rfl, Int.le_refl _⟩
  rw [h] at hkeep
  cases hkeep with
  | ok hq => exact hq.2.1

theorem Emits.size_pos {tolerant : Bool} {b b' : Buffer} (h : Emits tolerant b tokens b')
    (hsize : 0 < b.blockSize) : 0 < b'.blockSize := by
  induction h with
  | nil => exact hsize
  | cons hlex _ _ ih => exact ih (size_of_lex hsize hlex)

theorem isToken_of_taken? {token : Obj} {tolerant : Bool} {state : Lexer.State}
    {verdict : Lexer.Verdict} {b b' : Buffer} (h : lex tolerant state b = .ok verdict b')
    (htaken : verdict.taken? = some token) : IsToken token := by
  cases verdict with
  | token _ =>
    cases htaken
    exact isToken_of_lex h
  | cutShort _ =>
    cases htaken
    exact .inl trivial
  | fault _ => cases htaken

/-- The reader that lags behind takes from its cursor what the other one has pushed back. -/
theorem Lag.token (h : Lag start tokens consumed pending r s) : ∃ token r' s',
    Reader.token r = .ok token r' ∧ Reader.token s = .ok token s' ∧
    (pending = token :: pending.tail ∨ pending = [] ∧ IsToken token) ∧
    (Hushed r' s' ∨ Lag start tokens (consumed ++ [token]) pending.tail r' s') := by
  obtain ⟨hsettings, hsize, rfl, hemits, ahead, cursor, told, records, hne, htokens, hahead, rfl⟩ := h
  cases hp : r.pending with
  | cons first rest =>
    rw [hp] at hemits htokens
    refine ⟨first, _, _, token_of_pending hp, token_of_pending rfl, .inl rfl, .inr ?_⟩
    refine ⟨hsettings, hsize, rfl, by simpa using hemits, ahead, cursor, told, records, hne, ?_, hahead,
      rfl⟩
    simpa using htokens
  | nil =>
    rw [hp] at hemits htokens
    rw [List.append_nil] at hemits htokens
    cases hahead with
    | nil => exact absurd rfl hne
    | @cons _ c' _ verdict first rest hlex htaken hrest =>
      obtain ⟨told', records', htoken⟩ := token_of_lex hp (hsettings ▸ hlex) htaken
      refine ⟨first, _, _, htoken, token_of_pending rfl, .inr ⟨rfl, isToken_of_taken? hlex htaken⟩, ?_⟩
      cases hrest with
      | nil => exact .inl ⟨told, records, by rw [hp]⟩
      | @cons _ d _ verdict' second rest hlex' htaken' hrest =>
        refine .inr ⟨hsettings, size_of_lex hsize hlex, hp, ?_, second :: rest, cursor, told, records,
          by simp, ?_, .cons hlex' htaken' hrest, rfl⟩
        · rw [List.tail_nil, List.append_nil]
          exact hemits.snoc hlex htaken
        · simpa using htokens

theorem Lag.push {token : Obj} (h : Lag start tokens (consumed ++ [token]) pending r s) :
    Lag start tokens consumed (token :: pending) { r with pending := token :: r.pending }
      { s with pending := token :: s.pending } := by
  obtain ⟨hsettings, hsize, rfl, hemits, ahead, cursor, told, records, hne, htokens, hahead, rfl⟩ := h
  exact ⟨hsettings, hsize, rfl, by simpa using hemits, ahead, cursor, told, records, hne,
    by simpa using htokens, hahead, rfl⟩

theorem Lag.told (h : Lag start tokens consumed pending r s) (told told' : Option (List String))
    (records records' : List Record) : Lag start tokens consumed pending { r with told, records }
      { s with told := told', records := records' } := by
  obtain ⟨ahead, cursor, _, _, hne, htokens, hahead, rfl⟩ := h.ahead
  exact { h with ahead := ⟨ahead, cursor, told', records', hne, htokens, hahead, rfl⟩ }

theorem Lag.withContext (h : Lag start tokens consumed pending r s) (context : Ref) :
    Lag start tokens consumed pending { r with context } { s with context } := by
  obtain ⟨ahead, cursor, told, records, hne, htokens, hahead, rfl⟩ := h.ahead
  exact { h with ahead := ⟨ahead, cursor, told, records, hne, htokens, hahead, rfl⟩ }

theorem Lag.asking (h : Lag start tokens consumed pending r s) (request : Request) :
    Lag start tokens consumed pending (asking request r) (asking request s) := by
  obtain ⟨ahead, cursor, told, records, hne, htokens, hahead, rfl⟩ := h.ahead
  exact { h with ahead := ⟨ahead, cursor, told, records, hne, htokens, hahead, rfl⟩ }

end Lag

section Relations
variable (start : Reader Buffer) (tokens : List Obj)

/-- Between objects: the readers differ in what they have told only, or the first one lags behind. -/
def Between (r s : Reader Buffer) : Prop :=
  Hushed r s ∨ ∃ consumed pending, Left pending ∧ Lag start tokens consumed pending r s

/-- After a token that has just been taken, and may be pushed back. -/
def After (token : Obj) (r s : Reader Buffer) : Prop :=
  Hushed r s ∨ ∃ consumed pending, Left (token :: pending) ∧
    Lag start tokens (consumed ++ [token]) pending r s

/-- After tokens that have just been taken, with nothing pushed back. -/
def AfterAll (taken : List Obj) (r s : Reader Buffer) : Prop :=
  Hushed r s ∨ ∃ consumed, (∀ token ∈ taken, IsToken token) ∧
    Lag start tokens (consumed ++ taken) [] r s

/-- After an object other than the end of the input. -/
structure Made (object : Obj) (r s : Reader Buffer) : Prop where
  isEnd_eq : object.isEnd = false
  between : Between start tokens r s

/-- After an object, which may be the end of the input. -/
structure Finished (object : Obj) (r s : Reader Buffer) : Prop where
  between : Between start tokens r s
  afterAll : object.isEnd = true → AfterAll start tokens [object] r s

/-- Where the keywords end that begin the payload of a stream and have tokens after them. -/
def BeginsPayload (point : Int) : Prop :=
  start.settings.streams = true ∧ ∃ front close rest cursor, close.ClosesDict ∧ rest ≠ [] ∧
    tokens = front ++ [close, .keyword "stream"] ++ rest ∧
    Emits start.settings.tolerant start.cursor (front ++ [close, .keyword "stream"]) cursor ∧
    point = cursor.offset

/-- Past the start of a payload that has tokens after it. -/
def PastPayload (r : Reader Buffer) : Prop :=
  r.cursor.IsBeyond (BeginsPayload start tokens)

/-- What does not come back from past the start of a payload. -/
abbrev Stays {α : Type} (m : Reading Buffer α) : Prop :=
  Ensures (PastPayload start tokens) m (fun _ => PastPayload start tokens)
    (fun _ => PastPayload start tokens)

/-- What comes to similar ends in related readers, unless the one that lags behind gets past the start of
a payload. -/
abbrev Trails {α : Type} (P : Reader Buffer → Reader Buffer → Prop) (m : Reading Buffer α)
    (Q : α → Reader Buffer → Reader Buffer → Prop) : Prop :=
  Follows (PastPayload start tokens) P m m Q

end Relations

section Conversions
variable {start r s : Reader Buffer} {tokens taken : List Obj} {token object : Obj}

theorem After.between (h : After start tokens token r s) : Between start tokens r s := by
  rcases h with h | ⟨consumed, pending, hleft, hlag⟩
  · exact .inl h
  · exact .inr ⟨_, pending, hleft.tail, hlag⟩

theorem AfterAll.between (h : AfterAll start tokens taken r s) : Between start tokens r s := by
  rcases h with h | ⟨consumed, -, hlag⟩
  · exact .inl h
  · exact .inr ⟨_, [], .nothing, hlag⟩

/-- After a token that is no integer nothing else is pushed back. -/
theorem After.afterAll (h : After start tokens token r s) (hint : ∀ n, token ≠ .int n) :
    AfterAll start tokens [token] r s := by
  rcases h with h | ⟨consumed, pending, hleft, hlag⟩
  · exact .inl h
  · rw [hleft.eq_nil hint] at hlag
    exact .inr ⟨consumed, by simpa using hleft.isToken, hlag⟩

theorem AfterAll.after (h : AfterAll start tokens [token] r s) : After start tokens token r s := by
  rcases h with h | ⟨consumed, htoken, hlag⟩
  · exact .inl h
  · exact .inr ⟨consumed, [], .one (htoken token List.mem_cons_self), hlag⟩

/-- The token before the last one is done with. -/
theorem AfterAll.last {first : Obj} (h : AfterAll start tokens [first, token] r s) :
    AfterAll start tokens [token] r s := by
  rcases h with h | ⟨consumed, htoken, hlag⟩
  · exact .inl h
  · refine .inr ⟨consumed ++ [first], fun other hmem => htoken other (List.mem_cons_of_mem _ hmem), ?_⟩
    rwa [List.append_assoc]

theorem Made.finished (h : Made start tokens object r s) : Finished start tokens object r s :=
  ⟨h.between, fun hend => by rw [h.isEnd_eq] at hend; cases hend⟩

theorem Between.exists_eq (h : Between start tokens r s) :
    ∃ cursor pending told records, s = { r with cursor, pending, told, records } := by
  rcases h with ⟨told, records, rfl⟩ | ⟨consumed, pending, -, hlag⟩
  · exact ⟨_, _, _, _, rfl⟩
  · obtain ⟨ahead, cursor, told, records, -, -, -, rfl⟩ := hlag.ahead
    exact ⟨_, _, _, _, rfl⟩

theorem Between.settings_eq (h : Between start tokens r s) : s.settings = r.settings := by
  obtain ⟨cursor, pending, told, records, rfl⟩ := h.exists_eq
  rfl

theorem Between.context_eq (h : Between start tokens r s) : s.context = r.context := by
  obtain ⟨cursor, pending, told, records, rfl⟩ := h.exists_eq
  rfl

theorem Between.decrypt_eq (h : Between start tokens r s) : s.decrypt = r.decrypt := by
  obtain ⟨cursor, pending, told, records, rfl⟩ := h.exists_eq
  rfl

theorem Between.withContext (h : Between start tokens r s) (context : Ref) :
    Between start tokens { r with context } { s with context } := by
  rcases h with ⟨told, records, rfl⟩ | ⟨consumed, pending, hleft, hlag⟩
  · exact .inl ⟨told, records, rfl⟩
  · exact .inr ⟨consumed, pending, hleft, hlag.withContext context⟩

theorem Between.asking (h : Between start tokens r s) (request : Request) :
    Between start tokens (asking request r) (asking request s) := by
  rcases h with ⟨told, records, rfl⟩ | ⟨consumed, pending, hleft, hlag⟩
  · exact .inl ⟨told, records, rfl⟩
  · exact .inr ⟨consumed, pending, hleft, hlag.asking request⟩

end Conversions

section Moves
variable {start : Reader Buffer} {tokens : List Obj} {α : Type} {m : Reading Buffer α}
variable {P : Reader Buffer → Reader Buffer → Prop} {Q : α → Reader Buffer → Reader Buffer → Prop}

theorem stays_of_over (h : ∀ decrypt quiet, Keep Failure
    (Fixed (Over (Buffer.IsBeyond (BeginsPayload start tokens)) decrypt quiet)) m m) :
    Stays start tokens m :=
  stays_of_keep h

theorem streamStart_stays : Stays start tokens streamStart :=
  stays_of_over fun _ _ => over_likeness.streamStart_keep (Buffer.beyond_simulation _)

/-- Readers that differ in what they have told only go on so. -/
theorem trails_hushed (h : ∀ {R : Buffer → Buffer → Prop} {L : Reader Buffer → Reader Buffer → Prop}
    {within : Int → Prop}, Likeness R L → Simulation R within → Keep Failure L m m) :
    Trails start tokens Hushed m (fun _ => Hushed) :=
  .of_keep (h hushed_likeness (.same fun _ => True))
    (stays_of_over fun _ _ => h over_likeness (Buffer.beyond_simulation _))

/-- A move is known if it is known for readers that differ in what they have told only, and for readers
of which one lags behind, where it always succeeds. -/
theorem trails_of_lag (hhushed : Trails start tokens Hushed m (fun _ => Hushed))
    (hlag : ∀ r s, P r s → ∃ a r' s', m r = .ok a r' ∧ m s = .ok a s' ∧ (Hushed r' s' ∨ Q a r' s')) :
    Trails start tokens (fun r s => Hushed r s ∨ P r s) m (fun a r s => Hushed r s ∨ Q a r s) := by
  apply Follows.of_or
  · exact hhushed.imp fun h => .inl h
  · refine ⟨hhushed.stays, fun {r s} hP => .inl ?_⟩
    obtain ⟨a, r', s', hr, hs, hQ⟩ := hlag r s hP
    rw [hr, hs]
    exact .ok hQ

theorem token_hushed : Trails start tokens Hushed Reader.token (fun _ => Hushed) :=
  trails_hushed fun like sim => like.token_keep sim

theorem token_between : Trails start tokens (Between start tokens) Reader.token (After start tokens) := by
  apply trails_of_lag token_hushed
  intro r s h
  obtain ⟨consumed, pending, hleft, hlag⟩ := h
  obtain ⟨token, r', s', hr, hs, hpending, hafter⟩ := hlag.token
  refine ⟨token, r', s', hr, hs, hafter.imp_right fun hlag' => ⟨consumed, pending.tail, ?_, hlag'⟩⟩
  rcases hpending with hcons | ⟨rfl, htoken⟩
  · rwa [← hcons]
  · exact .one htoken

theorem token_afterAll (taken : List Obj) : Trails start tokens (AfterAll start tokens taken) Reader.token
    (fun token => AfterAll start tokens (taken ++ [token])) := by
  apply trails_of_lag token_hushed
  intro r s h
  obtain ⟨consumed, htaken, hlag⟩ := h
  obtain ⟨token, r', s', hr, hs, hpending, hafter⟩ := hlag.token
  refine ⟨token, r', s', hr, hs,
    hafter.imp_right fun hlag' => ⟨consumed, ?_, by rwa [List.append_assoc] at hlag'⟩⟩
  rcases hpending with hcons | ⟨-, htoken⟩
  · cases hcons
  · intro other hmem
    rcases List.mem_append.mp hmem with hmem | hmem
    · exact htaken other hmem
    · rwa [List.mem_singleton.mp hmem]

/-- Behind an integer one more token may be pushed back, and behind that one nothing. -/
theorem token_after_int (n : Int) : Trails start tokens (After start tokens (.int n)) Reader.token
    (fun token => AfterAll start tokens [token]) := by
  apply trails_of_lag token_hushed
  intro r s h
  obtain ⟨consumed, pending, hleft, hlag⟩ := h
  obtain ⟨token, r', s', hr, hs, hpending, hafter⟩ := hlag.token
  refine ⟨token, r', s', hr, hs, hafter.imp_right fun hlag' => ⟨_, ?_, hleft.tail_eq_nil ▸ hlag'⟩⟩
  rcases hpending with hcons | ⟨-, htoken⟩
  · rw [hcons] at hleft
    simpa using hleft.tail.isToken
  · simpa using htoken

theorem push_hushed (token : Obj) : Trails start tokens Hushed (push token) (fun _ => Hushed) :=
  trails_hushed fun like _ => like.push_keep token

theorem push_after (token : Obj) : Trails start tokens (After start tokens token) (push token)
    (fun _ => Between start tokens) := by
  apply trails_of_lag (push_hushed token)
  intro r s h
  obtain ⟨consumed, pending, hleft, hlag⟩ := h
  exact ⟨(), _, _, rfl, rfl, .inr ⟨consumed, token :: pending, hleft, hlag.push⟩⟩

/-- Of two tokens the first one must be an integer for the second one to be pushed back. -/
theorem push_second (n : Int) (token : Obj) : Trails start tokens (AfterAll start tokens [.int n, token])
    (push token) (fun _ => After start tokens (.int n)) := by
  apply trails_of_lag (push_hushed token)
  intro r s h
  obtain ⟨consumed, htoken, hlag⟩ := h
  have hboth : Lag start tokens ((consumed ++ [.int n]) ++ [token]) [] r s := by
    rwa [List.append_assoc]
  exact ⟨(), _, _, rfl, rfl,
    .inr ⟨consumed, [token], .two (htoken token (List.mem_cons_of_mem _ List.mem_cons_self)), hboth.push⟩⟩

theorem fail_trails (fault : Fault) : Trails start tokens P (fail fault) Q :=
  ⟨fail_ensures fun _ h => h, fun _ => by
    rw [fail_apply, fail_apply]
    exact .inl (.error (.elsewhere fault _ _))⟩

theorem throw_trails (e : Failure) : Trails start tokens P (throw e) Q :=
  ⟨fun _ h => h, fun _ => .inl (.error (.same e))⟩

theorem settings_trails {f : Settings → Reading Buffer α} (hP : ∀ r s, P r s → s.settings = r.settings)
    (h : ∀ settings, Trails start tokens P (f settings) Q) :
    Trails start tokens P (getSettings >>= f) Q := by
  refine ⟨fun r hr => (h r.settings).stays r hr, fun {r s} hrs => ?_⟩
  have hfollows := (h r.settings).follows hrs
  change SimilarEnd Q (f r.settings r) (f s.settings s) ∨ _
  rw [hP r s hrs]
  exact hfollows

theorem record_trails {level : Level} {message text : String} (hsaid : IsSaid level message text)
    (taken : List Obj) :
    Trails start tokens (AfterAll start tokens taken) (record level message (.ok text))
      (fun _ => AfterAll start tokens taken) := by
  apply trails_of_lag (trails_hushed fun like _ => like.record hsaid)
  intro r s h
  obtain ⟨consumed, htaken, hlag⟩ := h
  obtain ⟨told, records, hr⟩ := exists_recorded level message text r
  obtain ⟨told', records', hs⟩ := exists_recorded level message text s
  rw [record_eq, record_eq, hr, hs]
  exact ⟨(), _, _, rfl, rfl, .inr ⟨consumed, htaken, hlag.told ..⟩⟩

theorem decipher_trails (data : Bytes) : Trails start tokens (Between start tokens) (decipher data)
    (fun _ => Between start tokens) := by
  have hstays : Stays start tokens (decipher data) :=
    stays_of_over fun _ _ => over_likeness.decipher data
  have hkeep : Keep Failure (Between start tokens) (decipher data) (decipher data) :=
    decipher_keep_of_same (fun h => h.settings_eq.symm) (fun h => h.context_eq.symm)
      (fun h => h.decrypt_eq.symm) (fun request h => h.asking request) data
  exact .of_keep hkeep hstays

theorem within_trails {m : Reading Buffer Obj} (ref : Ref)
    (h : Trails start tokens (Between start tokens) m (Made start tokens)) :
    Trails start tokens (Between start tokens) (within ref m) (Made start tokens) := by
  constructor
  · intro r hr
    have hinner := h.stays { r with context := ref } hr
    simp only [within]
    generalize m { r with context := ref } = x at hinner ⊢
    cases x with
    | ok a r' => exact hinner
    | error e r' => exact hinner
  · intro r s hrs
    have hinner := h.follows (hrs.withContext ref)
    have hcontext := hrs.context_eq
    simp only [within]
    generalize m { r with context := ref } = x at hinner ⊢
    generalize m { s with context := ref } = y at hinner ⊢
    rcases hinner with hsimilar | hpast
    · cases hsimilar with
      | ok hq =>
        rw [hcontext]
        exact .inl (.ok ⟨hq.isEnd_eq, hq.between.withContext r.context⟩)
      | error he => exact .inl (.error he)
    · cases x with
      | ok a r' => exact .inr hpast
      | error e r' => exact .inr hpast

end Moves

end Reader
end PdfSyntax
