import PdfSyntax.Proofs.Reader.Balance

/-!
# What operations leave of the tokens ahead

An operation takes some of the tokens ahead and leaves the others. It finds those of other bytes ahead if it
goes to an offset, and it may be broken off by a malformed token, by an end that is not tolerated, or by a
string that cannot be deciphered.
-/

set_option autoImplicit false

namespace PdfSyntax

/-- Whether an operation takes whole tokens only, and pushes nothing back. -/
def Operation.KeepsToTokens : Operation → Prop
  | .byte | .bytes _ | .back | .forward _ | .push _ => False
  | _ => True

/-- Where a buffer is when it was sent to an offset, also if its source could not go there. -/
def Buffer.sought (target : Int) (b : Buffer) : Buffer :=
  match b.seek target with
  | .ok _ b' => b'
  | .error _ b' => b'

namespace Buffer
variable {medium : Medium} {b b' : Buffer} {target : Int} {e : Failure}

theorem sought_of_ok (h : b.seek target = .ok () b') : b.sought target = b' := by
  rw [sought, h]

theorem sought_of_error (h : b.seek target = .error e b') : b.sought target = b' := by
  rw [sought, h]

theorem Over.sought (h : Over medium b) (target : Int) : Over medium (b.sought target) := by
  cases ho : b.origin with
  | none =>
    rw [sought_of_ok (seek_of_none ho)]
    exact { h with ended := fun hended => by cases hended }
  | some origin =>
    by_cases hlt : target < origin
    · rw [sought_of_error (seek_of_lt ho hlt)]
      exact { h with ended := fun hended => by cases hended }
    · rw [sought_of_ok (seek_of_le ho (by omega))]
      exact { h with steady := h.steady.moveTo _, ended := fun hended => by cases hended }

theorem eq_negativePosition_of_seek (h : b.seek target = .error e b') :
    ∃ position, e = .negativePosition position := by
  cases horigin : b.origin with
  | none =>
    rw [seek_of_none horigin] at h
    cases h
  | some origin =>
    by_cases hlt : target < origin
    · rw [seek_of_lt horigin hlt] at h
      cases h
      exact ⟨_, rfl⟩
    · rw [seek_of_le horigin (by omega)] at h
      cases h

end Buffer

namespace Operation

/-- The tokens that an operation finds ahead: going to an offset, it begins anew. -/
def ahead (r : Reader Buffer) (tokens : List Obj) : Operation → List Obj
  | .seek target | .objectAt target => Lexer.lexemes (r.cursor.sought target).ahead
  | _ => tokens

theorem isLexeme_of_mem_ahead (operation : Operation) (r : Reader Buffer) {tokens : List Obj}
    {token : Obj} (h : ∀ token ∈ tokens, Lexer.IsLexeme token) (ht : token ∈ operation.ahead r tokens) :
    Lexer.IsLexeme token := by
  cases operation with
  | seek target => exact Lexer.isLexeme_of_mem_lexemes ht
  | objectAt target => exact Lexer.isLexeme_of_mem_lexemes ht
  | _ => exact h token ht

/-- What an operation leaves of the tokens ahead when it is not broken off. -/
def remainder (r : Reader Buffer) (tokens : List Obj) : Operation → List Obj
  | .pop => if r.pending.isEmpty then tokens else tokens.tail
  | .token | .tokenOr _ => tokens.tail
  | .tokens count => if 0 ≤ count ∧ count < Reader.tokenLimit then tokens.drop count.toNat else tokens
  | .object => (Grammar.object r.settings.references tokens).rest
  | .objects => Grammar.remainder r.settings.references tokens
  | .seek target => Lexer.lexemes (r.cursor.sought target).ahead
  | .objectAt target =>
    match r.cursor.seek target with
    | .ok _ b => (Grammar.object r.settings.references (Lexer.lexemes b.ahead)).rest
    | .error _ b => Lexer.lexemes b.ahead
  | _ => tokens

end Operation

/-- Whether all that was to be deciphered was. -/
def Report.isAnswered {σ : Type} (report : Report σ) : Bool :=
  report.requests.all fun request => (report.reader.decrypt request).isOk

theorem Report.isAnswered_of_forall {σ : Type} (report : Report σ) {decrypt : Decipherment}
    (hdecrypt : report.reader.decrypt = decrypt)
    (h : ∀ request ∈ report.requests, ∃ plain, decrypt request = .ok plain) :
    report.isAnswered = true := by
  refine List.all_eq_true.mpr fun request hrequest => ?_
  obtain ⟨plain, hplain⟩ := h request hrequest
  rw [hdecrypt, hplain]
  rfl

/-- Whether an operation failed at a malformed token. -/
def Report.metMalformed {σ : Type} (report : Report σ) : Bool :=
  match report.outcome with
  | .error (.malformed fault _) => fault.isLexical && report.isAnswered
  | _ => false

theorem Report.metMalformed_of_isLexical {σ : Type} {report : Report σ} {fault : Fault} {offset : Int}
    (houtcome : report.outcome = .error (.malformed fault offset)) (hlexical : fault.isLexical = true)
    (hanswered : report.isAnswered = true) : report.metMalformed = true := by
  rw [metMalformed, houtcome]
  simp only [hlexical, hanswered, Bool.and_self]

/-- What an operation has left of the tokens ahead: nothing, if it ran into an end that is not tolerated,
and what comes after the string that could not be deciphered, if there was one. -/
inductive Operation.Left (operation : Operation) (r : Reader Buffer) (tokens : List Obj)
    (report : Report Buffer) : List Obj → Prop where
  | whole : report.isAnswered = true → (∀ offset, report.outcome ≠ .error (.unexpectedEnd offset)) →
    Left operation r tokens report (operation.remainder r tokens)
  | cutShort {offset : Int} : report.isAnswered = true →
    report.outcome = .error (.unexpectedEnd offset) → Left operation r tokens report []
  | refused {e : Failure} {request : Request} {used rest : List Obj} : request ∈ report.requests →
    report.reader.decrypt request = .error e → report.outcome = .error e →
    operation.ahead r tokens = used ++ .str request.data :: rest → Left operation r tokens report rest

namespace Reader

/-- A reader that was sent to an offset, also if its source could not go there. -/
def sentTo (target : Int) (r : Reader Buffer) : Reader Buffer :=
  { r with pending := [], cursor := r.cursor.sought target }

/-- A reader over a buffer with some tokens ahead, between operations. -/
structure Balanced (medium : Medium) (tokens : List Obj) (r : Reader Buffer) : Prop
    extends Buffer.Over medium r.cursor where
  awaits : Awaits tokens r
  isLexeme : ∀ token ∈ tokens, Lexer.IsLexeme token

/-- A reader after an operation that was not broken off. -/
structure Remaining (medium : Medium) (decrypt : Decipherment) (tokens : List Obj)
    (r : Reader Buffer) : Prop extends Balanced medium tokens r where
  decrypt_eq : r.decrypt = decrypt
  answered : ∀ request ∈ r.requests, ∃ plain, decrypt request = .ok plain

/-- A reader after a failure: the operation left what it leaves, or it was broken off. -/
def LeftOff (medium : Medium) (decrypt : Decipherment) (whole rest : List Obj) (e : Failure)
    (r : Reader Buffer) : Prop :=
  ((∀ offset, e ≠ .unexpectedEnd offset) ∧ Remaining medium decrypt rest r) ∨
    ∃ start : Reader Buffer, start.decrypt = decrypt ∧ Interrupted medium start whole e r

section Operations
variable {medium : Medium} {r start : Reader Buffer} {whole tokens rest : List Obj} {α : Type}

theorem Proceeds.remaining (h : Proceeds medium start whole tokens r)
    (hwhole : ∀ token ∈ whole, Lexer.IsLexeme token) : Remaining medium start.decrypt tokens r :=
  { h with isLexeme := fun token ht => hwhole token (h.suffix.subset ht) }

theorem Remaining.proceeds (h : Remaining medium r.decrypt tokens r) : Proceeds medium r tokens tokens r :=
  { h with settings_eq := rfl, decrypt_eq := rfl, suffix := List.suffix_refl _ }

/-- What leaves some of the tokens ahead, unless it is broken off. -/
abbrev Expends (medium : Medium) (r : Reader Buffer) (whole rest : List Obj) (m : Reading Buffer α) :
    Prop :=
  Ensures (· = r) m (fun _ => Remaining medium r.decrypt rest) (LeftOff medium r.decrypt whole rest)

theorem Expends.returns {m : Reading Buffer α} (h : Expends medium r whole rest m) (f : α → Outcome) :
    Expends medium r whole rest (m >>= fun a => Pure.pure (f a)) :=
  h.bind fun _ => .pure fun _ h => h

theorem expends_of_proceeds {m : Reading Buffer α} (hr : Remaining medium r.decrypt tokens r)
    (h : Ensures (Proceeds medium r tokens tokens) m (fun _ => Proceeds medium r tokens rest)
      (Interrupted medium r tokens)) : Expends medium r tokens rest m := by
  refine h.weaken ?_ (fun _ _ h => h.remaining hr.isLexeme) fun _ _ h => .inr ⟨r, rfl, h⟩
  rintro s rfl
  exact hr.proceeds

/-- What takes nothing leaves all. -/
theorem expends_of_kept {m : Reading Buffer α} (hr : Remaining medium r.decrypt tokens r)
    (h : Ensures (Remaining medium r.decrypt tokens) m (fun _ => Remaining medium r.decrypt tokens)
      (fun e s => (∀ offset, e ≠ .unexpectedEnd offset) ∧ Remaining medium r.decrypt tokens s)) :
    Expends medium r whole tokens m := by
  refine h.weaken ?_ (fun _ _ h => h) fun _ _ h => .inl h
  rintro s rfl
  exact hr

theorem tokens_proceeds (hwhole : ∀ token ∈ whole, Lexer.IsLexeme token) (count : Nat) :
    Ensures (Proceeds medium start whole tokens) (Reader.tokens count)
      (fun _ => Proceeds medium start whole (tokens.drop count)) (Interrupted medium start whole) := by
  induction count generalizing tokens with
  | zero => exact .pure fun _ h => h
  | succ count ih =>
    apply token_picked.bind
    intro token
    refine .of_promise fun r hr => ?_
    have htoken := hr.token_eq
    cases tokens with
    | nil =>
      rw [htoken]
      exact .pure fun _ h => h.proceeds
    | cons first tokens =>
      obtain rfl : token = first := htoken
      have hlexeme := hwhole token (hr.suffix_whole.subset List.mem_cons_self)
      rw [hlexeme.isEnd_eq_false]
      apply (ih.from_imp fun _ h => h.proceeds).bind
      exact fun _ => .pure fun _ h => h

theorem pop_expends (hr : Remaining medium r.decrypt tokens r) :
    Expends medium r whole (if r.pending.isEmpty then tokens else tokens.tail) pop := by
  rintro s rfl
  obtain ⟨ends, hahead, hends⟩ := hr.awaits
  obtain ⟨cursor, pending, settings, context, decrypt, told, records, requests⟩ := s
  cases pending with
  | nil => exact hr
  | cons first pending =>
    have htail : ∀ token ∈ tokens.tail, Lexer.IsLexeme token :=
      fun token ht => hr.isLexeme token (List.mem_of_mem_tail ht)
    refine { hr with awaits := ?_, isLexeme := htail }
    cases tokens with
    | nil =>
      cases ends with
      | zero => cases hahead
      | succ ends =>
        have hrest := (List.cons.inj hahead).2
        exact ⟨ends, hrest, fun _ => hends (Nat.succ_ne_zero ends)⟩
    | cons token tokens => exact ⟨ends, (List.cons.inj hahead).2, hends⟩

section Telling
variable {σ : Type} [Cursor σ] {P : Reader σ → Prop}

/-- A text that cannot be made is the only reason why nothing can be told. -/
theorem tell_fails (message : String) (text : Except Failure String) :
    Ensures (fun _ : Reader σ => True) (tell message text) (fun _ _ => True)
      (fun e _ => text = .error e) := by
  have hnews : Ensures (fun _ : Reader σ => True) (isNews message) (fun _ _ => True)
      (fun e _ => text = .error e) := by
    intro r _
    cases htold : r.told with
    | none =>
      rw [isNews_of_none htold]
      trivial
    | some told =>
      rw [isNews_of_some htold]
      cases told.contains message <;> trivial
  apply hnews.bind
  intro news
  cases news with
  | false => exact .pure fun _ _ => trivial
  | true =>
    cases text with
    | ok text => exact fun _ _ => trivial
    | error e => exact fun _ _ => rfl

theorem ne_unexpectedEnd_of_render {template : String} {arguments : List Obj} {e : Failure}
    (h : render template arguments = .error e) (offset : Int) : e ≠ .unexpectedEnd offset := by
  rintro rfl
  simp only [render, Except.mapError] at h
  split at h <;> cases h

variable (htold : ∀ {r : Reader σ} (told : List String), r.told.isSome = true → P r →
  P { r with told := some told })
include htold

theorem tell_keeps (template : String) (arguments : List Obj) :
    Ensures P (tell template (render template arguments)) (fun _ => P)
      (fun e r => (∀ offset, e ≠ .unexpectedEnd offset) ∧ P r) :=
  ((tell_fails template _).and (tell_ensures htold template _)).weaken (fun _ h => ⟨trivial, h⟩)
    (fun _ _ h => h.2) fun _ _ h => ⟨ne_unexpectedEnd_of_render h.1, h.2⟩

theorem record_keeps (hrecords : ∀ {r : Reader σ} (records : List Record), P r → P { r with records })
    (level : Level) (template : String) (arguments : List Obj) :
    Ensures P (record level template (render template arguments)) (fun _ => P)
      (fun e r => (∀ offset, e ≠ .unexpectedEnd offset) ∧ P r) := by
  apply (tell_keeps htold template arguments).bind
  intro told
  cases told with
  | none => exact .pure fun _ h => h
  | some text => exact fun _ h => hrecords _ h

end Telling

/-- A reader that was sent to an offset has nothing pushed back, and the tokens of the bytes ahead there. -/
theorem Remaining.sentTo (h : Remaining medium r.decrypt tokens r) (target : Int) :
    Remaining medium r.decrypt (Lexer.lexemes (r.cursor.sought target).ahead) (r.sentTo target) :=
  { h.toOver.sought target, h with
    awaits := awaits_of_no_pending rfl
    isLexeme := fun _ => Lexer.isLexeme_of_mem_lexemes }

theorem seek_leads (r : Reader Buffer) (target : Int) :
    Ensures (· = r) (seek target)
      (fun _ s => (∃ b, r.cursor.seek target = .ok () b) ∧ s = r.sentTo target)
      (fun e s => (∃ b, r.cursor.seek target = .error e b) ∧ s = r.sentTo target) := by
  rintro s rfl
  cases hseek : s.cursor.seek target with
  | ok _ b =>
    have hmoved : seek target s = .ok () { s with pending := [], cursor := b } :=
      onCursor_of_ok (r := { s with pending := [] }) hseek
    rw [hmoved, sentTo, Buffer.sought_of_ok hseek]
    exact ⟨⟨b, rfl⟩, rfl⟩
  | error e b =>
    have hmoved : seek target s = .error e { s with pending := [], cursor := b } :=
      onCursor_of_error (r := { s with pending := [] }) hseek
    rw [hmoved, sentTo, Buffer.sought_of_error hseek]
    exact ⟨⟨b, rfl⟩, rfl⟩

theorem leftOff_of_seek {target : Int} {e : Failure} {b : Buffer}
    (hr : Remaining medium r.decrypt tokens r) (hseek : r.cursor.seek target = .error e b) :
    LeftOff medium r.decrypt whole (Lexer.lexemes (r.cursor.sought target).ahead) e (r.sentTo target) := by
  obtain ⟨position, rfl⟩ := Buffer.eq_negativePosition_of_seek hseek
  exact .inl ⟨(fun _ h => by cases h), hr.sentTo target⟩

/-- The operations that read no objects. -/
theorem perform_expends {operation : Operation} (hr : Remaining medium r.decrypt tokens r)
    (hkeeps : operation.KeepsToTokens) (hscope : operation.scope ≠ .objects) :
    Expends medium r (operation.ahead r tokens) (operation.remainder r tokens) (perform operation) := by
  cases operation with
  | offset =>
    refine Expends.returns (expends_of_kept hr ?_) _
    exact fun _ h => h
  | seek target =>
    refine Expends.returns ((seek_leads r target).weaken (fun _ h => h) ?_ ?_) (fun _ => .nothing)
    · rintro _ s ⟨-, rfl⟩
      exact hr.sentTo target
    · rintro e s ⟨⟨b, hseek⟩, rfl⟩
      exact leftOff_of_seek hr hseek
  | pop => exact (pop_expends hr).returns _
  | token =>
    refine Expends.returns (expends_of_proceeds hr ?_) _
    exact token_picked.weaken (fun _ h => h) (fun _ _ h => h.proceeds) (fun _ _ h => h)
  | tokens count =>
    apply Ensures.ite
    · intro hcount
      rw [Operation.remainder, if_pos hcount]
      exact (expends_of_proceeds hr (tokens_proceeds hr.isLexeme _)).returns _
    · intro hcount
      rw [Operation.remainder, if_neg hcount]
      exact expends_of_kept hr (.throw fun _ h => ⟨(fun _ h => by cases h), h⟩)
  | tokenOr fallback =>
    refine Expends.returns (expends_of_proceeds hr ?_) _
    apply token_picked.bind
    exact fun _ => .pure fun _ h => h.proceeds
  | set setting =>
    refine Expends.returns (expends_of_kept hr ?_) (fun _ => .nothing)
    intro s hs
    cases setting <;> exact { hs with }
  | tell template arguments =>
    refine Expends.returns (expends_of_kept hr ?_) _
    exact tell_keeps (fun _ _ h => { h with }) template arguments
  | record level template arguments =>
    refine Expends.returns (expends_of_kept hr ?_) (fun _ => .nothing)
    exact record_keeps (fun _ _ h => { h with }) (fun _ h => { h with }) level template arguments
  | fail template arguments =>
    refine expends_of_kept hr (failWith_ensures template arguments ?_ ?_)
    · exact fun _ _ h => ⟨(fun _ h => by cases h), h⟩
    · exact fun _ _ h => ⟨(fun _ h => by cases h), h⟩
  | byte => exact hkeeps.elim
  | bytes count => exact hkeeps.elim
  | back => exact hkeeps.elim
  | forward target => exact hkeeps.elim
  | push token => exact hkeeps.elim
  | _ => exact absurd rfl hscope

end Operations
end Reader

namespace Watched

open Reader (Remaining LeftOff)

section Operations
variable {medium : Medium} {r : Reader Buffer} {whole tokens rest : List Obj} {α : Type}

/-- What a watched reader leaves of the tokens ahead, unless it is broken off. -/
abbrev Expends (medium : Medium) (r : Reader Buffer) (whole rest : List Obj) 
    (m : Reading (Watched Buffer) α) : Prop :=
  Ensures (Visit.Opens whole) (· = r) m (fun _ => Remaining medium r.decrypt rest)
    (LeftOff medium r.decrypt whole rest)

theorem Breaks.leftOff {e : Failure} {s : Reader Buffer} (h : Breaks medium r whole rest e s)
    (hwhole : ∀ token ∈ whole, Lexer.IsLexeme token) : LeftOff medium r.decrypt whole rest e s := by
  rcases h with ⟨fault, offset, rfl, hs⟩ | hbroken
  · exact .inl ⟨(fun _ h => by cases h), hs.remaining hwhole⟩
  · exact .inr ⟨r, rfl, hbroken⟩

variable (hr : Remaining medium r.decrypt tokens r) (hstreams : r.settings.streams = false)
include hr hstreams

theorem next_expends :
    Expends medium r tokens (Grammar.object r.settings.references tokens).rest note.next := by
  have hobject : Parses medium r tokens tokens note.next
      (Grammar.object r.settings.references tokens) := next_parses hr.isLexeme hstreams
  refine hobject.weaken ?_ (fun _ _ h => ⟨h.1.2.remaining hr.isLexeme, h.2⟩)
    fun _ _ h => ⟨h.1.breaks.leftOff hr.isLexeme, h.2⟩
  rintro w ⟨rfl, hvisits⟩
  exact ⟨hr.proceeds, hvisits⟩

theorem objects_expends :
    Expends medium r tokens (Grammar.remainder r.settings.references tokens) note.objects := by
  refine (objects_parses hr.isLexeme hstreams).weaken ?_
    (fun _ _ h => ⟨h.1.remaining hr.isLexeme, h.2⟩) fun _ _ h => ⟨h.1.leftOff hr.isLexeme, h.2⟩
  rintro w ⟨rfl, hvisits⟩
  exact ⟨hr.proceeds, hvisits⟩

/-- Only a source that can go to the offset is read there. -/
theorem objectAt_expends (target : Int) :
    Expends medium r ((Operation.objectAt target).ahead r tokens)
      ((Operation.objectAt target).remainder r tokens) (objectAt target) := by
  have hmoved : PdfSyntax.Ensures (· = r) (Reader.seek target)
      (fun _ s => (∃ b, r.cursor.seek target = .ok () b) ∧ s = r.sentTo target)
      (LeftOff medium r.decrypt ((Operation.objectAt target).ahead r tokens)
        ((Operation.objectAt target).remainder r tokens)) := by
    refine (Reader.seek_leads r target).weaken (fun _ h => h) (fun _ _ h => h) ?_
    rintro e s ⟨⟨b, hseek⟩, rfl⟩
    rw [Operation.remainder, hseek, ← Buffer.sought_of_error hseek]
    exact Reader.leftOff_of_seek hr hseek
  apply PdfSyntax.Ensures.bind ((seek_unseen target).ensures hmoved)
  refine fun _ => Ensures.of_fact ?_
  rintro ⟨b, hseek⟩
  rw [Operation.remainder, hseek, ← Buffer.sought_of_ok hseek]
  exact next_expends (r := r.sentTo target) (hr.sentTo target) hstreams

end Operations

theorem perform_expends {medium : Medium} {r : Reader Buffer} {tokens : List Obj}
    {operation : Operation} (hr : Remaining medium r.decrypt tokens r)
    (hkeeps : operation.KeepsToTokens)
    (hstreams : operation.scope = .objects → r.settings.streams = false) :
    Expends medium r (operation.ahead r tokens) (operation.remainder r tokens) (perform operation) := by
  cases operation with
  | object => exact Ensures.returns (next_expends hr (hstreams rfl)) _
  | objectAt target => exact Ensures.returns (objectAt_expends hr (hstreams rfl) target) _
  | objects => exact Ensures.returns (objects_expends hr (hstreams rfl)) _
  | _ =>
    rw [perform_eq fun h => by cases h]
    exact (perform_unseen fun h => by cases h).ensures (Reader.perform_expends hr hkeeps fun h => by cases h)

end Watched

end PdfSyntax
