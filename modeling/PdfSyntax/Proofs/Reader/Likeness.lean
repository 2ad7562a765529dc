import PdfSyntax.Proofs.Reader.Congruence
import PdfSyntax.Proofs.Reader.Simulation
import PdfSyntax.Session

/-!
# Readers that do the same

A likeness is a relation between readers that single moves respect: it speaks of related cursors, of
the same tokens pushed back and of settings that switch the same things on. Whatever reads tokens then
does the same in readers that are alike. If moreover strings are deciphered alike, so does whatever
reads objects. Which relation it is does not matter to these activities: readers may differ in their
cursors, in what they have told, or in nothing at all but keep an invariant.
-/

set_option autoImplicit false

namespace PdfSyntax

variable {σ τ α β : Type}

/-- Settings that differ in what concerns enciphered files only. -/
structure Settings.SameSwitches (a b : Settings) : Prop where
  tolerant : a.tolerant = b.tolerant
  references : a.references = b.references
  streams : a.streams = b.streams

theorem Settings.sameSwitches_self (a : Settings) : a.SameSwitches a :=
  ⟨rfl, rfl, rfl⟩

namespace Reader

/-- A relation that the moves of reading tokens respect. -/
structure TokenLikeness [Cursor σ] [Cursor τ] (R : σ → τ → Prop) (L : Reader σ → Reader τ → Prop) :
    Prop where
  cursor : ∀ {r s}, L r s → R r.cursor s.cursor
  withCursor : ∀ {r s c d}, L r s → R c d → L { r with cursor := c } { s with cursor := d }
  pending : ∀ {r s}, L r s → r.pending = s.pending
  withPending : ∀ {r s} (pending : List Obj), L r s → L { r with pending } { s with pending }
  switches : ∀ {r s}, L r s → r.settings.SameSwitches s.settings
  context : ∀ {r s}, L r s → r.context = s.context
  record : ∀ {level message text}, IsSaid level message text →
    Keep Failure L (record level message (.ok text)) (record level message (.ok text))

/-- A relation that all moves of reading objects respect. -/
structure Likeness [Cursor σ] [Cursor τ] (R : σ → τ → Prop) (L : Reader σ → Reader τ → Prop) :
    Prop extends TokenLikeness R L where
  withContext : ∀ {r s} (context : Ref), L r s → L { r with context } { s with context }
  decipher : ∀ data, Keep Failure L (decipher data) (decipher data)

theorem onCursor_of_ok {m : EStateM Failure σ α} {r : Reader σ} {a : α} {c : σ}
    (h : m r.cursor = .ok a c) : onCursor m r = .ok a { r with cursor := c } := by
  simp only [onCursor, h]

theorem onCursor_of_error {m : EStateM Failure σ α} {r : Reader σ} {e : Failure} {c : σ}
    (h : m r.cursor = .error e c) : onCursor m r = .error e { r with cursor := c } := by
  simp only [onCursor, h]

/-- The reader after it has asked for a string. -/
def asking (request : Request) (r : Reader σ) : Reader σ :=
  { r with requests := r.requests ++ [request] }

section Decipher
variable {r : Reader σ} {key : Bytes}

theorem decipher_of_no_key (h : r.settings.key = none) (data : Bytes) :
    decipher data r = .ok data r := by
  simp only [decipher, h]

theorem decipher_of_outside (h : r.context.id = 0) (data : Bytes) : decipher data r = .ok data r := by
  unfold decipher
  cases r.settings.key with
  | none => rfl
  | some key => exact if_pos h

theorem decipher_of_key (hkey : r.settings.key = some key) (hid : r.context.id ≠ 0) (data : Bytes) :
    decipher data r =
      match r.decrypt ⟨key, r.settings.algorithm, r.context, data⟩ with
      | .ok plain => .ok plain (r.asking ⟨key, r.settings.algorithm, r.context, data⟩)
      | .error e => .error e (r.asking ⟨key, r.settings.algorithm, r.context, data⟩) := by
  simp only [decipher, hkey, if_neg hid]
  rfl

end Decipher

/-- A string is left as it is, or the reader asks for it, and that is all it does. -/
theorem decipher_cases (data : Bytes) (r : Reader σ) :
    decipher data r = .ok data r ∨ ∃ request : Request, request.ref = r.context ∧
      ((∃ plain, r.decrypt request = .ok plain ∧ decipher data r = .ok plain (r.asking request)) ∨
        ∃ e, r.decrypt request = .error e ∧ decipher data r = .error e (r.asking request)) := by
  cases hkey : r.settings.key with
  | none => exact .inl (decipher_of_no_key hkey data)
  | some key =>
    by_cases hid : r.context.id = 0
    · exact .inl (decipher_of_outside hid data)
    · refine .inr ⟨⟨key, r.settings.algorithm, r.context, data⟩, rfl, ?_⟩
      rw [decipher_of_key hkey hid]
      cases r.decrypt ⟨key, r.settings.algorithm, r.context, data⟩ with
      | ok plain => exact .inl ⟨plain, rfl, rfl⟩
      | error e => exact .inr ⟨e, rfl, rfl⟩

theorem decipher_ensures {P : Reader σ → Prop} (h : ∀ {r} request, P r → P (asking request r))
    (data : Bytes) : Ensures P (decipher data) (fun _ => P) (fun _ => P) := by
  intro r hr
  rcases decipher_cases data r with heq | ⟨request, -, ⟨plain, -, heq⟩ | ⟨e, -, heq⟩⟩
  · rw [heq]
    exact hr
  · rw [heq]
    exact h request hr
  · rw [heq]
    exact h request hr

/-- Readers with the same key at the same object ask for the same. -/
theorem decipher_keep_of_same {L : Reader σ → Reader τ → Prop}
    (settings : ∀ {r s}, L r s → r.settings = s.settings)
    (context : ∀ {r s}, L r s → r.context = s.context)
    (decrypt : ∀ {r s}, L r s → r.decrypt = s.decrypt)
    (asked : ∀ {r s} request, L r s → L (asking request r) (asking request s)) (data : Bytes) :
    Keep Failure L (decipher data) (decipher data) := by
  intro r s hrs
  have hsettings := settings hrs
  have hcontext := context hrs
  cases hkey : s.settings.key with
  | none =>
    rw [decipher_of_no_key hkey, decipher_of_no_key (hsettings ▸ hkey)]
    exact .ok hrs
  | some key =>
    by_cases hid : s.context.id = 0
    · rw [decipher_of_outside hid, decipher_of_outside (hcontext ▸ hid)]
      exact .ok hrs
    · rw [decipher_of_key hkey hid, decipher_of_key (hsettings ▸ hkey) (hcontext ▸ hid), hsettings,
        hcontext, decrypt hrs]
      cases s.decrypt ⟨key, s.settings.algorithm, s.context, data⟩ with
      | ok plain => exact .ok (asked _ hrs)
      | error e => exact .error (asked _ hrs)

/-- Readers at the same object return to the same one. -/
theorem within_keep_of_same {L : Reader σ → Reader τ → Prop}
    (context : ∀ {r s}, L r s → r.context = s.context)
    (withContext : ∀ {r s} (context : Ref), L r s → L { r with context } { s with context })
    {m : Reading σ α} {n : Reading τ α} (ref : Ref) (h : Keep Failure L m n) :
    Keep Failure L (within ref m) (within ref n) := by
  intro r s hrs
  have hinner := h _ _ (withContext ref hrs)
  have hcontext := context hrs
  simp only [within]
  generalize m { r with context := ref } = x at hinner ⊢
  generalize n { s with context := ref } = y at hinner ⊢
  cases hinner with
  | ok hq =>
    rw [hcontext]
    exact .ok (withContext s.context hq)
  | error he =>
    rw [hcontext]
    exact .error (withContext s.context he)

theorem ofExcept_keep {γ : Type} (L : Reader σ → Reader τ → Prop) (x : Except Failure γ) :
    Keep Failure L (MonadExcept.ofExcept x : Reading σ γ) (MonadExcept.ofExcept x) := by
  cases x with
  | ok a => exact .pure fun _ _ h => h
  | error e => exact .throw fun _ _ h => h

section Tokens
variable [Cursor σ] [Cursor τ] {R : σ → τ → Prop} {within : Int → Prop}
variable {L : Reader σ → Reader τ → Prop} {Q : β → Reader σ → Reader τ → Prop}
variable {E : Failure → Reader σ → Reader τ → Prop}

namespace TokenLikeness

section Moves
variable (like : TokenLikeness R L)
include like

/-- What an activity makes of the settings counts only as far as these are the same. -/
theorem settings_bind {f : Settings → Reading σ β} {g : Settings → Reading τ β}
    (h : ∀ a b : Settings, a.SameSwitches b → Agree L (f a) (g b) Q E) :
    Agree L (getSettings >>= f) (getSettings >>= g) Q E :=
  fun r s hrs => h r.settings s.settings (like.switches hrs) r s hrs

theorem getContext_keep : Keep Failure L (getContext (σ := σ)) getContext := by
  intro r s hrs
  change SameEnd _ _ (.ok r.context r) (.ok s.context s)
  rw [like.context hrs]
  exact .ok hrs

theorem push_keep (token : Obj) : Keep Failure L (push (σ := σ) token) (push token) := by
  intro r s hrs
  apply SameEnd.ok
  change L { r with pending := token :: r.pending } { s with pending := token :: s.pending }
  rw [← like.pending hrs]
  exact like.withPending _ hrs

theorem pop_keep : Keep Failure L (pop (σ := σ)) pop := by
  intro r s hrs
  have hpending := like.pending hrs
  have hpopped := like.withPending r.pending.tail hrs
  rcases r with ⟨c, pending, settings, context, decrypt, told, records, requests⟩
  rcases s with ⟨d, pending', settings', context', decrypt', told', records', requests'⟩
  obtain rfl : pending = pending' := hpending
  cases pending with
  | nil => exact .ok hrs
  | cons token pending => exact .ok hpopped

theorem clear_keep : Keep Failure L (modify fun r => { r with pending := [] } : Reading σ Unit)
    (modify fun r => { r with pending := [] }) :=
  fun _ _ hrs => .ok (like.withPending [] hrs)

theorem onCursor_agree {m : EStateM Failure σ α} {n : EStateM Failure τ α}
    {P : α → σ → τ → Prop} (h : Agree R m n P (fun _ => R)) (hP : ∀ a c d, P a c d → R c d) :
    Agree L (onCursor m) (onCursor n) (fun a r s => L r s ∧ P a r.cursor s.cursor) (fun _ => L) := by
  intro r s hrs
  have hc := h r.cursor s.cursor (like.cursor hrs)
  cases hm : m r.cursor with
  | ok a c =>
    cases hn : n s.cursor with
    | error e d => rw [hm, hn] at hc; cases hc
    | ok b d =>
      rw [hm, hn] at hc
      cases hc with
      | ok hp =>
        rw [onCursor_of_ok hm, onCursor_of_ok hn]
        exact .ok ⟨like.withCursor hrs (hP _ _ _ hp), hp⟩
  | error e c =>
    cases hn : n s.cursor with
    | ok b d => rw [hm, hn] at hc; cases hc
    | error e' d =>
      rw [hm, hn] at hc
      cases hc with
      | error hR =>
        rw [onCursor_of_error hm, onCursor_of_error hn]
        exact .error (like.withCursor hrs hR)

theorem onCursor_keep {m : EStateM Failure σ α} {n : EStateM Failure τ α} (h : Keep Failure R m n) :
    Keep Failure L (onCursor m) (onCursor n) :=
  (like.onCursor_agree h fun _ _ _ h => h).weaken (fun _ _ h => h) (fun _ _ _ h => h.1)
    (fun _ _ _ h => h)

end Moves

variable (like : TokenLikeness R L) (sim : Simulation R within)
include like sim

theorem place_keep : Keep Failure L (place (σ := σ)) place := by
  intro r s hrs
  change SameEnd _ _ (.ok (Cursor.offset r.cursor) r) (.ok (Cursor.offset s.cursor) s)
  rw [sim.offset (like.cursor hrs)]
  exact .ok hrs

theorem fail_keep (fault : Fault) : Keep Failure L (fail (σ := σ) (α := α) fault) (fail fault) := by
  rw [fail_eq, fail_eq]
  exact (like.place_keep sim).bind fun _ => .throw fun _ _ h => h

theorem failWith_keep (template : String) (arguments : List Obj) :
    Keep Failure L (failWith (σ := σ) (α := α) template arguments) (failWith template arguments) :=
  (ofExcept_keep L _).bind fun _ => (like.place_keep sim).bind fun _ => .throw fun _ _ h => h

theorem token_keep : Keep Failure L (token (σ := σ)) token := by
  apply like.pop_keep.bind
  intro popped
  cases popped with
  | some token => exact .pure fun _ _ h => h
  | none =>
    apply like.settings_bind
    intro a b hab
    rw [hab.tolerant]
    apply (like.onCursor_keep (lex_keep sim b.tolerant .gap)).bind
    intro verdict
    cases verdict with
    | token token => exact .pure fun _ _ h => h
    | fault fault => exact like.fail_keep sim fault
    | cutShort string => exact (like.record .cutShort).bind fun _ => .pure fun _ _ h => h

/-- Also after the byte is given back the readers are alike, unless it is the filler at the end. -/
theorem byte_agree : Agree L (byte (σ := σ)) byte
    (fun b r s => L r s ∧ (b ≠ Byte.lineFeed →
      L { r with cursor := Cursor.back r.cursor } { s with cursor := Cursor.back s.cursor }))
    (fun _ => L) := by
  apply Agree.bind (Q := fun read r s =>
    L r s ∧ R r.cursor s.cursor ∧ (read.isSome → R (Cursor.back r.cursor) (Cursor.back s.cursor)))
  · apply like.settings_bind
    intro a b hab
    rw [hab.tolerant]
    exact like.onCursor_agree (sim.next b.tolerant) fun _ _ _ h => h.1
  · intro read
    apply Agree.pure
    intro r s hcases
    rcases hcases with ⟨hrs, -, hback⟩
    refine ⟨hrs, fun hb => ?_⟩
    cases read with
    | none => exact absurd rfl hb
    | some b => exact like.withCursor hrs (hback rfl)

theorem byte_keep : Keep Failure L (byte (σ := σ)) byte :=
  (like.byte_agree sim).weaken (fun _ _ h => h) (fun _ _ _ h => h.1) (fun _ _ _ h => h)

theorem bytes_keep (count : Nat) : Keep Failure L (bytes (σ := σ) count) (bytes count) := by
  induction count with
  | zero => exact .pure fun _ _ h => h
  | succ count ih => exact (like.byte_keep sim).bind fun _ => ih.bind fun _ => .pure fun _ _ h => h

theorem seek_keep {target : Int} (h : within target) :
    Keep Failure L (seek (σ := σ) target) (seek target) :=
  like.clear_keep.bind fun _ => like.onCursor_keep (sim.seek h)

/-- The byte after a carriage return is given back only if it is no line feed, so it is no filler. -/
theorem streamStart_keep : Keep Failure L (streamStart (σ := σ)) streamStart := by
  apply (like.byte_keep sim).bind
  intro first
  apply Agree.ite
  · intro _
    apply (like.byte_agree sim).bind
    intro second
    apply Agree.ite
    · intro hne
      apply Agree.bind (Q := fun _ => L)
      · intro r s hcases
        rcases hcases with ⟨_, hback⟩
        exact .ok (hback (by simpa using hne))
      · exact fun _ => like.record .loneReturn
    · intro _
      exact .pure fun _ _ h => h.1
  · intro _
    apply Agree.ite
    · exact fun _ => like.fail_keep sim _
    · exact fun _ => .pure fun _ _ h => h

theorem congruence : PayloadCongruence fun _ m n => Keep Failure L m n where
  pure _ := .pure fun _ _ h => h
  bind hm hf := hm.bind hf
  settings h := like.settings_bind fun a b hab => h a b hab.references hab.streams
  context := like.getContext_keep
  place := like.place_keep sim
  push := like.push_keep
  token := like.token_keep sim
  fail := like.fail_keep sim
  record := like.record
  streamStart := like.streamStart_keep sim

theorem suffix_keep (id : Int) : Keep Failure L (suffix (σ := σ) id) (suffix id) :=
  (like.congruence sim).suffix id

theorem weight_eq {r : Reader σ} {s : Reader τ} (h : L r s) : r.weight = s.weight := by
  simp only [weight, like.pending h, sim.left (like.cursor h)]

end TokenLikeness
end Tokens

namespace Likeness
variable [Cursor σ] [Cursor τ] {R : σ → τ → Prop} {range : Int → Prop}
variable {L : Reader σ → Reader τ → Prop} (like : Likeness R L)
include like

theorem within_keep {m : Reading σ α} {n : Reading τ α} (ref : Ref) (h : Keep Failure L m n) :
    Keep Failure L (within ref m) (within ref n) :=
  within_keep_of_same like.context like.withContext ref h

variable (sim : Simulation R range)
include sim

theorem congruence : Congruence fun _ m n => Keep Failure L m n where
  toPayloadCongruence := like.toTokenLikeness.congruence sim
  exhausted := .throw fun _ _ h => h
  decipher := like.decipher
  within := like.within_keep

section Opened
variable {opening : Opening σ} {opening' : Opening τ}
variable (hopening : ∀ bracket, Keep Failure L (opening bracket) (opening' bracket))
include hopening

theorem next_keep : Keep Failure L opening.next opening'.next := by
  intro r s h
  change SameEnd _ _ (opening.object (2 * r.weight + 2) r) (opening'.object (2 * s.weight + 2) s)
  rw [like.weight_eq sim h]
  exact (like.congruence sim).toObject.opened hopening _ r s h

theorem objectsOpened_keep (bound : Nat) :
    Keep Failure L (opening.objectsWithin bound) (opening'.objectsWithin bound) := by
  induction bound with
  | zero => exact .throw fun _ _ h => h
  | succ bound ih =>
    apply (like.next_keep sim hopening).bind
    intro object
    cases object.isEnd with
    | true => exact .pure fun _ _ h => h
    | false => exact ih.bind fun _ => .pure fun _ _ h => h

theorem allOpened_keep : Keep Failure L opening.objects opening'.objects := by
  intro r s h
  change SameEnd _ _ (opening.objectsWithin (r.weight + 1) r) (opening'.objectsWithin (s.weight + 1) s)
  rw [like.weight_eq sim h]
  exact like.objectsOpened_keep sim hopening _ r s h

end Opened

theorem object_keep : Keep Failure L (object (σ := σ)) object :=
  like.next_keep sim fun _ => .pure fun _ _ h => h

theorem objects_keep : Keep Failure L (objects (σ := σ)) objects :=
  like.allOpened_keep sim fun _ => .pure fun _ _ h => h

end Likeness
end Reader
end PdfSyntax
