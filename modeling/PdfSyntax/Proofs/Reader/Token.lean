import PdfSyntax.Proofs.Input.Passing

/-!
# One token of a reader

A token that was pushed back is taken as it is. With nothing pushed back, a reader over a direct cursor
makes of the bytes to come what the lexer makes of them.
-/

set_option autoImplicit false

namespace PdfSyntax.Reader

theorem eq_int_of_natural? {token : Obj} {limit n : Int} (h : token.natural? limit = some n) :
    token = .int n ∧ 0 ≤ n ∧ n < limit := by
  unfold Obj.natural? at h
  split at h
  · split at h
    · next hrange =>
      cases h
      exact ⟨rfl, hrange⟩
    · cases h
  · cases h

section Messages
variable {σ : Type}

def knows (message : String) (r : Reader σ) : Bool :=
  match r.told with
  | none => false
  | some told => told.contains message

/-- The reader after a message at its place, unless it is suppressed. -/
def recorded [Cursor σ] (level : Level) (message text : String) (r : Reader σ) : Reader σ :=
  if r.knows message then r
  else { r with
    told := r.told.map (message :: ·)
    records := r.records ++ [⟨level, located text (Cursor.offset r.cursor)⟩] }

theorem cursor_recorded [Cursor σ] (level : Level) (message text : String) (r : Reader σ) :
    (r.recorded level message text).cursor = r.cursor := by
  unfold recorded
  split <;> rfl

theorem pending_recorded [Cursor σ] (level : Level) (message text : String) (r : Reader σ) :
    (r.recorded level message text).pending = r.pending := by
  unfold recorded
  split <;> rfl

theorem settings_recorded [Cursor σ] (level : Level) (message text : String) (r : Reader σ) :
    (r.recorded level message text).settings = r.settings := by
  unfold recorded
  split <;> rfl

/-- Telling something changes only what was told. -/
theorem exists_recorded [Cursor σ] (level : Level) (message text : String) (r : Reader σ) :
    ∃ told records, r.recorded level message text = { r with told, records } := by
  unfold recorded
  split
  · exact ⟨r.told, r.records, rfl⟩
  · exact ⟨_, _, rfl⟩

theorem recorded_of_knows [Cursor σ] {message : String} {r : Reader σ} (h : r.knows message = true)
    (level : Level) (text : String) : r.recorded level message text = r :=
  if_pos h

theorem records_recorded [Cursor σ] {message : String} {r : Reader σ} (h : ¬ r.knows message = true)
    (level : Level) (text : String) : (r.recorded level message text).records =
      r.records ++ [⟨level, located text (Cursor.offset r.cursor)⟩] := by
  rw [recorded, if_neg h]

theorem isSome_of_knows {message : String} {r : Reader σ} (h : r.knows message = true) :
    r.told.isSome = true := by
  unfold knows at h
  split at h
  · cases h
  · next htold =>
    rw [htold]
    rfl

theorem record_eq [Cursor σ] (level : Level) (message text : String) (r : Reader σ) :
    record level message (.ok text) r = .ok () (r.recorded level message text) := by
  obtain ⟨cursor, pending, settings, context, decrypt, told, records, requests⟩ := r
  cases told with
  | none => rfl
  | some told =>
    by_cases h : told.contains message = true
    · have hnews : isNews message ⟨cursor, pending, settings, context, decrypt, some told, records,
          requests⟩ = .ok false ⟨cursor, pending, settings, context, decrypt, some told, records,
          requests⟩ := by
        rw [isNews_of_some rfl, if_pos h]
      simp only [record, tell, recorded, knows, h, Bind.bind, EStateM.bind, hnews]
      rfl
    · have hnews : isNews message ⟨cursor, pending, settings, context, decrypt, some told, records,
          requests⟩ = .ok true ⟨cursor, pending, settings, context, decrypt, some (message :: told),
          records, requests⟩ := by
        rw [isNews_of_some rfl, if_neg h]
      simp only [record, tell, recorded, knows, h, Bind.bind, EStateM.bind, hnews]
      rfl

end Messages

section Token
variable {σ : Type} [Cursor σ] {r : Reader σ}

theorem token_of_pending {token : Obj} {pending : List Obj} (h : r.pending = token :: pending) :
    Reader.token r = .ok token { r with pending } := by
  obtain ⟨cursor, pending', settings, context, decrypt, told, records, requests⟩ := r
  cases h
  rfl

/-- What a verdict of the lexer means for the reader, with its cursor behind the token. -/
def judged (r : Reader σ) : Lexer.Verdict → EStateM.Result Failure (Reader σ) Obj
  | .token token => .ok token r
  | .fault fault => .error (.malformed fault (Cursor.offset r.cursor)) r
  | .cutShort string => .ok (.str string) (r.recorded .warning cutShortMessage cutShortMessage)

theorem token_of_no_pending (hp : r.pending = []) :
    token r = match lex r.settings.tolerant .gap r.cursor with
      | .ok verdict c => ({ r with cursor := c } : Reader σ).judged verdict
      | .error e c => .error e { r with cursor := c } := by
  obtain ⟨cursor, pending, settings, context, decrypt, told, records, requests⟩ := r
  cases hp
  change (onCursor (lex settings.tolerant .gap) >>= fun
    | .token token => Pure.pure token
    | .fault fault => fail fault
    | .cutShort string => do
      record .warning cutShortMessage (.ok cutShortMessage)
      return .str string : Reading σ Obj) _ = _
  simp only [Bind.bind, EStateM.bind, onCursor]
  cases lex settings.tolerant .gap cursor with
  | error e c => rfl
  | ok verdict c =>
    cases verdict with
    | token token => rfl
    | fault fault => exact fail_apply fault _
    | cutShort string =>
      simp only [EStateM.bind, record_eq]
      rfl

theorem byte_of_ok {byte : Option UInt8} {c : σ}
    (h : Cursor.next r.settings.tolerant r.cursor = .ok byte c) :
    Reader.byte r = .ok (byte.getD Byte.lineFeed) { r with cursor := c } := by
  simp only [Reader.byte, byte?, getSettings, onCursor, Bind.bind, EStateM.bind, h]
  rfl

theorem byte_of_error {e : Failure} {c : σ}
    (h : Cursor.next r.settings.tolerant r.cursor = .error e c) :
    Reader.byte r = .error e { r with cursor := c } := by
  simp only [Reader.byte, byte?, getSettings, onCursor, Bind.bind, EStateM.bind, h]

end Token

section Kept
variable {σ : Type} [Cursor σ] {P : Reader σ → Prop} {E : Failure → Reader σ → Prop}

theorem bytes_keeps (h : Ensures P byte (fun _ => P) E) (count : Nat) :
    Ensures P (bytes count) (fun _ => P) E := by
  induction count with
  | zero => exact .pure fun _ h => h
  | succ count ih => exact h.bind fun _ => ih.bind fun _ => .pure fun _ h => h

theorem tokens_keeps (h : Ensures P token (fun _ => P) E) (count : Nat) :
    Ensures P (tokens count) (fun _ => P) E := by
  induction count with
  | zero => exact .pure fun _ h => h
  | succ count ih =>
    apply h.bind
    intro token
    cases token.isEnd with
    | true => exact .pure fun _ h => h
    | false => exact ih.bind fun _ => .pure fun _ h => h

end Kept

theorem token_ensures {r : Reader Direct} (hp : r.pending = []) (hr : r.cursor.IsInside) :
    ∃ (bytes : Bytes) (d : Direct), r.cursor.Passes bytes d ∧
      match Lexer.scan r.settings.tolerant .gap r.cursor.rest with
      | none => token r = .error (.unexpectedEnd d.offset) { r with cursor := d }
      | some (verdict, rest) =>
        d.rest = rest ∧ token r = ({ r with cursor := d } : Reader Direct).judged verdict := by
  have hlex := Direct.lex_scans hr r.settings.tolerant .gap
  rw [token_of_no_pending hp]
  cases h : lex r.settings.tolerant .gap r.cursor with
  | ok verdict d =>
    rw [h] at hlex
    obtain ⟨hscan, bytes, hpass⟩ := hlex
    rw [hscan]
    exact ⟨bytes, d, hpass, rfl, rfl⟩
  | error e d =>
    rw [h] at hlex
    obtain ⟨hscan, rfl, bytes, hpass⟩ := hlex
    rw [hscan]
    exact ⟨bytes, d, hpass, rfl⟩

end PdfSyntax.Reader
