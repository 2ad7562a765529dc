import PdfSyntax.Proofs.Input.Continuation
import PdfSyntax.Proofs.Input.Forward
import PdfSyntax.Proofs.Reader.Invariant
import PdfSyntax.Proofs.Reader.Termination

/-!
# Reading before the end

Two readers, of which the first one tolerates the end and the second one has more data, or does not
tolerate the end, or both, come to the same as long as the first one has not come to the end of its data.
So it is only the first call to reach the end that tolerance, or a file cut short, can make a difference
to.
-/

set_option autoImplicit false

namespace PdfSyntax

variable {σ τ α : Type}

/-- Cursors of which the first one tolerates the end, and the second one yields what the first one does
until that one is past the end. -/
structure Continuation [Cursor σ] [Cursor τ] (R : σ → τ → Prop) (past : σ → Prop) (tolerant : Bool) :
    Prop where
  next : ∀ {c d}, R c d → match Cursor.next true c with
    | .ok (some b) c' => ∃ d', Cursor.next tolerant d = .ok (some b) d' ∧ R c' d' ∧
      R (Cursor.back c') (Cursor.back d')
    | .ok none c' => past c'
    | .error _ _ => False
  offset : ∀ {c d}, R c d → Cursor.offset c = Cursor.offset d
  isEnded : ∀ {c d}, R c d → Cursor.isEnded c = false ∧ Cursor.isEnded d = false
  ended : ∀ {c}, past c → Cursor.isEnded c = true
  law : Cursor.Law (fun _ => False) past

namespace Reader

/-- A reader over another cursor, which tolerates the end or not. -/
def shifted (tolerant : Bool) (d : τ) (r : Reader σ) : Reader τ :=
  { r with cursor := d, settings := { r.settings with tolerant } }

/-- Readers that differ in their cursors, and in whether they tolerate the end, only. The first one
does. -/
def Precedes (R : σ → τ → Prop) (tolerant : Bool) (r : Reader σ) (s : Reader τ) : Prop :=
  r.settings.tolerant = true ∧ ∃ d, R r.cursor d ∧ s = r.shifted tolerant d

section Moves
variable {R : σ → τ → Prop} {tolerant : Bool}

theorem keep_of_shifted {m : Reading σ α} {n : Reading τ α}
    (h : ∀ (r : Reader σ) (d : τ), R r.cursor d → match m r with
      | .ok a r' => n (r.shifted tolerant d) = .ok a (r'.shifted tolerant d) ∧
        r'.cursor = r.cursor ∧ r'.settings.tolerant = r.settings.tolerant
      | .error e r' => n (r.shifted tolerant d) = .error e (r'.shifted tolerant d) ∧
        r'.cursor = r.cursor ∧ r'.settings.tolerant = r.settings.tolerant) :
    Keep Failure (Precedes R tolerant) m n := by
  rintro r s ⟨htolerant, d, hR, rfl⟩
  have hr := h r d hR
  cases hm : m r with
  | ok a r' =>
    rw [hm] at hr
    obtain ⟨hn, hcursor, hsettings⟩ := hr
    rw [hn]
    exact .ok ⟨hsettings.trans htolerant, d, hcursor ▸ hR, rfl⟩
  | error e r' =>
    rw [hm] at hr
    obtain ⟨hn, hcursor, hsettings⟩ := hr
    rw [hn]
    exact .error ⟨hsettings.trans htolerant, d, hcursor ▸ hR, rfl⟩

theorem push_shifted (token : Obj) :
    Keep Failure (Precedes R tolerant) (push token) (push token) :=
  keep_of_shifted fun _ _ _ => ⟨rfl, rfl, rfl⟩

theorem pop_shifted : Keep Failure (Precedes R tolerant) pop pop := by
  apply keep_of_shifted
  intro r d _
  obtain ⟨cursor, pending, settings, context, decrypt, told, records, requests⟩ := r
  cases pending <;> exact ⟨rfl, rfl, rfl⟩

theorem decipher_shifted (data : Bytes) :
    Keep Failure (Precedes R tolerant) (decipher data) (decipher data) := by
  apply keep_of_shifted
  intro r d _
  cases hkey : r.settings.key with
  | none =>
    rw [decipher_of_no_key hkey, decipher_of_no_key (r := r.shifted tolerant d) hkey]
    exact ⟨rfl, rfl, rfl⟩
  | some key =>
    by_cases hid : r.context.id = 0
    · rw [decipher_of_outside hid, decipher_of_outside (r := r.shifted tolerant d) hid]
      exact ⟨rfl, rfl, rfl⟩
    · rw [decipher_of_key hkey hid, decipher_of_key (r := r.shifted tolerant d) hkey hid]
      simp only [shifted]
      cases r.decrypt ⟨key, r.settings.algorithm, r.context, data⟩ with
      | ok plain => exact ⟨rfl, rfl, rfl⟩
      | error e => exact ⟨rfl, rfl, rfl⟩

/-- Whatever is set is set in both, the tolerance apart. -/
theorem set_shifted {setting : Setting} (h : ∀ value, setting ≠ .tolerant value) :
    Keep Failure (Precedes R tolerant) (set setting) (set setting) := by
  apply keep_of_shifted
  intro r d _
  cases setting with
  | tolerant value => exact absurd rfl (h value)
  | _ => exact ⟨rfl, rfl, rfl⟩

theorem within_until {past : σ → Prop} {m : Reading σ α} {n : Reading τ α} (ref : Ref)
    (h : AgreeUntil (fun r => past r.cursor) (Precedes R tolerant) m n (fun _ => Precedes R tolerant)
      (fun _ => Precedes R tolerant)) :
    AgreeUntil (fun r => past r.cursor) (Precedes R tolerant) (within ref m) (within ref n)
      (fun _ => Precedes R tolerant) (fun _ => Precedes R tolerant) := by
  have hcontext : ∀ {r : Reader σ} {s : Reader τ} (context : Ref), Precedes R tolerant r s →
      Precedes R tolerant { r with context } { s with context } := by
    rintro r s context ⟨htolerant, d, hR, rfl⟩
    exact ⟨htolerant, d, hR, rfl⟩
  constructor
  · intro r hr
    have hinner := h.stays { r with context := ref } hr
    simp only [within]
    generalize m { r with context := ref } = x at hinner ⊢
    cases x with
    | ok a r' => exact hinner
    | error e r' => exact hinner
  · rintro r s ⟨htolerant, d, hR, rfl⟩
    have hinner := h.agree (s := { r with context := ref })
      (t := { r.shifted tolerant d with context := ref }) ⟨htolerant, d, hR, rfl⟩
    simp only [within]
    generalize m { r with context := ref } = x at hinner ⊢
    generalize n { r.shifted tolerant d with context := ref } = y at hinner ⊢
    rcases hinner with hsame | hpast
    · cases hsame with
      | ok hq => exact .inl (.ok (hcontext r.context hq))
      | error he => exact .inl (.error (hcontext r.context he))
    · cases x with
      | ok a r' => exact .inr hpast
      | error e r' => exact .inr hpast

end Moves

section Reading
variable [Cursor σ] [Cursor τ] {R : σ → τ → Prop} {past : σ → Prop} {tolerant : Bool}
variable (cont : Continuation R past tolerant)
include cont

/-- Behind an end that the first cursor meets it is past the end, whatever the lexer does there. -/
theorem lex_until (state : Lexer.State) {c : σ} {d : τ} (hR : R c d) :
    SameEnd (fun _ => R) (fun _ => R) (lex true state c) (lex tolerant state d) ∨
      Leaves past (lex true state c) := by
  induction state, c using lex_induction (σ := σ) true generalizing d with
  | error hc hlex =>
    have hnext := cont.next hR
    rw [hc] at hnext
    exact hnext.elim
  | again hc _ hlex =>
    have hpast := cont.next hR
    rw [hc] at hpast
    rw [hlex]
    exact .inr ((cont.law.lex true _).leaves hpast)
  | finished hc _ hlex =>
    have hpast := cont.next hR
    rw [hc] at hpast
    rw [hlex]
    exact .inr hpast
  | more hc hs hlex ih =>
    have hnext := cont.next hR
    rw [hc] at hnext
    obtain ⟨d', hd, hR', -⟩ := hnext
    rw [(cont.isEnded hR').1, ← (cont.isEnded hR').2] at hs
    rw [hlex, lex_of_more hd hs]
    exact ih hR'
  | done hc hs hlex =>
    have hnext := cont.next hR
    rw [hc] at hnext
    obtain ⟨d', hd, hR', -⟩ := hnext
    rw [(cont.isEnded hR').1, ← (cont.isEnded hR').2] at hs
    rw [hlex, lex_of_done hd hs]
    exact .inl (.ok hR')
  | doneBefore hc hs hlex =>
    have hnext := cont.next hR
    rw [hc] at hnext
    obtain ⟨d', hd, hR', hback⟩ := hnext
    rw [(cont.isEnded hR').1, ← (cont.isEnded hR').2] at hs
    rw [hlex, lex_of_doneBefore hd hs]
    exact .inl (.ok hback)

theorem place_shifted : Keep Failure (Precedes R tolerant) (place (σ := σ)) place := by
  apply keep_of_shifted
  intro r d hR
  change (EStateM.Result.ok (Cursor.offset d) _ : EStateM.Result Failure _ _) = _ ∧ _
  rw [← cont.offset hR]
  exact ⟨rfl, rfl, rfl⟩

theorem fail_shifted (fault : Fault) :
    Keep Failure (Precedes R tolerant) (fail (σ := σ) (α := α) fault) (fail fault) := by
  rw [fail_eq, fail_eq]
  exact (place_shifted cont).bind fun _ => .throw fun _ _ h => h

theorem recorded_shifted {r : Reader σ} {d : τ} (hR : R r.cursor d) (level : Level)
    (message text : String) : (r.shifted tolerant d).recorded level message text =
      (r.recorded level message text).shifted tolerant d := by
  by_cases hknows : r.knows message = true
  · rw [recorded_of_knows hknows, recorded_of_knows (r := r.shifted tolerant d) hknows]
  · have hknows' : ¬ (r.shifted tolerant d).knows message = true := hknows
    have hoffset : Cursor.offset (r.shifted tolerant d).cursor = Cursor.offset r.cursor :=
      (cont.offset hR).symm
    rw [recorded, recorded, if_neg hknows, if_neg hknows', hoffset]
    rfl

theorem record_shifted (level : Level) (message text : String) :
    Keep Failure (Precedes R tolerant) (record (σ := σ) level message (.ok text))
      (record level message (.ok text)) := by
  apply keep_of_shifted
  intro r d hR
  rw [record_eq, record_eq, recorded_shifted cont hR]
  exact ⟨rfl, cursor_recorded _ _ _ _, by rw [settings_recorded]⟩

theorem token_until : AgreeUntil (fun r => past r.cursor) (Precedes R tolerant) (token (σ := σ)) token
    (fun _ => Precedes R tolerant) (fun _ => Precedes R tolerant) := by
  refine ⟨stays_of_keep fun _ _ => over_likeness.token_keep cont.law.simulation, ?_⟩
  rintro r s ⟨htolerant, d, hR, rfl⟩
  cases hp : r.pending with
  | cons first rest =>
    rw [token_of_pending hp, token_of_pending (r := r.shifted tolerant d) hp]
    exact .inl (.ok ⟨htolerant, d, hR, rfl⟩)
  | nil =>
    have hlex := lex_until cont .gap hR
    rw [token_of_no_pending hp, token_of_no_pending (r := r.shifted tolerant d) hp, htolerant]
    simp only [shifted]
    generalize lex true .gap r.cursor = x at hlex ⊢
    generalize lex tolerant .gap d = y at hlex ⊢
    rcases hlex with hsame | hpast
    · refine .inl ?_
      cases hsame with
      | error hR' => exact .error ⟨htolerant, _, hR', rfl⟩
      | @ok verdict c' d' hR' =>
        have hafter : Precedes R tolerant { r with cursor := c' } (r.shifted tolerant d') :=
          ⟨htolerant, d', hR', rfl⟩
        cases verdict with
        | token token => exact .ok hafter
        | fault fault =>
          simp only [judged, ← cont.offset hR']
          exact .error hafter
        | cutShort string =>
          refine .ok ⟨?_, d', ?_, recorded_shifted cont (r := { r with cursor := c' }) hR' _ _ _⟩
          · rw [settings_recorded]
            exact htolerant
          · rw [cursor_recorded]
            exact hR'
    · refine .inr ?_
      cases x with
      | error e c' => exact hpast
      | ok verdict c' =>
        cases verdict with
        | token token => exact hpast
        | fault fault => exact hpast
        | cutShort string =>
          simp only [judged, Leaves, cursor_recorded]
          exact hpast

/-- Both read the same byte, and can give it back. -/
theorem byte_until : AgreeUntil (fun r => past r.cursor) (Precedes R tolerant) (byte (σ := σ)) byte
    (fun _ r s => Precedes R tolerant r s ∧ Precedes R tolerant { r with cursor := Cursor.back r.cursor }
      { s with cursor := Cursor.back s.cursor })
    (fun _ => Precedes R tolerant) := by
  refine ⟨stays_of_keep fun _ _ => over_likeness.byte_keep cont.law.simulation, ?_⟩
  rintro r s ⟨htolerant, d, hR, rfl⟩
  have hnext := cont.next hR
  cases hc : Cursor.next true r.cursor with
  | error e c' =>
    rw [hc] at hnext
    exact hnext.elim
  | ok byte c' =>
    rw [hc] at hnext
    rw [byte_of_ok (htolerant ▸ hc)]
    cases byte with
    | none => exact .inr hnext
    | some b =>
      obtain ⟨d', hd, hR', hback⟩ := hnext
      rw [byte_of_ok (r := r.shifted tolerant d) hd]
      exact .inl (.ok ⟨⟨htolerant, d', hR', rfl⟩, htolerant, _, hback, rfl⟩)

theorem bytes_until (count : Nat) : AgreeUntil (fun r => past r.cursor) (Precedes R tolerant)
    (bytes (σ := σ) count) (bytes count) (fun _ => Precedes R tolerant)
    (fun _ => Precedes R tolerant) := by
  induction count with
  | zero => exact .pure fun _ _ h => h
  | succ count ih =>
    exact ((byte_until cont).weaken (fun _ _ h => h) (fun _ _ _ h => h.1)).bind fun _ =>
      ih.bind fun _ => .pure fun _ _ h => h

theorem record_until (level : Level) (message text : String) :
    AgreeUntil (fun r => past r.cursor) (Precedes R tolerant)
      (record (σ := σ) level message (.ok text)) (record level message (.ok text))
      (fun _ => Precedes R tolerant) (fun _ => Precedes R tolerant) := by
  refine .of_agree (record_shifted cont level message text) fun r hr => ?_
  rw [record_eq]
  simpa only [cursor_recorded] using hr

theorem fail_until (fault : Fault) : AgreeUntil (fun r => past r.cursor) (Precedes R tolerant)
    (fail (σ := σ) (α := α) fault) (fail fault) (fun _ => Precedes R tolerant)
    (fun _ => Precedes R tolerant) :=
  .of_agree (fail_shifted cont fault) (fail_ensures fun _ h => h)

theorem streamStart_until : AgreeUntil (fun r => past r.cursor) (Precedes R tolerant)
    (streamStart (σ := σ)) streamStart (fun _ => Precedes R tolerant) (fun _ => Precedes R tolerant) := by
  apply (byte_until cont).bind
  intro first
  apply AgreeUntil.weaken (P := Precedes R tolerant) ?_ (fun _ _ h => h.1) (fun _ _ _ h => h)
  apply AgreeUntil.ite
  · intro _
    apply (byte_until cont).bind
    intro second
    apply AgreeUntil.ite
    · intro _
      apply AgreeUntil.bind (Q := fun _ => Precedes R tolerant)
      · exact .of_agree (fun _ _ h => .ok h.2) fun _ h => cont.law.back h
      · exact fun _ => record_until cont _ _ _
    · exact fun _ => .pure fun _ _ h => h.1
  · intro _
    apply AgreeUntil.ite
    · exact fun _ => fail_until cont _
    · exact fun _ => .pure fun _ _ h => h

/-- All reading is the same until the first reader is past the end. -/
theorem congruence_until : Congruence (σ := σ) (τ := τ) fun _ m n =>
    AgreeUntil (fun r => past r.cursor) (Precedes R tolerant) m n (fun _ => Precedes R tolerant)
      (fun _ => Precedes R tolerant) where
  pure _ := .pure fun _ _ h => h
  bind hm hf := hm.bind hf
  settings h := by
    have hget : Ensures (fun r : Reader σ => past r.cursor) getSettings (fun _ r => past r.cursor)
        (fun _ r => past r.cursor) := fun _ h => h
    refine ⟨hget.bind fun a => (h a a rfl rfl).stays, ?_⟩
    rintro r s ⟨htolerant, d, hR, rfl⟩
    exact (h r.settings { r.settings with tolerant } rfl rfl).agree ⟨htolerant, d, hR, rfl⟩
  context := .of_agree (keep_of_shifted fun _ _ _ => ⟨rfl, rfl, rfl⟩) fun _ h => h
  place := .of_agree (place_shifted cont) fun _ h => h
  push token := .of_agree (push_shifted token) fun _ h => h
  token := token_until cont
  fail := fail_until cont
  record _ := record_until cont _ _ _
  streamStart := streamStart_until cont
  exhausted := .of_agree (.throw fun _ _ h => h) (.throw fun _ h => h)
  decipher data := .of_agree (decipher_shifted data) (decipher_ensures (fun _ h => h) data)
  within := within_until

/-- The bounds on the nesting are those that the two readers weigh, and neither of them matters, so a
bound that covers both can stand for them. -/
theorem object_until {I : σ → Prop} {J : τ → Prop} {complete complete' : Prop}
    (wanes : Cursor.Wanes I complete) (wanes' : Cursor.Wanes J complete')
    (hR : ∀ {c d}, R c d → I c ∧ J d) :
    AgreeUntil (fun r => past r.cursor) (Precedes R tolerant) (object (σ := σ)) object
      (fun _ => Precedes R tolerant) (fun _ => Precedes R tolerant) := by
  refine ⟨stays_of_keep fun _ _ => over_likeness.object_keep cont.law.simulation, ?_⟩
  intro r s hrs
  obtain ⟨-, d, hcursor, hs⟩ := id hrs
  have hI : I r.cursor := (hR hcursor).1
  have hJ : J s.cursor := by
    rw [hs]
    exact (hR hcursor).2
  have hbound := objectWithin_eq_of_wanes wanes hI (Nat.le_max_left (2 * r.weight + 2) (2 * s.weight + 2))
  have hbound' := objectWithin_eq_of_wanes wanes' hJ
    (Nat.le_max_right (2 * r.weight + 2) (2 * s.weight + 2))
  rw [← hbound, ← hbound']
  exact ((congruence_until cont).objectWithin _).agree hrs

end Reading
end Reader

namespace Buffer

/-- Only a seek makes a buffer forget that it has come to the end. -/
theorem isOver_law : Cursor.Law (fun _ => False) IsOver where
  next := next_over
  back h := h.back
  seek h := h.elim
  forward tolerant := forward_ensures (refill_over tolerant) (fun _ h => h) (fun _ h => h)

theorem continuation (tolerant : Bool) : Continuation Precedes IsOver tolerant where
  next := by
    intro b c h
    have hnext := next_precedes h tolerant
    cases hr : Cursor.next true b with
    | error e b' =>
      rw [show next true b = .error e b' from hr] at hnext
      exact hnext
    | ok byte b' =>
      rw [show next true b = .ok byte b' from hr] at hnext
      cases byte with
      | none => exact hnext
      | some byte => exact hnext
  offset h := h.offset_eq.symm
  isEnded h := h.isEnded_eq
  ended h := h.2
  law := isOver_law

end Buffer
end PdfSyntax
