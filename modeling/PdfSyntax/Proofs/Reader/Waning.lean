import PdfSyntax.Proofs.Input.Refill
import PdfSyntax.Proofs.Input.Supply

/-!
# Less and less is left

Whatever a source yields or refuses, each byte that a cursor yields leaves less to come, giving that byte
back restores no more than there was, and nothing else leaves more. A cursor is complete if the end comes
only where nothing is left and nothing is refused on the way. What the lexer takes leaves less as well,
unless it is the end.
-/

set_option autoImplicit false

namespace PdfSyntax

variable {σ : Type}

/-- Cursors of which each byte leaves less, and that fail for the input only. -/
structure Cursor.Wanes [Cursor σ] (I : σ → Prop) (complete : Prop) : Prop where
  next : ∀ tolerant {c}, I c → match Cursor.next tolerant c with
    | .ok (some _) c' => I c' ∧ I (Cursor.back c') ∧ Cursor.left (Cursor.back c') ≤ Cursor.left c ∧
      (complete → Cursor.isEnded c' = false)
    | .ok none c' => I c' ∧ Cursor.left c' ≤ Cursor.left c ∧ (complete → Cursor.left c' = 0)
    | .error e c' => I c' ∧ Cursor.left c' ≤ Cursor.left c ∧ e.kind = .input ∧
      (complete → tolerant = false)

namespace Cursor.Wanes
variable [Cursor σ] {I : σ → Prop} {complete : Prop} (wanes : Wanes I complete)
include wanes

omit wanes in
/-- As long as no end was met, what comes to a byte is not the end. -/
theorem ne_end_of_take {state : Lexer.State} {b : UInt8} {verdict : Lexer.Verdict} {c : σ}
    (hended : complete → Cursor.isEnded c = false)
    (h : (state.take (Cursor.isEnded c) b).verdict? = some verdict) (hcomplete : complete) :
    verdict ≠ .token .endOfInput := by
  rintro rfl
  rw [Lexer.State.take_of_not_ended (hended hcomplete)] at h
  exact Lexer.isLexeme_of_step h

/-- The lexer leaves no more than there was, along its steps. -/
theorem lex (tolerant : Bool) (state : Lexer.State) (n : Nat) :
    Ensures (fun c => I c ∧ Cursor.left c ≤ n) (Reader.lex tolerant state)
      (fun verdict c => I c ∧ Cursor.left c ≤ n ∧
        (verdict = .token .endOfInput → complete → Cursor.left c = 0))
      (fun e c => I c ∧ e.kind = .input ∧ Cursor.left c ≤ n ∧ (complete → tolerant = false)) := by
  refine Reader.lex_keeps ?next ?finished ?done ?doneBefore state
  case next =>
    rintro c ⟨hc, hle⟩
    have hnext := wanes.next tolerant hc
    cases hr : Cursor.next tolerant c with
    | error e c' =>
      rw [hr] at hnext
      obtain ⟨hc', hle', hkind, htolerant⟩ := hnext
      exact ⟨hc', hkind, by omega, htolerant⟩
    | ok byte c' =>
      rw [hr] at hnext
      cases byte with
      | none => exact ⟨hnext.1, Nat.le_trans hnext.2.1 hle⟩
      | some b => exact ⟨hnext.1, Nat.le_trans (Nat.le_of_lt (Cursor.left_next hr)) hle⟩
  case finished =>
    rintro state c c' verdict ⟨hc, hle⟩ hr -
    have hnext := wanes.next tolerant hc
    rw [hr] at hnext
    obtain ⟨hc', hle', hzero⟩ := hnext
    exact ⟨hc', by omega, fun _ => hzero⟩
  case done =>
    rintro state c b c' verdict ⟨hc, hle⟩ hr hs
    have hnext := wanes.next tolerant hc
    have hlt := Cursor.left_next hr
    rw [hr] at hnext
    obtain ⟨hc', -, -, hended⟩ := hnext
    exact ⟨hc', by omega, fun hend hcomplete =>
      absurd hend (ne_end_of_take hended (by rw [hs]; rfl) hcomplete)⟩
  case doneBefore =>
    rintro state c b c' verdict ⟨hc, hle⟩ hr hs
    have hnext := wanes.next tolerant hc
    rw [hr] at hnext
    obtain ⟨-, hback, hle', hended⟩ := hnext
    exact ⟨hback, by omega, fun hend hcomplete =>
      absurd hend (ne_end_of_take hended (by rw [hs]; rfl) hcomplete)⟩

/-- In front of a token nothing is given back, so any other verdict than the end leaves less. -/
theorem lex_gap (tolerant : Bool) {c : σ} (hc : I c) : match Reader.lex tolerant .gap c with
    | .ok verdict c' => I c' ∧ Cursor.left c' ≤ Cursor.left c ∧
      (verdict = .token .endOfInput → complete → Cursor.left c' = 0) ∧
      (verdict ≠ .token .endOfInput → Cursor.left c' < Cursor.left c)
    | .error e c' => I c' ∧ Cursor.left c' ≤ Cursor.left c ∧ e.kind = .input ∧
      (complete → tolerant = false) := by
  have hnext := wanes.next tolerant hc
  cases hr : Cursor.next tolerant c with
  | error e c' =>
    rw [hr] at hnext
    rw [Reader.lex_of_error hr]
    exact hnext
  | ok byte c' =>
    rw [hr] at hnext
    cases byte with
    | none =>
      obtain ⟨hc', hle, hzero⟩ := hnext
      have hfill : Lexer.State.gap.fill.verdict? = some (.token .endOfInput) := rfl
      rw [Reader.lex_of_end hr hfill]
      exact ⟨hc', hle, fun _ => hzero, fun hne => absurd rfl hne⟩
    | some b =>
      have hlt := Cursor.left_next hr
      obtain ⟨hc', -, -, hended⟩ := hnext
      cases hs : Lexer.State.gap.take (Cursor.isEnded c') b with
      | more state =>
        have hlex := wanes.lex tolerant state (Cursor.left c') c' ⟨hc', Nat.le_refl _⟩
        rw [Reader.lex_of_more hr hs]
        generalize Reader.lex tolerant state c' = result at hlex ⊢
        cases result with
        | ok verdict c'' =>
          obtain ⟨hc'', hle, hzero⟩ := hlex
          exact ⟨hc'', by omega, hzero, fun _ => by omega⟩
        | error e c'' =>
          obtain ⟨hc'', hkind, hle, htolerant⟩ := hlex
          exact ⟨hc'', by omega, hkind, htolerant⟩
      | done verdict =>
        rw [Reader.lex_of_done hr hs]
        exact ⟨hc', by omega, fun hend hcomplete =>
          absurd hend (ne_end_of_take hended (by rw [hs]; rfl) hcomplete), fun _ => hlt⟩
      | doneBefore verdict => exact absurd hs (Lexer.gap_take_ne_doneBefore _ b)

end Cursor.Wanes

/-- Cursors in front of bytes are complete: the end comes after these. -/
theorem Supplies.wanes [Cursor σ] {InFront : σ → Bytes → Prop} (supplies : Supplies InFront) :
    Cursor.Wanes (fun c => ∃ bytes, InFront c bytes) True where
  next := by
    rintro tolerant c ⟨bytes, hc⟩
    have hleft := supplies.left hc
    cases hr : Cursor.next tolerant c with
    | error e c' =>
      obtain ⟨rfl, htolerant, hkind, hc'⟩ := supplies.of_next_error hc hr
      have hleft' := supplies.left hc'
      exact ⟨⟨[], hc'⟩, by omega, hkind, fun _ => htolerant⟩
    | ok byte c' =>
      cases byte with
      | none =>
        obtain ⟨rfl, -, hc'⟩ := supplies.of_next_none hc hr
        have hleft' := supplies.left hc'
        exact ⟨⟨[], hc'⟩, by omega, fun _ => hleft'⟩
      | some b =>
        obtain ⟨rest, rfl, hc', hended, hback⟩ := supplies.of_next_some hc hr
        have hleft' := supplies.left hback
        exact ⟨⟨rest, hc'⟩, ⟨b :: rest, hback⟩, by omega, fun _ => hended⟩

namespace Buffer

theorem left_emptied_le (b : Buffer) : b.emptied.left ≤ b.left :=
  Nat.add_le_add_right (Nat.zero_le _) _

theorem left_afterRead_le {b : Buffer} (h : b.refusal? = none) : b.afterRead.left ≤ b.left := by
  rw [left, ← List.length_append, afterRead_append_rest h]
  exact Nat.le_add_left _ _

/-- Of the source nothing is asked: it may refuse, or yield nothing although there is something. -/
theorem wanes : Cursor.Wanes (fun b : Buffer => 0 < b.blockSize) False where
  next tolerant b hsize := by
    have hnext : Nexts tolerant b (Cursor.next tolerant b) := next_nexts hsize tolerant
    generalize Cursor.next tolerant b = result at hnext ⊢
    have hback : ∀ (b' : Buffer) {byte after}, b'.after = byte :: after → 0 < b'.blockSize →
        b'.left ≤ b.left → 0 < (b'.passed byte after).back.blockSize ∧
          (b'.passed byte after).back.left ≤ b.left ∧
          (False → (b'.passed byte after).isEnded = false) := by
      intro b' byte after hafter hsize' hle
      rw [back_passed hafter]
      exact ⟨hsize', hle, False.elim⟩
    cases hnext with
    | inBlock hafter => exact ⟨hsize, hback b hafter hsize (Nat.le_refl _)⟩
    | refused _ _ => exact ⟨hsize, b.left_emptied_le, rfl, False.elim⟩
    | ended _ _ _ _ => exact ⟨hsize, b.left_emptied_le, False.elim⟩
    | cutShort _ _ _ _ => exact ⟨hsize, b.left_emptied_le, rfl, False.elim⟩
    | refilled _ hrefusal hblock =>
      exact ⟨hsize, hback b.afterRead hblock hsize (left_afterRead_le hrefusal)⟩

theorem forward_kind (tolerant : Bool) (target : Int) :
    Ensures (fun b : Buffer => 0 < b.blockSize) (forward tolerant target) (fun _ b => 0 < b.blockSize)
      (fun e _ => e.kind = .input) := by
  apply forward_ensures
  · intro b hsize
    have hrefill := refill_refills hsize tolerant
    generalize refill tolerant b = result at hrefill ⊢
    cases hrefill with
    | refused _ => rfl
    | ended _ _ _ => exact hsize
    | cutShort _ _ _ => rfl
    | refilled _ _ => exact hsize
  · exact fun _ h => h
  · exact fun _ _ => rfl

end Buffer
end PdfSyntax
