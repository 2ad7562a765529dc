import PdfSyntax.Proofs.Input.Blocks
import PdfSyntax.Proofs.Lexer.Scan

/-!
# Bytes still to come

A cursor that stands in front of bytes yields them one by one, and only after the last of them comes
the end. What the lexer makes of such a cursor is what it makes of the bytes. A buffer over a steady
source is such a cursor in every state, wherever it was sent before.
-/

set_option autoImplicit false

namespace PdfSyntax

variable {σ : Type}

/-- Cursors in front of bytes yield these, can give each of them back, and then come to the end. -/
structure Supplies [Cursor σ] (InFront : σ → Bytes → Prop) : Prop where
  left : ∀ {c bytes}, InFront c bytes → Cursor.left c = bytes.length
  next_cons : ∀ {c b bytes}, InFront c (b :: bytes) → ∀ tolerant, ∃ c',
    Cursor.next tolerant c = .ok (some b) c' ∧ InFront c' bytes ∧ Cursor.isEnded c' = false ∧
      InFront (Cursor.back c') (b :: bytes)
  next_nil : ∀ tolerant, Ensures (InFront · []) (Cursor.next tolerant)
    (fun byte c => byte = none ∧ tolerant = true ∧ InFront c [])
    (fun e c => tolerant = false ∧ e.kind = .input ∧ InFront c [])

namespace Supplies
variable [Cursor σ] {InFront : σ → Bytes → Prop} (supplies : Supplies InFront)
include supplies

section Next
variable {tolerant : Bool} {c c' : σ} {bytes : Bytes}

theorem of_next_error {e : Failure} (hc : InFront c bytes)
    (h : Cursor.next tolerant c = .error e c') :
    bytes = [] ∧ tolerant = false ∧ e.kind = .input ∧ InFront c' [] := by
  cases bytes with
  | nil =>
    have hnext := supplies.next_nil tolerant c hc
    rw [h] at hnext
    exact ⟨rfl, hnext⟩
  | cons b bytes =>
    obtain ⟨c'', hn, -⟩ := supplies.next_cons hc tolerant
    cases h.symm.trans hn

theorem of_next_none (hc : InFront c bytes) (h : Cursor.next tolerant c = .ok none c') :
    bytes = [] ∧ tolerant = true ∧ InFront c' [] := by
  cases bytes with
  | nil =>
    have hnext := supplies.next_nil tolerant c hc
    rw [h] at hnext
    exact ⟨rfl, hnext.2⟩
  | cons b bytes =>
    obtain ⟨c'', hn, -⟩ := supplies.next_cons hc tolerant
    cases h.symm.trans hn

theorem of_next_some {b : UInt8} (hc : InFront c bytes) (h : Cursor.next tolerant c = .ok (some b) c') :
    ∃ rest, bytes = b :: rest ∧ InFront c' rest ∧ Cursor.isEnded c' = false ∧
      InFront (Cursor.back c') (b :: rest) := by
  cases bytes with
  | nil =>
    have hnext := supplies.next_nil tolerant c hc
    rw [h] at hnext
    cases hnext.1
  | cons b' rest =>
    obtain ⟨c'', hn, hfront⟩ := supplies.next_cons hc tolerant
    cases h.symm.trans hn
    exact ⟨rest, rfl, hfront⟩

end Next

/-- What the lexer makes of the bytes, of which it takes one in each of its steps, until nothing comes. -/
theorem lex_ensures (tolerant : Bool) (state : Lexer.State) (bytes : Bytes) :
    Ensures (InFront · bytes) (Reader.lex tolerant state)
      (fun verdict c => ∃ rest, Lexer.scan true state bytes = some (verdict, rest) ∧ InFront c rest)
      (fun e c => tolerant = false ∧ e.kind = .input ∧ InFront c []) := by
  intro c hc
  induction state, c using Reader.lex_induction (σ := σ) tolerant generalizing bytes with
  | error hn hlex =>
    rw [hlex]
    exact (supplies.of_next_error hc hn).2
  | again hn hfill hlex ih =>
    obtain ⟨rfl, -, hc'⟩ := supplies.of_next_none hc hn
    rw [hlex, Lexer.scan_again hfill]
    exact ih [] hc'
  | finished hn hfill hlex =>
    obtain ⟨rfl, -, hc'⟩ := supplies.of_next_none hc hn
    rw [hlex]
    exact ⟨[], Lexer.scan_end hfill, hc'⟩
  | more hn hs hlex ih =>
    obtain ⟨rest, rfl, hc', hended, -⟩ := supplies.of_next_some hc hn
    rw [Lexer.State.take_of_not_ended hended] at hs
    rw [hlex, Lexer.scan_more hs]
    exact ih rest hc'
  | done hn hs hlex =>
    obtain ⟨rest, rfl, hc', hended, -⟩ := supplies.of_next_some hc hn
    rw [Lexer.State.take_of_not_ended hended] at hs
    rw [hlex]
    exact ⟨rest, Lexer.scan_done hs, hc'⟩
  | doneBefore hn hs hlex =>
    obtain ⟨rest, rfl, -, hended, hback⟩ := supplies.of_next_some hc hn
    rw [Lexer.State.take_of_not_ended hended] at hs
    rw [hlex]
    exact ⟨_, Lexer.scan_doneBefore hs, hback⟩

end Supplies

namespace Buffer

/-- A buffer over a medium, in front of the bytes after its place and those its source has left. -/
structure InFront (medium : Medium) (b : Buffer) (bytes : Bytes) : Prop extends Over medium b where
  bytes_eq : b.after ++ b.source.rest = bytes

namespace Over
variable {medium : Medium} {b : Buffer} (h : Over medium b)
include h

theorem inFront : InFront medium b (b.after ++ b.source.rest) :=
  { h with bytes_eq := rfl }

theorem inFront_afterRead : InFront medium b.afterRead b.source.rest := by
  refine { h.afterRead with bytes_eq := ?_ }
  have hrest := b.source.block_append_rest b.room
  simpa [Buffer.afterRead, Source.rest, Source.moveTo, Source.read, h.steady.unrefused] using hrest

end Over

section Next
variable {medium : Medium} {b : Buffer} {byte : UInt8} {bytes : Bytes}

/-- The buffer after its next byte, which is the first one after its place. -/
theorem InFront.next_of_after {first : UInt8} {after : Bytes} (h : InFront medium b (byte :: bytes))
    (ha : b.after = first :: after) :
    first = byte ∧ InFront medium { b with before := first :: b.before, after } bytes ∧
      b.isEnded = false ∧
      InFront medium (back { b with before := first :: b.before, after }) (byte :: bytes) := by
  have hbytes := h.bytes_eq
  rw [ha, List.cons_append, List.cons.injEq] at hbytes
  have hblock : { b with before := first :: b.before, after }.block = b.block := by
    simp [block, ha]
  have hback : back { b with before := first :: b.before, after } = b := by
    simp [back, ← ha]
  refine ⟨hbytes.1, { h.toOver.replaced hblock with bytes_eq := hbytes.2 },
    h.toOver.isEnded_eq_false (by simp [block, ha]), ?_⟩
  rw [hback]
  exact h

/-- The next byte is in the block, or it is the first one of the next block. -/
theorem next_cons (h : InFront medium b (byte :: bytes)) (tolerant : Bool) : ∃ b',
    next tolerant b = .ok (some byte) b' ∧ InFront medium b' bytes ∧ b'.isEnded = false ∧
      InFront medium b'.back (byte :: bytes) := by
  cases ha : b.after with
  | cons first after =>
    obtain ⟨rfl, hfront⟩ := h.next_of_after ha
    exact ⟨_, by simp [next, Buffer.take, ha], hfront⟩
  | nil =>
    have hrest : b.source.rest = byte :: bytes := by
      have hbytes := h.bytes_eq
      rwa [ha, List.nil_append] at hbytes
    obtain ⟨hrefill, hne⟩ := h.refill_of_rest_ne_nil (by rw [hrest]; simp) tolerant
    have hfront := h.inFront_afterRead
    rw [hrest] at hfront
    obtain ⟨first, after, hafter⟩ := List.exists_cons_of_ne_nil hne
    obtain ⟨rfl, hfront'⟩ := hfront.next_of_after hafter
    exact ⟨_, by simp [next, Buffer.take, ha, hrefill, hafter], hfront'⟩

theorem next_nil (medium : Medium) (tolerant : Bool) :
    Ensures (InFront medium · []) (next tolerant)
      (fun byte b => byte = none ∧ tolerant = true ∧ InFront medium b [])
      (fun e b => tolerant = false ∧ e.kind = .input ∧ InFront medium b []) := by
  intro b h
  obtain ⟨ha, hrest⟩ := List.append_eq_nil_iff.mp h.bytes_eq
  have hrefill := h.refill_of_rest_eq_nil hrest tolerant
  have hfront := h.inFront_afterRead
  rw [hrest] at hfront
  cases tolerant with
  | true =>
    have hnext : next true b = .ok none { b.afterRead with isEnded := true } := by
      simp [next, Buffer.take, ha, hrefill]
    rw [hnext]
    exact ⟨rfl, rfl, { hfront with ended := fun _ => h.afterRead_eq_nil hrest }⟩
  | false =>
    have hnext : next false b = .error (.unexpectedEnd b.stop) b.afterRead := by
      simp [next, Buffer.take, ha, hrefill]
    rw [hnext]
    exact ⟨rfl, rfl, hfront⟩

end Next

theorem supplies (medium : Medium) : Supplies (InFront medium) where
  left h := by
    rw [← h.bytes_eq, List.length_append]
    rfl
  next_cons h tolerant := next_cons h tolerant
  next_nil tolerant := next_nil medium tolerant

end Buffer
end PdfSyntax
