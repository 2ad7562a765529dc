import PdfSyntax.Proofs.Lexer.Written
import PdfSyntax.Proofs.Session.Ahead

/-!
# Written strings in a session

Each form of a string is read back wherever it stands, whatever follows. The automatic form is never
longer than the other two, and it is the hexadecimal one where both are equally long.
-/

set_option autoImplicit false

namespace PdfSyntax

namespace Str

theorem length_auto (s : Bytes) : (auto s).length = min (literal s).length (hex s).length := by
  have hescapes := List.countP_le_length (p := needsEscape) (l := s)
  rw [auto]
  split
  · rw [length_literal, length_hex]
    omega
  · rw [length_literal, length_hex]
    omega

/-- The two forms are equally long where each byte costs an escape. -/
theorem length_literal_eq_length_hex_iff (s : Bytes) :
    (literal s).length = (hex s).length ↔ ∀ b ∈ s, needsEscape b = true := by
  rw [← List.countP_eq_length, length_literal, length_hex]
  omega

theorem literal_ne_hex (s : Bytes) : literal s ≠ hex s :=
  fun h => absurd (List.cons.inj h).1 (by decide)

theorem auto_eq_hex_iff (s : Bytes) : auto s = hex s ↔ (literal s).length = (hex s).length := by
  have hescapes := List.countP_le_length (p := needsEscape) (l := s)
  rw [length_literal, length_hex, auto]
  split
  · simp only [true_iff]
    omega
  · simp only [literal_ne_hex, false_iff]
    omega

end Str

namespace Session

/-- A string in any of its forms is read back as it is, wherever a reader comes to it and whatever
follows: exactly the form is taken, and nothing is told. The automatic form is as short as the shorter one
of the others, and hexadecimal exactly where these are equally long, which is where every byte needs an
escape. -/
theorem forms_read_back (source : Source) (offset : Int) (blockSize : Nat) (settings : Settings)
    (decrypt : Decipherment) (quiet : Bool) (scope : Scope) (steps : List (Operation × Nat))
    (form : Str.Form) (s rest : Bytes) (hsteady : source.IsSteady) (hsize : 0 < blockSize) :
    let fresh : Reader Buffer := .new (.atOffset source offset blockSize) settings decrypt quiet
    let r := readerAfter (run scope steps fresh) fresh
    r.pending = [] → r.cursor.ahead = Str.encode form s ++ rest →
    (∃ b, Reader.token r = .ok (.str s) { r with cursor := b } ∧ b.ahead = rest ∧
      b.offset = r.cursor.offset + (Str.encode form s).length) ∧
    (Str.encode .auto s).length =
      min (Str.encode .literal s).length (Str.encode .hex s).length ∧
    (Str.encode .auto s = Str.encode .hex s ↔
      (Str.encode .literal s).length = (Str.encode .hex s).length) ∧
    ((Str.encode .literal s).length = (Str.encode .hex s).length ↔
      ∀ b ∈ s, Str.needsEscape b = true) := by
  intro fresh r hp hahead
  have hover := over_after offset settings decrypt quiet scope steps hsteady hsize
  have hscan : Lexer.scan r.settings.tolerant .gap r.cursor.ahead = some (.token (.str s), rest) := by
    rw [hahead, Lexer.scan_encode]
  exact ⟨Reader.token_taken hp hover hahead hscan, Str.length_auto s, Str.auto_eq_hex_iff s,
    Str.length_literal_eq_length_hex_iff s⟩

/-- Raw line ends, a digit after a backslash and parentheses that do not match, in short blocks. -/
theorem forms_read_back_of_specials :
    let s := Latin1.ascii ")(\r\n\\1"
    let source : Source := ⟨Latin1.ascii "7" ++ Str.encode .literal s ++ Latin1.ascii "1", 0, true, 0,
      fun read _ => read % 2 + 1, fun _ _ => none⟩
    let fresh : Reader Buffer := .new (.atOffset source 5 3) .strict Request.decrypt false
    let r := readerAfter (run .tokens [(.token, 1)] fresh) fresh
    source.IsSteady ∧ 0 < 3 ∧ r.pending = [] ∧
    r.cursor.ahead = Str.encode .literal s ++ Latin1.ascii "1" ∧
    (∃ b, Reader.token r = .ok (.str s) { r with cursor := b } ∧ b.ahead = Latin1.ascii "1" ∧
      b.offset = 17) ∧ (Str.encode .auto s).length = 11 := by
  intro s source fresh r
  have hsteady : source.IsSteady := ⟨fun read _ _ => Nat.succ_pos (read % 2), fun _ _ => rfl⟩
  have hpending : r.pending = [] := List.isEmpty_iff.mp (by decide +kernel)
  have hahead : r.cursor.ahead = Str.encode .literal s ++ Latin1.ascii "1" := by decide +kernel
  have hplace : r.cursor.offset = 6 := by decide +kernel
  obtain ⟨⟨b, htoken, hrest, hstop⟩, hlength, -⟩ := forms_read_back source 5 3 .strict Request.decrypt
    false .tokens [(.token, 1)] .literal s _ hsteady (by decide) hpending hahead
  refine ⟨hsteady, by decide, hpending, hahead, ⟨b, htoken, hrest, ?_⟩, hlength⟩
  rw [hstop, hplace]
  rfl

end Session
end PdfSyntax
