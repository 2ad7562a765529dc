import PdfSyntax.Obj.Format
import PdfSyntax.Proofs.Decimal.Notation
import PdfSyntax.Proofs.Lexer.Spans
import PdfSyntax.Proofs.Lexer.Written
import PdfSyntax.Proofs.Session.Ahead

/-!
# Reals of a session

A finite real is written with digits on both sides of a point and without an exponent, which stand for the
same number as its shortest decimal does in messages. A reader that comes to the text takes the same bits.
-/

set_option autoImplicit false

namespace PdfSyntax

open Lexer (Gap Terminated)

namespace Lexer
variable {tolerant : Bool} {state : State} {verdict : Verdict} {bytes rest : Bytes}

/-- Where a token is over before the bytes are, it makes no difference whether their end is tolerated. -/
theorem scan_of_rest_ne_nil (h : scan true state bytes = some (verdict, rest)) (hrest : rest ≠ []) :
    scan tolerant state bytes = some (verdict, rest) := by
  induction bytes generalizing state with
  | nil =>
    cases h
    exact absurd rfl hrest
  | cons b bytes ih =>
    cases hstep : state.step b with
    | more state' =>
      rw [scan_more hstep] at h ⊢
      exact ih h
    | done verdict' =>
      rw [scan_done hstep] at h ⊢
      exact h
    | doneBefore verdict' =>
      rw [scan_doneBefore hstep] at h ⊢
      exact h

theorem Yields.scan_eq {token : Obj} (h : Yields bytes token) (hrest : Terminated rest)
    (hend : tolerant = true ∨ rest ≠ []) :
    scan tolerant .gap (bytes ++ rest) = some (.token token, rest) := by
  rcases hend with rfl | hne
  · exact h rest hrest
  · exact scan_of_rest_ne_nil (h rest hrest) hne

end Lexer

namespace Reader
variable {medium : Medium} {r : Reader Buffer} {gap bytes rest : Bytes} {lexeme : Obj}

/-- A reader takes a token that is spelled ahead, behind a gap. -/
theorem token_yielded (hp : r.pending = []) (hover : Buffer.Over medium r.cursor) (hgap : Gap gap)
    (hahead : r.cursor.ahead = gap ++ (bytes ++ rest)) (hyields : Lexer.Yields bytes lexeme)
    (hrest : Terminated rest) (hend : r.settings.tolerant = true ∨ rest ≠ []) :
    ∃ b, token r = .ok lexeme { r with cursor := b } ∧ b.ahead = rest ∧
      b.offset = r.cursor.offset + (gap ++ bytes).length := by
  have hsplit : r.cursor.ahead = (gap ++ bytes) ++ rest := by rw [hahead, List.append_assoc]
  refine token_taken hp hover hsplit ?_
  rw [hahead, hgap.scan_eq, hyields.scan_eq hrest hend]

end Reader

namespace Session

/-- A finite real is written as its sign, a minus exactly if the sign bit is set, and digits on both sides
of a point. The text stands for the same number as the shortest decimal. As a word it is a real with the
same bits, and so it is taken wherever a reader comes to it. -/
theorem reals_written (x : Binary64) (h : x.isFinite = true) :
    ∃ before after : List Char, before ≠ [] ∧ after ≠ [] ∧ (∀ c ∈ before ++ after, c.isDigit = true) ∧
      let text := (if x.bits.toNat.testBit 63 then ['-'] else []) ++ (before ++ '.' :: after)
      let bytes := Latin1.ascii (String.ofList text)
      (Obj.real x).format = .ok bytes ∧
      (∃ number, Notation.number? text = some number ∧
        Notation.number? x.display.toList = some number) ∧
      Word.read bytes = .real x ∧
      ∀ (source : Source) (offset : Int) (blockSize : Nat) (settings : Settings)
        (decrypt : Decipherment) (quiet : Bool) (scope : Scope) (steps : List (Operation × Nat))
        (gap rest : Bytes), source.IsSteady → 0 < blockSize → Gap gap → Terminated rest →
        let fresh : Reader Buffer := .new (.atOffset source offset blockSize) settings decrypt quiet
        let r := readerAfter (run scope steps fresh) fresh
        r.pending = [] → r.cursor.ahead = gap ++ (bytes ++ rest) →
        (r.settings.tolerant = true ∨ rest ≠ []) →
        ∃ b, Reader.token r = .ok (.real x) { r with cursor := b } ∧ b.ahead = rest ∧
          b.offset = r.cursor.offset + (gap ++ bytes).length := by
  obtain ⟨before, after, hbefore, hafter, hdigit, hwritten, hnumber⟩ := Binary64.exists_places h
  obtain ⟨text, htext, hmeans⟩ := Word.means_positional h
  obtain ⟨text', htext', hyields⟩ := Lexer.yields_positional h
  obtain rfl := Option.some.inj (hwritten.symm.trans htext)
  obtain rfl := Option.some.inj (hwritten.symm.trans htext')
  rw [Binary64.signText, x.isNegative_eq_testBit] at hwritten hnumber hmeans hyields
  refine ⟨before, after, hbefore, hafter, hdigit, ?_, ⟨_, hnumber, Binary64.number?_display h⟩,
    hmeans.read_eq, ?_⟩
  · rw [Obj.format, hwritten]
  · intro source offset blockSize settings decrypt quiet scope steps gap rest hsteady hsize hgap hrest
      fresh r hp hahead hend
    have hover := over_after offset settings decrypt quiet scope steps hsteady hsize
    exact Reader.token_yielded hp hover hgap hahead hyields hrest hend

/-- The smallest magnitude with a minus sign, which has an exponent in messages. -/
theorem reals_written_of_smallest :
    let x : Binary64 := ⟨0x8000000000000001⟩
    x.isFinite = true ∧ x.display = "-5e-324" ∧
    ∃ text, (Obj.real x).format = .ok (Latin1.ascii (String.ofList text)) ∧ text.head? = some '-' ∧
      Notation.number? text = Notation.number? "-5e-324".toList ∧
      Word.read (Latin1.ascii (String.ofList text)) = .real x ∧
      ∃ after, Reader.token (File.reader (Latin1.ascii (String.ofList text) ++ [0x20]) 1 .strict) =
        .ok (.real x) after := by
  intro x
  have hfinite : x.isFinite = true := by decide
  have hsign : x.bits.toNat.testBit 63 = true := by decide
  have hdisplay : x.display = "-5e-324" := by decide +kernel
  obtain ⟨before, after, -, -, -, hformat, ⟨number, hnumber, hshown⟩, hread, htoken⟩ :=
    reals_written x hfinite
  refine ⟨hfinite, hdisplay, _, hformat, ?_, ?_, hread, ?_⟩
  · rw [if_pos hsign]
    rfl
  · rw [hnumber, ← hshown, hdisplay]
  · have hrest : Terminated [0x20] := fun b hb => by
      cases hb
      rfl
    obtain ⟨b, htoken, -⟩ := htoken (.ofData _) 0 1 .strict Request.decrypt false .objects [] [] [0x20]
      (Source.isSteady_ofData _) (by omega) .nil hrest rfl (File.ahead_reader ..) (.inr (by decide))
    exact ⟨_, htoken⟩

end Session
end PdfSyntax
