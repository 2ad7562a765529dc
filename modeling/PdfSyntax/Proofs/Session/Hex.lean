import PdfSyntax.Proofs.Lexer.Hex
import PdfSyntax.Proofs.Lexer.Spans
import PdfSyntax.Proofs.Session.Ahead

/-!
# Hexadecimal strings of a session

Wherever a reader comes to an opening angle bracket that is not doubled, it takes a string where the bytes
up to the first closing bracket are pairs of digits with white bytes among them. Everywhere else it fails,
also at the end of the bytes, whether that is tolerated or not.
-/

set_option autoImplicit false

namespace PdfSyntax

open Lexer (Gap HexClosed)

namespace Reader
variable {medium : Medium} {r : Reader Buffer} {gap bytes body value rest : Bytes}
variable (hp : r.pending = []) (hover : Buffer.Over medium r.cursor) (hgap : Gap gap)
variable (hahead : r.cursor.ahead = gap ++ Byte.less :: bytes) (hsingle : bytes.head? ≠ some Byte.less)

include hgap hahead hsingle in
theorem scan_ahead_hex : Lexer.scan r.settings.tolerant .gap r.cursor.ahead =
    Lexer.scan r.settings.tolerant (.hex []) bytes := by
  have hopen : Lexer.State.gap.step Byte.less = .more .less := rfl
  rw [hahead, hgap.scan_opened hopen, Lexer.scan_less hsingle]

include hp hover hgap hahead hsingle

theorem token_hex (h : HexClosed bytes body value rest) : ∃ b,
    token r = .ok (.str value) { r with cursor := b } ∧ b.ahead = rest ∧
      b.offset = r.cursor.offset + (gap.length + 1) + (body.length + 1) := by
  have hsplit : r.cursor.ahead = (gap ++ Byte.less :: (body ++ [Byte.greater])) ++ rest := by
    rw [hahead, h.bytes_eq]
    simp
  have hscan : Lexer.scan r.settings.tolerant .gap r.cursor.ahead =
      some (.token (.str value), rest) := by
    rw [scan_ahead_hex hgap hahead hsingle, h.scan_eq]
    rfl
  obtain ⟨b, htoken, hrest, hoffset⟩ := token_taken hp hover hsplit hscan
  refine ⟨b, htoken, hrest, ?_⟩
  simp only [List.length_append, List.length_cons, List.length_nil] at hoffset
  omega

theorem token_hex_refused (h : ∀ body value rest, ¬ HexClosed bytes body value rest) : ∃ e b,
    token r = .error e { r with cursor := b } ∧ e.kind = .input := by
  refine token_refused hp hover fun verdict rest hscan => ?_
  rw [scan_ahead_hex hgap hahead hsingle] at hscan
  rcases Lexer.closes_of_scan_hex.1 [] hscan with hfault | hcloses
  · exact hfault
  · obtain ⟨body, value, hclosed⟩ := hcloses.closed
    exact absurd hclosed (h body value rest)

end Reader

namespace Session

/-- What a reader makes of a hexadecimal string, wherever and in whatever state it comes to one. Where the
bytes up to the first closing bracket are pairs of digits among white bytes, it takes the bytes that they
spell, and stops right after that bracket; otherwise it fails. -/
theorem hex_strings (source : Source) (offset : Int) (blockSize : Nat) (settings : Settings)
    (decrypt : Decipherment) (quiet : Bool) (scope : Scope) (steps : List (Operation × Nat))
    (gap bytes : Bytes) (hsteady : source.IsSteady) (hsize : 0 < blockSize) (hgap : Gap gap) :
    let fresh : Reader Buffer := .new (.atOffset source offset blockSize) settings decrypt quiet
    let r := readerAfter (run scope steps fresh) fresh
    let start := r.cursor.offset + (gap.length + 1)
    r.pending = [] → r.cursor.ahead = gap ++ Byte.less :: bytes → bytes.head? ≠ some Byte.less →
    (∀ body value rest, HexClosed bytes body value rest →
      ∃ b, Reader.token r = .ok (.str value) { r with cursor := b } ∧ b.ahead = rest ∧
        b.offset = start + (body.length + 1)) ∧
    ((∀ body value rest, ¬ HexClosed bytes body value rest) →
      ∃ e b, Reader.token r = .error e { r with cursor := b } ∧ e.kind = .input) := by
  intro fresh r start hp hahead hsingle
  have hover := over_after offset settings decrypt quiet scope steps hsteady hsize
  exact ⟨fun body value rest h => Reader.token_hex hp hover hgap hahead hsingle h,
    fun h => Reader.token_hex_refused hp hover hgap hahead hsingle h⟩

/-- White bytes within a pair and right before the closing bracket, and an end that is tolerated but
leaves no string. -/
theorem hex_strings_with_white :
    let source (text : String) : Source := ⟨Latin1.ascii text, 0, true, 0, fun read _ => read % 2 + 1,
      fun _ _ => none⟩
    let fresh (text : String) : Reader Buffer :=
      .new (.atOffset (source text) 5 3) .lenient Request.decrypt false
    let r (text : String) := readerAfter (run .tokens [(.token, 1)] (fresh text)) (fresh text)
    let closed := "7 <6 1\r4B >x"
    let unclosed := "7 <61 "
    (∀ text, (source text).IsSteady) ∧ 0 < 3 ∧ Gap [0x20] ∧ (r closed).pending = [] ∧
    (r unclosed).pending = [] ∧
    (r closed).cursor.ahead = [0x20] ++ Byte.less :: Latin1.ascii "6 1\r4B >x" ∧
    (r unclosed).cursor.ahead = [0x20] ++ Byte.less :: Latin1.ascii "61 " ∧
    (Latin1.ascii "6 1\r4B >x").head? ≠ some Byte.less ∧
    (Latin1.ascii "61 ").head? ≠ some Byte.less ∧
    HexClosed (Latin1.ascii "6 1\r4B >x") (Latin1.ascii "6 1\r4B ") [0x61, 0x4b] [0x78] ∧
    (∀ body value rest, ¬ HexClosed (Latin1.ascii "61 ") body value rest) ∧
    (∃ b, Reader.token (r closed) = .ok (.str [0x61, 0x4b]) { r closed with cursor := b } ∧
      b.ahead = [0x78] ∧ b.offset = 16) ∧
    ∃ e b, Reader.token (r unclosed) = .error e { r unclosed with cursor := b } ∧ e.kind = .input := by
  intro source fresh r closed unclosed
  have hsteady : ∀ text, (source text).IsSteady :=
    fun text => ⟨fun read _ _ => Nat.succ_pos (read % 2), fun _ _ => rfl⟩
  have hgap : Gap [0x20] := .white rfl .nil
  have hpending : (r closed).pending = [] := List.isEmpty_iff.mp (by decide +kernel)
  have hpending' : (r unclosed).pending = [] := List.isEmpty_iff.mp (by decide +kernel)
  have hahead : (r closed).cursor.ahead = [0x20] ++ Byte.less :: Latin1.ascii "6 1\r4B >x" := by
    decide +kernel
  have hahead' : (r unclosed).cursor.ahead = [0x20] ++ Byte.less :: Latin1.ascii "61 " := by
    decide +kernel
  have hclosed : HexClosed (Latin1.ascii "6 1\r4B >x") (Latin1.ascii "6 1\r4B ") [0x61, 0x4b] [0x78] :=
    ⟨rfl, by decide, .pair rfl (.pair rfl .nil)⟩
  have hunclosed : ∀ body value rest, ¬ HexClosed (Latin1.ascii "61 ") body value rest := by
    intro body value rest h
    have hmem : Byte.greater ∈ Latin1.ascii "61 " := by
      rw [h.bytes_eq]
      simp
    exact absurd hmem (by decide)
  have hplace : (r closed).cursor.offset = 6 := by decide +kernel
  obtain ⟨hread, -⟩ := hex_strings (source closed) 5 3 .lenient Request.decrypt false .tokens
    [(.token, 1)] [0x20] _ (hsteady closed) (by decide) hgap hpending hahead (by decide)
  obtain ⟨-, hfail⟩ := hex_strings (source unclosed) 5 3 .lenient Request.decrypt false .tokens
    [(.token, 1)] [0x20] _ (hsteady unclosed) (by decide) hgap hpending' hahead' (by decide)
  obtain ⟨b, htoken, hrest, hstop⟩ := hread _ _ _ hclosed
  refine ⟨hsteady, by decide, hgap, hpending, hpending', hahead, hahead', by decide, by decide, hclosed,
    hunclosed, ⟨b, htoken, hrest, ?_⟩, hfail hunclosed⟩
  rw [hstop]
  change (r closed).cursor.offset + 2 + 8 = 16
  rw [hplace]
  rfl

end Session
end PdfSyntax
