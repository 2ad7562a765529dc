import PdfSyntax.Proofs.Lexer.Literal
import PdfSyntax.Proofs.Lexer.Spans
import PdfSyntax.Proofs.Session.Ahead

/-!
# Literal strings of a session

Wherever a reader comes to an opening parenthesis, what it takes is told by the grammar of literal strings
and the bytes ahead: a string that is closed, the first wrong escape, or a string that the end of the
bytes cuts short.
-/

set_option autoImplicit false

namespace PdfSyntax

open Lexer (Closed Faulty Gap Unclosed)

namespace Reader

theorem finish_ne_str (state : Lexer.State) (value : Bytes) : state.finish ≠ .token (.str value) := by
  cases state <;> simp only [Lexer.State.finish, ne_eq, reduceCtorEq, not_false_eq_true,
    Lexer.Verdict.token.injEq]
  case word read =>
    unfold Lexer.Verdict.ofWord
    split <;> simp

theorem step_ne_cutShort (state : Lexer.State) (b : UInt8) (value : Bytes) :
    (state.step b).verdict? ≠ some (.cutShort value) := by
  cases state <;> simp only [Lexer.State.step, Lexer.State.start, Lexer.State.hexByte,
    Lexer.State.literalByte, Lexer.State.escapeByte, Lexer.State.octalByte, Lexer.State.nameByte, Lexer.State.hexPair_eq,
    Lexer.Verdict.keyword]
  all_goals repeat' split
  all_goals simp only [Lexer.Action.verdict?, ne_eq, reduceCtorEq, not_false_eq_true, Option.some.injEq]
  all_goals
    unfold Lexer.Verdict.ofWord
    split <;> simp

section Literal
variable {medium : Medium} {r : Reader Buffer} {gap bytes spelling value rest : Bytes}
variable (hp : r.pending = []) (hover : Buffer.Over medium r.cursor) (hgap : Gap gap)
variable (hahead : r.cursor.ahead = gap ++ Byte.leftParen :: bytes)
include hp hover hgap hahead

/-- What the reader takes, and where it stops, is told by the bytes after the parenthesis. -/
theorem token_literal : ∃ b,
    b.offset + b.ahead.length = r.cursor.offset + (gap.length + 1 + bytes.length) ∧
    match Lexer.scan r.settings.tolerant (.literal 0 []) bytes with
    | none => token r = .error (.unexpectedEnd b.offset) { r with cursor := b }
    | some (verdict, rest) =>
      b.ahead = rest ∧ token r = ({ r with cursor := b } : Reader Buffer).judged verdict ∧
        lex r.settings.tolerant .gap r.cursor = .ok verdict b := by
  obtain ⟨read, b, hadvances, hread⟩ := token_advances hp hover
  have hscan : Lexer.scan r.settings.tolerant .gap (gap ++ Byte.leftParen :: bytes) =
      Lexer.scan r.settings.tolerant (.literal 0 []) bytes := hgap.scan_opened rfl
  rw [hahead, hscan] at hread
  refine ⟨b, ?_, hread⟩
  have hlength := congrArg List.length hadvances.ahead_eq
  rw [hahead, List.length_append, List.length_append, List.length_cons] at hlength
  have hoffset := hadvances.offset_eq
  omega

theorem token_closed (h : Closed bytes spelling value rest) :
    ∃ b, token r = .ok (.str value) { r with cursor := b } ∧ b.isEnded = false ∧
      b.offset = r.cursor.offset + (gap.length + 1) + (spelling.length + 1) := by
  obtain ⟨b, hoffset, hread⟩ := token_literal hp hover hgap hahead
  rw [h.scan_eq] at hread
  obtain ⟨hrest, htoken, hlex⟩ := hread
  refine ⟨b, htoken, ?_, ?_⟩
  · rcases hover.isEnded_of_lex hlex with ⟨hended, -⟩ | ⟨-, state, hfinish⟩
    · exact hended
    · exact absurd hfinish (finish_ne_str state value)
  · rw [hrest, h.bytes_eq, List.length_append, List.length_cons] at hoffset
    omega

theorem token_faulty {bad : Bytes} {fault : Fault} (h : Faulty bytes spelling bad rest fault) :
    ∃ b, token r = .error (.malformed fault b.offset) { r with cursor := b } ∧
      b.offset = r.cursor.offset + (gap.length + 1) + (spelling.length + 1 + bad.length) := by
  obtain ⟨b, hoffset, hread⟩ := token_literal hp hover hgap hahead
  rw [h.scan_eq] at hread
  refine ⟨b, hread.2.1, ?_⟩
  rw [hread.1, h.bytes_eq, List.length_append, List.length_cons, List.length_append] at hoffset
  omega

theorem token_unclosed (htolerant : r.settings.tolerant = true) (h : Unclosed bytes value) :
    ∃ b, token r = .ok (.str value)
        (({ r with cursor := b } : Reader Buffer).recorded .warning cutShortMessage cutShortMessage) ∧
      b.isEnded = true ∧ b.ahead = [] ∧
      b.offset = r.cursor.offset + (gap.length + 1) + bytes.length := by
  obtain ⟨b, hoffset, hread⟩ := token_literal hp hover hgap hahead
  rw [h.scan_eq, htolerant, if_pos rfl] at hread
  obtain ⟨hrest, htoken, hlex⟩ := hread
  refine ⟨b, htoken, ?_, hrest, ?_⟩
  · rcases hover.isEnded_of_lex hlex with ⟨-, state, byte, hstep⟩ | ⟨hended, -⟩
    · exact absurd hstep (step_ne_cutShort state byte value)
    · exact hended
  · rw [hrest, List.length_nil] at hoffset
    omega

theorem token_cutShort (htolerant : r.settings.tolerant = false) (h : Unclosed bytes value) :
    ∃ b, token r = .error (.unexpectedEnd b.offset) { r with cursor := b } := by
  obtain ⟨b, -, hread⟩ := token_literal hp hover hgap hahead
  rw [h.scan_eq, htolerant, if_neg (by decide)] at hread
  exact ⟨b, hread⟩

theorem closed_of_token {b : Buffer} (hb : b.isEnded = false)
    (h : token r = .ok (.str value) { r with cursor := b }) : ∃ spelling rest,
      Closed bytes spelling value rest ∧
        b.offset = r.cursor.offset + (gap.length + 1) + (spelling.length + 1) := by
  rcases Lexer.literal_cases bytes with ⟨spelling, value', rest, hclosed⟩ |
    ⟨spelling, bad, rest, fault, hfaulty⟩ | ⟨value', hunclosed⟩
  · obtain ⟨b', htoken, -, hoffset⟩ := token_closed hp hover hgap hahead hclosed
    rw [h] at htoken
    cases htoken
    exact ⟨spelling, rest, hclosed, hoffset⟩
  · obtain ⟨b', htoken, -⟩ := token_faulty hp hover hgap hahead hfaulty
    rw [h] at htoken
    cases htoken
  · cases htolerant : r.settings.tolerant with
    | true =>
      obtain ⟨b', htoken, hended', -⟩ := token_unclosed hp hover hgap hahead htolerant hunclosed
      rw [h] at htoken
      have hcursor := congrArg Reader.cursor (EStateM.Result.ok.inj htoken).2
      rw [cursor_recorded] at hcursor
      have hcursor : b = b' := hcursor
      rw [← hcursor, hb] at hended'
      cases hended'
    | false =>
      obtain ⟨b', htoken⟩ := token_cutShort hp hover hgap hahead htolerant hunclosed
      rw [h] at htoken
      cases htoken

theorem faulty_of_token {b : Buffer} {fault : Fault} {stop : Int}
    (h : token r = .error (.malformed fault stop) { r with cursor := b }) : ∃ spelling bad rest,
      Faulty bytes spelling bad rest fault ∧
        stop = r.cursor.offset + (gap.length + 1) + (spelling.length + 1 + bad.length) := by
  rcases Lexer.literal_cases bytes with ⟨spelling, value', rest, hclosed⟩ |
    ⟨spelling, bad, rest, fault', hfaulty⟩ | ⟨value', hunclosed⟩
  · obtain ⟨b', htoken, -⟩ := token_closed hp hover hgap hahead hclosed
    rw [h] at htoken
    cases htoken
  · obtain ⟨b', htoken, hoffset⟩ := token_faulty hp hover hgap hahead hfaulty
    rw [h] at htoken
    cases htoken
    exact ⟨spelling, bad, rest, hfaulty, hoffset⟩
  · cases htolerant : r.settings.tolerant with
    | true =>
      obtain ⟨b', htoken, -⟩ := token_unclosed hp hover hgap hahead htolerant hunclosed
      rw [h] at htoken
      cases htoken
    | false =>
      obtain ⟨b', htoken⟩ := token_cutShort hp hover hgap hahead htolerant hunclosed
      rw [h] at htoken
      cases htoken

end Literal
end Reader

namespace Session

/-- What a reader makes of a literal string, wherever and in whatever state it comes to one, in terms of
the bytes after the opening parenthesis. It takes a string and stops before the end of the bytes exactly
where the string is closed; it fails exactly at the first wrong escape; and where neither comes and the
end is tolerated, it takes what there is, and tells that once. -/
theorem literal_strings (source : Source) (offset : Int) (blockSize : Nat) (settings : Settings)
    (decrypt : Decipherment) (quiet : Bool) (scope : Scope) (steps : List (Operation × Nat))
    (gap bytes : Bytes) (hsteady : source.IsSteady) (hsize : 0 < blockSize) (hgap : Gap gap) :
    let fresh : Reader Buffer := .new (.atOffset source offset blockSize) settings decrypt quiet
    let r := readerAfter (run scope steps fresh) fresh
    let start := r.cursor.offset + (gap.length + 1)
    r.pending = [] → r.cursor.ahead = gap ++ Byte.leftParen :: bytes →
    (∀ value stop, (∃ b, Reader.token r = .ok (.str value) { r with cursor := b } ∧
        b.isEnded = false ∧ b.offset = stop) ↔
      ∃ spelling rest, Closed bytes spelling value rest ∧ stop = start + (spelling.length + 1)) ∧
    (∀ fault stop, (∃ b, Reader.token r = .error (.malformed fault stop) { r with cursor := b }) ↔
      ∃ spelling bad rest, Faulty bytes spelling bad rest fault ∧
        stop = start + (spelling.length + 1 + bad.length)) ∧
    ((∀ spelling value rest, ¬ Closed bytes spelling value rest) →
      (∀ spelling bad rest fault, ¬ Faulty bytes spelling bad rest fault) →
      r.settings.tolerant = true → ∃ value b, Unclosed bytes value ∧
        Reader.token r = .ok (.str value) (({ r with cursor := b } : Reader Buffer).recorded .warning
          Reader.cutShortMessage Reader.cutShortMessage) ∧
        b.isEnded = true ∧ b.ahead = [] ∧ b.offset = start + bytes.length) := by
  intro fresh r start hp hahead
  have hover := over_after offset settings decrypt quiet scope steps hsteady hsize
  refine ⟨fun value stop => ⟨?_, ?_⟩, fun fault stop => ⟨?_, ?_⟩, fun hclosed hfaulty htolerant => ?_⟩
  · rintro ⟨b, htoken, hb, rfl⟩
    exact Reader.closed_of_token hp hover hgap hahead hb htoken
  · rintro ⟨spelling, rest, hclosed, rfl⟩
    exact Reader.token_closed hp hover hgap hahead hclosed
  · rintro ⟨b, htoken⟩
    exact Reader.faulty_of_token hp hover hgap hahead htoken
  · rintro ⟨spelling, bad, rest, hfaulty, rfl⟩
    obtain ⟨b, htoken, hoffset⟩ := Reader.token_faulty hp hover hgap hahead hfaulty
    exact ⟨b, hoffset ▸ htoken⟩
  · rcases Lexer.literal_cases bytes with ⟨spelling, value, rest, h⟩ | ⟨spelling, bad, rest, fault, h⟩ |
      ⟨value, hunclosed⟩
    · exact absurd h (hclosed spelling value rest)
    · exact absurd h (hfaulty spelling bad rest fault)
    · obtain ⟨b, hb⟩ := Reader.token_unclosed hp hover hgap hahead htolerant hunclosed
      exact ⟨value, b, hunclosed, hb⟩

/-- An octal escape right before a group, and an escaped line end right before the end of the string. -/
theorem literal_strings_of_escapes :
    let source : Source := ⟨Latin1.ascii "7 (\\1(a)\\\r)x", 0, true, 0, fun read _ => read % 2 + 1,
      fun _ _ => none⟩
    let fresh : Reader Buffer := .new (.atOffset source 5 3) .lenient Request.decrypt false
    let r := readerAfter (run .tokens [(.token, 1)] fresh) fresh
    let bytes := Latin1.ascii "\\1(a)\\\r)x"
    source.IsSteady ∧ 0 < 3 ∧ Gap [0x20] ∧ r.pending = [] ∧
    r.cursor.ahead = [0x20] ++ Byte.leftParen :: bytes ∧
    ∃ b, Reader.token r = .ok (.str [0x01, 0x28, 0x61, 0x29]) { r with cursor := b } ∧
      b.isEnded = false ∧ b.offset = 16 := by
  intro source fresh r bytes
  have hsteady : source.IsSteady := ⟨fun read _ _ => Nat.succ_pos (read % 2), fun _ _ => rfl⟩
  have hgap : Gap [0x20] := .white rfl .nil
  have hpending : r.pending = [] := List.isEmpty_iff.mp (by decide +kernel)
  have hahead : r.cursor.ahead = [0x20] ++ Byte.leftParen :: bytes := by decide +kernel
  have hletter : Lexer.Items 0 [0x61] [0x61] (Byte.rightParen :: Latin1.ascii "\\\r)x") :=
    .raw (by decide) (by decide) (by decide) .nil
  have hreturn : Lexer.Escape [0x0d] [] ([] ++ Latin1.ascii ")x") := .loneReturn (by decide)
  have hbreak : Lexer.Items 0 (Latin1.ascii "\\\r") [] (Latin1.ascii ")x") :=
    (Lexer.Items.escape hreturn .nil :)
  have hgroup : Lexer.Items 0 (Latin1.ascii "(a)\\\r") [0x28, 0x61, 0x29] (Latin1.ascii ")x") :=
    (Lexer.Items.group hletter hbreak :)
  have hoctal : Lexer.Escape [0x31] [0x01] (Latin1.ascii "(a)\\\r" ++ Latin1.ascii ")x") := by
    refine .octal (.one rfl) (.inr ⟨by decide, fun b hb => ?_⟩) (by decide)
    have hb : some (0x28 : UInt8) = some b := hb
    obtain rfl := Option.some.inj hb
    rfl
  have hitems : Lexer.Items 0 (Latin1.ascii "\\1(a)\\\r") [0x01, 0x28, 0x61, 0x29]
      (Latin1.ascii ")x") :=
    (Lexer.Items.escape hoctal hgroup :)
  have hstop : r.cursor.offset = 6 := by decide +kernel
  obtain ⟨hclosed, -⟩ := literal_strings source 5 3 .lenient Request.decrypt false .tokens [(.token, 1)]
    [0x20] bytes hsteady (by decide) hgap hpending hahead
  refine ⟨hsteady, by decide, hgap, hpending, hahead, (hclosed _ 16).mpr ⟨_, _, ⟨?_, hitems⟩, ?_⟩⟩
  · rfl
  · change (16 : Int) = r.cursor.offset + 2 + 8
    rw [hstop]
    rfl

end Session
end PdfSyntax
