import PdfSyntax.Proofs.Lexer.Name
import PdfSyntax.Proofs.Lexer.Spans
import PdfSyntax.Proofs.Session.Ahead

/-!
# Names of a session

Wherever a reader comes to a slash, it takes the name that the bytes after it spell, whichever of its
spellings this is, and leaves what terminates the name. It takes nothing else, and fails at a number sign
that begins no escape.
-/

set_option autoImplicit false

namespace PdfSyntax

open Lexer (BeginsEscape Gap NameSpelling Terminated)

namespace Reader
variable {medium : Medium} {r : Reader Buffer} {gap bytes spelling raw rest : Bytes}
variable (hp : r.pending = []) (hover : Buffer.Over medium r.cursor) (hgap : Gap gap)
variable (hahead : r.cursor.ahead = gap ++ Byte.slash :: bytes)

include hgap hahead in
theorem scan_ahead_name : Lexer.scan r.settings.tolerant .gap r.cursor.ahead =
    Lexer.scan r.settings.tolerant (.name []) bytes := by
  rw [hahead]
  exact hgap.scan_opened rfl

include hp hover hgap hahead

theorem token_name (hbytes : bytes = spelling ++ rest) (hspelling : NameSpelling spelling raw)
    (hrest : Terminated rest) (hend : rest = [] → r.settings.tolerant = true) : ∃ b,
    token r = .ok (.name (Latin1.decode raw)) { r with cursor := b } ∧ b.ahead = rest ∧
      b.offset = r.cursor.offset + (gap.length + 1) + spelling.length := by
  have hsplit : r.cursor.ahead = (gap ++ Byte.slash :: spelling) ++ rest := by
    rw [hahead, hbytes]
    simp
  have hscan : Lexer.scan r.settings.tolerant .gap r.cursor.ahead =
      some (.token (.name (Latin1.decode raw)), rest) := by
    rw [scan_ahead_name hgap hahead, hbytes, hspelling.scan_eq, Lexer.scan_name_end hrest hend,
      List.append_nil, List.reverse_reverse]
  obtain ⟨b, htoken, hleft, hoffset⟩ := token_taken hp hover hsplit hscan
  refine ⟨b, htoken, hleft, ?_⟩
  rw [List.length_append, List.length_cons] at hoffset
  omega

theorem spelling_of_token {lexeme : Obj} {after : Reader Buffer} (h : token r = .ok lexeme after) :
    ∃ spelling raw, bytes = spelling ++ after.cursor.ahead ∧ NameSpelling spelling raw ∧
      Terminated after.cursor.ahead ∧ lexeme = .name (Latin1.decode raw) := by
  obtain ⟨verdict, hscan, htaken⟩ := scan_of_token hp hover h
  rw [scan_ahead_name hgap hahead] at hscan
  obtain ⟨spelling, raw, rest, rfl, hspelling, hrest⟩ := Lexer.name_cases bytes
  rw [hspelling.scan_eq, List.append_nil] at hscan
  rcases hrest with hrest | ⟨tail, rfl, htail⟩
  · have hend : rest = [] → r.settings.tolerant = true := by
      rintro rfl
      cases htolerant : r.settings.tolerant with
      | true => rfl
      | false =>
        rw [htolerant] at hscan
        cases hscan
    rw [Lexer.scan_name_end hrest hend, List.reverse_reverse] at hscan
    obtain ⟨rfl, hleft⟩ := Prod.mk.inj (Option.some.inj hscan)
    rw [← hleft]
    exact ⟨spelling, raw, rfl, hspelling, hrest, (Option.some.inj htaken).symm⟩
  · rw [Lexer.fault_of_scan_hash htail hscan] at htaken
    cases htaken

theorem token_name_refused (hbytes : bytes = spelling ++ Byte.hash :: rest)
    (hspelling : NameSpelling spelling raw) (hrest : ¬ BeginsEscape rest) : ∃ e b,
    token r = .error e { r with cursor := b } ∧ e.kind = .input := by
  refine token_refused hp hover fun verdict left hscan => ?_
  rw [scan_ahead_name hgap hahead, hbytes, hspelling.scan_eq] at hscan
  exact ⟨_, Lexer.fault_of_scan_hash hrest hscan⟩

end Reader

namespace Session

/-- What a reader makes of a name, wherever and in whatever state it comes to one. Every spelling gives
the name that it spells, and what terminates it is left; whatever is taken after a slash is a name spelled
in this way; and a number sign after a spelling that begins no escape is a failure. -/
theorem names_spelled (source : Source) (offset : Int) (blockSize : Nat) (settings : Settings)
    (decrypt : Decipherment) (quiet : Bool) (scope : Scope) (steps : List (Operation × Nat))
    (gap bytes : Bytes) (hsteady : source.IsSteady) (hsize : 0 < blockSize) (hgap : Gap gap) :
    let fresh : Reader Buffer := .new (.atOffset source offset blockSize) settings decrypt quiet
    let r := readerAfter (run scope steps fresh) fresh
    let start := r.cursor.offset + (gap.length + 1)
    r.pending = [] → r.cursor.ahead = gap ++ Byte.slash :: bytes →
    (∀ spelling raw rest, bytes = spelling ++ rest → NameSpelling spelling raw → Terminated rest →
      (rest = [] → r.settings.tolerant = true) →
      ∃ b, Reader.token r = .ok (.name (Latin1.decode raw)) { r with cursor := b } ∧ b.ahead = rest ∧
        b.offset = start + spelling.length) ∧
    (∀ token after, Reader.token r = .ok token after → ∃ spelling raw,
      bytes = spelling ++ after.cursor.ahead ∧ NameSpelling spelling raw ∧
        Terminated after.cursor.ahead ∧ token = .name (Latin1.decode raw)) ∧
    (∀ spelling raw rest, bytes = spelling ++ Byte.hash :: rest → NameSpelling spelling raw →
      ¬ BeginsEscape rest →
      ∃ e b, Reader.token r = .error e { r with cursor := b } ∧ e.kind = .input) := by
  intro fresh r start hp hahead
  have hover := over_after offset settings decrypt quiet scope steps hsteady hsize
  exact ⟨fun _ _ _ => Reader.token_name hp hover hgap hahead,
    fun _ _ => Reader.spelling_of_token hp hover hgap hahead,
    fun _ _ _ => Reader.token_name_refused hp hover hgap hahead⟩

/-- An escaped solidus and an escaped number sign in front of digits, a comment right after the name, and
a number sign cut off by white. -/
theorem names_spelled_with_escapes :
    let source (text : String) : Source := ⟨Latin1.ascii text, 0, true, 0, fun read _ => read % 2 + 1,
      fun _ _ => none⟩
    let fresh (text : String) : Reader Buffer :=
      .new (.atOffset (source text) 5 3) .strict Request.decrypt false
    let r (text : String) := readerAfter (run .tokens [(.token, 1)] (fresh text)) (fresh text)
    let spelled := "7 /A#2f#2341%"
    let cut := "7 /A#4 1"
    (source spelled).IsSteady ∧ (source cut).IsSteady ∧ 0 < 3 ∧ Gap [0x20] ∧
    (r spelled).pending = [] ∧ (r cut).pending = [] ∧
    (r spelled).cursor.ahead = [0x20] ++ Byte.slash :: Latin1.ascii "A#2f#2341%" ∧
    (r cut).cursor.ahead = [0x20] ++ Byte.slash :: Latin1.ascii "A#4 1" ∧
    NameSpelling (Latin1.ascii "A#2f#2341") (Latin1.ascii "A/#41") ∧
    NameSpelling (Latin1.ascii "A") (Latin1.ascii "A") ∧ Terminated [Byte.percent] ∧
    ¬ BeginsEscape (Latin1.ascii "4 1") ∧
    (∃ b, Reader.token (r spelled) = .ok (.name "A/#41") { r spelled with cursor := b } ∧
      b.ahead = [Byte.percent] ∧ b.offset = 17) ∧
    ∃ e b, Reader.token (r cut) = .error e { r cut with cursor := b } ∧ e.kind = .input := by
  intro source fresh r spelled cut
  have hsteady : ∀ text, (source text).IsSteady :=
    fun text => ⟨fun read _ _ => Nat.succ_pos (read % 2), fun _ _ => rfl⟩
  have hgap : Gap [0x20] := .white rfl .nil
  have hpending : (r spelled).pending = [] := List.isEmpty_iff.mp (by decide +kernel)
  have hpending' : (r cut).pending = [] := List.isEmpty_iff.mp (by decide +kernel)
  have hahead : (r spelled).cursor.ahead = [0x20] ++ Byte.slash :: Latin1.ascii "A#2f#2341%" := by
    decide +kernel
  have hahead' : (r cut).cursor.ahead = [0x20] ++ Byte.slash :: Latin1.ascii "A#4 1" := by
    decide +kernel
  have hspelling : NameSpelling (Latin1.ascii "A#2f#2341") (Latin1.ascii "A/#41") :=
    .plain rfl (by decide) (.escape rfl (.escape rfl (.plain rfl (by decide)
      (.plain rfl (by decide) .nil))))
  have hletter : NameSpelling (Latin1.ascii "A") (Latin1.ascii "A") := .plain rfl (by decide) .nil
  have hpercent : Terminated [Byte.percent] := by
    intro b hb
    obtain rfl := Option.some.inj hb
    rfl
  have hcut : ¬ BeginsEscape (Latin1.ascii "4 1") := by
    rintro ⟨high, low, b, rest, heq, hpair⟩
    cases heq
    cases hpair
  have hplace : (r spelled).cursor.offset = 6 := by decide +kernel
  obtain ⟨hread, -⟩ := names_spelled (source spelled) 5 3 .strict Request.decrypt false .tokens
    [(.token, 1)] [0x20] _ (hsteady spelled) (by decide) hgap hpending hahead
  obtain ⟨-, -, hfail⟩ := names_spelled (source cut) 5 3 .strict Request.decrypt false .tokens
    [(.token, 1)] [0x20] _ (hsteady cut) (by decide) hgap hpending' hahead'
  obtain ⟨b, htoken, hrest, hstop⟩ := hread _ _ [Byte.percent] rfl hspelling hpercent nofun
  refine ⟨hsteady spelled, hsteady cut, by decide, hgap, hpending, hpending', hahead, hahead', hspelling,
    hletter, hpercent, hcut, ⟨b, htoken, hrest, ?_⟩, hfail _ _ _ rfl hletter hcut⟩
  rw [hstop]
  change (r spelled).cursor.offset + 2 + 9 = 17
  rw [hplace]
  rfl

end Session
end PdfSyntax
