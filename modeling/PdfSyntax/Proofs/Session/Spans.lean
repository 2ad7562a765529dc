import PdfSyntax.Proofs.Lexer.Spans
import PdfSyntax.Proofs.Session.Ahead

/-!
# Tokens tile the data

Every token takes the bytes from its place to the place after it: a gap, and a spelling that gives the
same token with nothing around it. So the data fall into spans, one for each token, and a last one that
holds no token.
-/

set_option autoImplicit false

namespace PdfSyntax

namespace Reader
open Lexer (BeginsToken Gap IsBare IsBlank Span Terminated Verdict)

section Alone
variable {medium : Medium} {r : Reader Buffer} {spelling : Bytes} {verdict : Verdict} {token : Obj}

theorem token_at_end (hp : r.pending = []) (htolerant : r.settings.tolerant = true)
    (hover : Buffer.Over medium r.cursor) (hahead : r.cursor.ahead = []) :
    ∃ last, Reader.token r = .ok .endOfInput last := by
  obtain ⟨bytes, b, -, hread⟩ := token_advances hp hover
  rw [htolerant, hahead, Lexer.scan_nil] at hread
  exact ⟨_, hread.2.1⟩

/-- A reader in front of a spelling and nothing else takes the token, and then the end. -/
theorem token_alone (hp : r.pending = []) (htolerant : r.settings.tolerant = true)
    (hover : Buffer.Over medium r.cursor) (hahead : r.cursor.ahead = spelling)
    (hscan : Lexer.scan true .gap spelling = some (verdict, [])) (htoken : verdict.taken? = some token) :
    ∃ once last, Reader.token r = .ok token once ∧ Reader.token once = .ok .endOfInput last := by
  obtain ⟨bytes, b, hadvances, hread⟩ := token_advances hp hover
  rw [htolerant, hahead, hscan] at hread
  obtain ⟨hrest, heq, -⟩ := hread
  obtain ⟨once, honce, hcursor, hpending, hsettings⟩ :=
    judged_of_taken? (r := ({ r with cursor := b } : Reader Buffer)) htoken
  have hover' : Buffer.Over medium once.cursor := by
    rw [hcursor]
    exact hadvances.toOver
  have hahead' : once.cursor.ahead = [] := by
    rw [hcursor]
    exact hrest
  obtain ⟨last, hlast⟩ := token_at_end (hpending.trans hp) (hsettings ▸ htolerant) hover' hahead'
  exact ⟨once, last, heq.trans honce, hlast⟩

theorem token_file (settings : Settings) (htolerant : settings.tolerant = true)
    (hscan : Lexer.scan true .gap spelling = some (verdict, [])) (htoken : verdict.taken? = some token)
    {size : Nat} (hsize : 0 < size) : ∃ once last,
      Reader.token (File.reader spelling size settings) = .ok token once ∧
      Reader.token once = .ok .endOfInput last :=
  token_alone (r := File.reader spelling size settings) rfl htolerant
    (File.over_reader spelling hsize settings) (File.ahead_reader spelling size settings) hscan htoken

end Alone

theorem isEnd_of_taken? {verdict : Verdict} {token : Obj} (h : verdict.taken? = some token)
    (hne : verdict ≠ .token .endOfInput) : token.isEnd = false := by
  cases verdict with
  | token _ =>
    cases h
    cases token <;> first | rfl | exact absurd rfl hne
  | cutShort _ =>
    cases h
    rfl
  | fault _ => cases h

end Reader

namespace Session
open Lexer (BeginsToken Gap IsBare IsBlank Span Terminated)

/-- Whatever was done before, a token that is taken with nothing pushed back takes the bytes up to the
place after it. The end of the input takes what is left, and that is blank. Any other token takes a gap
and a spelling, which alone gives this token and then the end; and if no bracket closes the token, the
byte after it is no regular one. Unless the session went before the start of the data, the bytes are
those of the data at the offsets. -/
theorem tokens_tile (source : Source) (offset : Int) (blockSize : Nat) (settings : Settings)
    (decrypt : Decipherment) (quiet : Bool) (scope : Scope) (steps : List (Operation × Nat))
    (hsteady : source.IsSteady) (hsize : 0 < blockSize) :
    let origin := offset - source.position
    let fresh : Reader Buffer := .new (.atOffset source offset blockSize) settings decrypt quiet
    let r := readerAfter (run scope steps fresh) fresh
    (source.isMovable = true → (∀ step ∈ steps, step.1.GoesWithin (origin ≤ ·)) →
      r.cursor.ahead = source.data.drop (r.cursor.offset - origin).toNat) ∧
    (r.pending = [] → r.settings.tolerant = true → ∀ token after, Reader.token r = .ok token after →
      ∃ span, r.cursor.ahead = span ++ after.cursor.ahead ∧
        after.cursor.offset = r.cursor.offset + span.length ∧
        (token.isEnd = true → IsBlank span ∧ after.cursor.ahead = []) ∧
        (token.isEnd = false → ∃ gap spelling, span = gap ++ spelling ∧ Gap gap ∧
          BeginsToken spelling ∧
          (∀ size, 0 < size → ∃ once last,
            Reader.token (File.reader spelling size r.settings) = .ok token once ∧
            Reader.token once = .ok .endOfInput last) ∧
          (IsBare token → Terminated after.cursor.ahead))) := by
  intro origin fresh r
  refine ⟨fun hmovable hsteps => ahead_after settings decrypt quiet scope hmovable hsize hsteps, ?_⟩
  intro hp htolerant token after htoken
  have hover := over_after offset settings decrypt quiet scope steps hsteady hsize
  obtain ⟨bytes, b, hadvances, hread⟩ := Reader.token_advances hp hover
  cases hscan : Lexer.scan r.settings.tolerant .gap r.cursor.ahead with
  | none =>
    rw [hscan] at hread
    rw [hread] at htoken
    cases htoken
  | some result =>
    obtain ⟨verdict, rest⟩ := result
    rw [hscan] at hread
    obtain ⟨hrest, heq, -⟩ := hread
    rw [heq] at htoken
    obtain ⟨htaken, hcursor⟩ := Reader.taken?_of_judged htoken
    have hahead : after.cursor.ahead = rest := by
      rw [hcursor]
      exact hrest
    have hsplit : r.cursor.ahead = bytes ++ rest := hrest ▸ hadvances.ahead_eq
    rw [htolerant] at hscan
    refine ⟨bytes, by rw [hahead, hsplit], by rw [hcursor]; exact hadvances.offset_eq, ?_⟩
    rcases Lexer.blank_or_span hscan with ⟨hblank, rfl, rfl⟩ | ⟨span, spelling, hspan, hspells⟩
    · cases htaken
      rw [hsplit, List.append_nil] at hblank
      exact ⟨fun _ => ⟨hblank, hahead⟩, fun hend => by cases hend⟩
    · obtain rfl : bytes = span := List.append_cancel_right (hsplit.symm.trans hspan)
      have hend := Reader.isEnd_of_taken? htaken (hspells.begins.ne_end hspells.scan_eq)
      obtain ⟨gap, hgap, heq⟩ := hspells.gap
      refine ⟨fun h => absurd (h.symm.trans hend) (by decide), fun _ =>
        ⟨gap, spelling, heq, hgap, hspells.begins, fun size hsize => ?_, fun hbare => ?_⟩⟩
      · exact Reader.token_file r.settings htolerant hspells.scan_eq htaken hsize
      · rw [hahead]
        cases verdict with
        | token _ =>
          cases htaken
          exact Lexer.terminated_of_scan hscan hbare
        | cutShort _ =>
          cases htaken
          exact hbare.elim
        | fault _ => cases htaken

/-- Short reads, a comment right after a number, and a name right before a string that does not end. -/
theorem tokens_tile_of_abutting :
    let source : Source := ⟨Latin1.ascii "7%c\r /a(b", 0, true, 0, fun read _ => read % 2 + 1,
      fun _ _ => none⟩
    let fresh : Reader Buffer := .new (.atOffset source 5 3) .lenient Request.decrypt false
    let r := readerAfter (run .tokens [(.token, 1)] fresh) fresh
    source.IsSteady ∧ 0 < 3 ∧ r.pending = [] ∧ r.settings.tolerant = true ∧
    ∃ token after gap spelling, Reader.token r = .ok token after ∧ token.text? = some "a" ∧
      r.cursor.ahead = gap ++ spelling ++ after.cursor.ahead ∧ Gap gap ∧ BeginsToken spelling := by
  intro source fresh r
  have hsteady : source.IsSteady := ⟨fun read _ _ => Nat.succ_pos (read % 2), fun _ _ => rfl⟩
  have hpending : r.pending = [] := List.isEmpty_iff.mp (by decide +kernel)
  have htolerant : r.settings.tolerant = true := by decide +kernel
  obtain ⟨token, hyields⟩ : ∃ token, Reader.token.run' r = some token :=
    Option.isSome_iff_exists.mp (by decide +kernel)
  have hname : ∀ token ∈ Reader.token.run' r, token.text? = some "a" ∧ token.isEnd = false := by
    decide +kernel
  obtain ⟨htext, hend⟩ := hname token hyields
  obtain ⟨after, htoken⟩ := exists_ok_of_run' hyields
  obtain ⟨span, hspan, -, -, hspells⟩ := (tokens_tile source 5 3 .lenient Request.decrypt false .tokens
    [(.token, 1)] hsteady (by decide)).2 hpending htolerant token after htoken
  obtain ⟨gap, spelling, rfl, hgap, hbegins, -, -⟩ := hspells hend
  exact ⟨hsteady, by decide, hpending, htolerant, token, after, gap, spelling, htoken, htext, hspan, hgap,
    hbegins⟩

end Session
end PdfSyntax
