import PdfSyntax.File
import PdfSyntax.Proofs.Input.Ahead
import PdfSyntax.Proofs.Input.Supply
import PdfSyntax.Proofs.Session.Coherence

/-!
# The bytes ahead of a session

Whatever was done before, the next token of a reader over a steady source, and the place where it ends,
are what the lexer makes of the bytes ahead.
-/

set_option autoImplicit false

namespace PdfSyntax

/-- What the reader takes a verdict for: a string that is cut short is a token too. -/
def Lexer.Verdict.taken? : Lexer.Verdict → Option Obj
  | .token lexeme => some lexeme
  | .cutShort string => some (.str string)
  | .fault _ => none

namespace Reader

section Judged
variable {σ : Type} [Cursor σ] {r after : Reader σ} {verdict : Lexer.Verdict} {token : Obj}

theorem judged_of_taken? (h : verdict.taken? = some token) : ∃ after, r.judged verdict = .ok token after ∧
    after.cursor = r.cursor ∧ after.pending = r.pending ∧ after.settings = r.settings := by
  cases verdict with
  | token _ =>
    cases h
    exact ⟨r, rfl, rfl, rfl, rfl⟩
  | cutShort string =>
    cases h
    exact ⟨_, rfl, cursor_recorded .., pending_recorded .., settings_recorded ..⟩
  | fault _ => cases h

theorem taken?_of_judged (h : r.judged verdict = .ok token after) :
    verdict.taken? = some token ∧ after.cursor = r.cursor := by
  cases verdict with
  | token _ =>
    cases h
    exact ⟨rfl, rfl⟩
  | cutShort string =>
    cases h
    exact ⟨rfl, cursor_recorded ..⟩
  | fault _ => cases h

/-- A string that is cut short is a token as well, but it does not come without a message. -/
theorem eq_token_of_judged (h : r.judged verdict = .ok token after)
    (hnews : ¬ r.knows cutShortMessage = true) (hrecords : after.records = r.records) :
    verdict = .token token := by
  cases verdict with
  | token _ =>
    cases h
    rfl
  | cutShort string =>
    cases h
    rw [records_recorded hnews] at hrecords
    exact absurd hrecords (by simp)
  | fault _ => cases h

end Judged

/-- The next token of a buffer is what the lexer makes of the bytes ahead, and it is over where the lexer
leaves off. -/
theorem token_advances {medium : Medium} {r : Reader Buffer} (hp : r.pending = [])
    (hover : Buffer.Over medium r.cursor) :
    ∃ bytes b, r.cursor.Advances medium bytes b ∧
      match Lexer.scan r.settings.tolerant .gap r.cursor.ahead with
      | none => token r = .error (.unexpectedEnd b.offset) { r with cursor := b }
      | some (verdict, rest) =>
        b.ahead = rest ∧ token r = ({ r with cursor := b } : Reader Buffer).judged verdict ∧
          lex r.settings.tolerant .gap r.cursor = .ok verdict b := by
  have hfaces := hover.faces
  have hlex := Direct.lex_scans hfaces.inside r.settings.tolerant .gap
  have hkeep := lex_keep (Buffer.faces_simulation medium) r.settings.tolerant .gap _ _ hfaces
  rw [token_of_no_pending hp]
  generalize lex r.settings.tolerant .gap r.cursor = result at hkeep ⊢
  generalize lex r.settings.tolerant .gap r.cursor.front = result' at hlex hkeep
  cases hkeep with
  | @ok verdict b d h =>
    obtain ⟨hscan, bytes, hpass⟩ := hlex
    refine ⟨bytes, b, Buffer.Over.advances hpass h, ?_⟩
    rw [← hfaces.rest_eq, hscan]
    exact ⟨h.rest_eq.symm, rfl, rfl⟩
  | @error e b d h =>
    obtain ⟨hscan, rfl, bytes, hpass⟩ := hlex
    refine ⟨bytes, b, Buffer.Over.advances hpass h, ?_⟩
    rw [← hfaces.rest_eq, hscan, h.offset_eq]

section Scanned
variable {medium : Medium} {r : Reader Buffer} {bytes rest : Bytes} {lexeme : Obj}
variable (hp : r.pending = []) (hover : Buffer.Over medium r.cursor)
include hp hover

/-- A token of the bytes ahead is taken as it is, without a message. -/
theorem token_taken (hahead : r.cursor.ahead = bytes ++ rest)
    (hscan : Lexer.scan r.settings.tolerant .gap r.cursor.ahead = some (.token lexeme, rest)) :
    ∃ b, token r = .ok lexeme { r with cursor := b } ∧ b.ahead = rest ∧
      b.offset = r.cursor.offset + bytes.length := by
  obtain ⟨read, b, hadvances, hread⟩ := token_advances hp hover
  rw [hscan] at hread
  obtain ⟨hrest, htoken, -⟩ := hread
  have hread : read ++ rest = bytes ++ rest := by rw [← hahead, ← hrest, ← hadvances.ahead_eq]
  obtain rfl := List.append_cancel_right hread
  exact ⟨b, htoken, hrest, hadvances.offset_eq⟩

/-- Where the lexer comes to a fault, or to the end of the bytes, the reader fails. -/
theorem token_refused (hscan : ∀ verdict rest,
      Lexer.scan r.settings.tolerant .gap r.cursor.ahead = some (verdict, rest) →
        ∃ fault, verdict = .fault fault) :
    ∃ e b, token r = .error e { r with cursor := b } ∧ e.kind = .input := by
  obtain ⟨read, b, -, hread⟩ := token_advances hp hover
  cases h : Lexer.scan r.settings.tolerant .gap r.cursor.ahead with
  | none =>
    rw [h] at hread
    exact ⟨_, b, hread, rfl⟩
  | some result =>
    obtain ⟨verdict, rest⟩ := result
    obtain ⟨fault, rfl⟩ := hscan verdict rest h
    rw [h] at hread
    obtain ⟨-, htoken, hlex⟩ := hread
    exact ⟨_, b, htoken, Fault.kind_of_isLexical (isReached_of_lex hlex).isLexical⟩

/-- Where the bytes end before a token does, and that is not tolerated, nothing is left ahead. -/
theorem token_runs_out (hscan : Lexer.scan r.settings.tolerant .gap r.cursor.ahead = none) : ∃ b,
    token r = .error (.unexpectedEnd b.offset) { r with cursor := b } ∧ Buffer.Over medium b ∧
      b.ahead = [] := by
  obtain ⟨read, b, hadvances, hread⟩ := token_advances hp hover
  rw [hscan] at hread
  refine ⟨b, hread, hadvances.toOver, ?_⟩
  have hlex := (Buffer.supplies medium).lex_ensures r.settings.tolerant .gap _ r.cursor hover.inFront
  have htoken := (token_of_no_pending hp).symm.trans hread
  generalize lex r.settings.tolerant .gap r.cursor = result at hlex htoken
  cases result with
  | ok verdict c => cases verdict <;> cases htoken
  | error e c =>
    have hcursor : c = b := congrArg Reader.cursor (EStateM.Result.error.inj htoken).2
    rw [← hcursor]
    exact hlex.2.2.bytes_eq

/-- Of the bytes ahead a reader takes only what the lexer made of them. -/
theorem scan_of_token {after : Reader Buffer} (h : token r = .ok lexeme after) : ∃ verdict,
    Lexer.scan r.settings.tolerant .gap r.cursor.ahead = some (verdict, after.cursor.ahead) ∧
      verdict.taken? = some lexeme := by
  obtain ⟨read, b, -, hread⟩ := token_advances hp hover
  cases hscan : Lexer.scan r.settings.tolerant .gap r.cursor.ahead with
  | none =>
    rw [hscan] at hread
    dsimp only at hread
    rw [h] at hread
    cases hread
  | some result =>
    obtain ⟨verdict, rest⟩ := result
    rw [hscan] at hread
    obtain ⟨hrest, htoken, -⟩ := hread
    obtain ⟨htaken, hcursor⟩ := taken?_of_judged (htoken.symm.trans h)
    exact ⟨verdict, by rw [hcursor, hrest], htaken⟩

end Scanned
end Reader

namespace File

theorem over_reader (data : Bytes) {size : Nat} (hsize : 0 < size) (settings : Settings) :
    Buffer.Over (.ofSource (.ofData data) 0) (reader data size settings).cursor :=
  (Buffer.shows_atOffset (Source.isSteady_ofData data) 0 hsize).toOver

theorem ahead_reader (data : Bytes) (size : Nat) (settings : Settings) :
    (reader data size settings).cursor.ahead = data :=
  List.nil_append data

end File

namespace Session

/-- After any operations on a fresh reader over a steady source, the cursor is over its medium. -/
theorem over_after {source : Source} (offset : Int) {blockSize : Nat} (settings : Settings)
    (decrypt : Decipherment) (quiet : Bool) (scope : Scope) (steps : List (Operation × Nat))
    (hsteady : source.IsSteady) (hsize : 0 < blockSize) :
    let fresh : Reader Buffer := .new (.atOffset source offset blockSize) settings decrypt quiet
    let b := (readerAfter (run scope steps fresh) fresh).cursor
    Buffer.Over (.ofSource source offset) b := by
  intro fresh b
  have hconclusive : fresh.cursor.source.IsConclusive := hsteady.generous.isConclusive
  have hinvariant : Cursor.Invariant fun b => Buffer.StemsFrom fresh.cursor b ∧ b.IsSpent :=
    Buffer.spent_invariant hconclusive
  have hafter := readerAfter_over hinvariant scope steps
    (Reader.over_new (c := fresh.cursor) ⟨Buffer.stemsFrom_self _, fun h => by cases h⟩ settings decrypt
      quiet)
  obtain ⟨hstems, hspent⟩ : fresh.cursor.StemsFrom b ∧ b.IsSpent := hafter.cursor
  exact hstems.isOver_of_isSpent hspent (Buffer.shows_atOffset hsteady offset hsize).toOver

/-- Unless a session went before the start of the data, what is ahead is what the data hold from the
place on. -/
theorem ahead_after {source : Source} {offset : Int} {blockSize : Nat} (settings : Settings)
    (decrypt : Decipherment) (quiet : Bool) (scope : Scope) {steps : List (Operation × Nat)}
    (hmovable : source.isMovable = true) (hsize : 0 < blockSize)
    (hsteps : ∀ step ∈ steps, step.1.GoesWithin (offset - source.position ≤ ·)) :
    let fresh : Reader Buffer := .new (.atOffset source offset blockSize) settings decrypt quiet
    let b := (readerAfter (run scope steps fresh) fresh).cursor
    b.ahead = source.data.drop (b.offset - (offset - source.position)).toNat := by
  intro fresh b
  have hstems : Cursor.Law (offset - source.position ≤ ·) (Buffer.StemsFrom fresh.cursor) :=
    (Buffer.stemsFrom_invariant _).law.of_imp fun _ _ => trivial
  have hafter := readerAfter_over_of_law (hstems.and (Buffer.coherent_law (offset - source.position)))
    scope hsteps (Reader.over_new (c := fresh.cursor)
      ⟨Buffer.stemsFrom_self _, Buffer.coherent_atOffset source offset hmovable hsize⟩ settings decrypt
      quiet)
  obtain ⟨hfresh, hcoherent⟩ :
      fresh.cursor.StemsFrom b ∧ b.Coherent (offset - source.position) := hafter.cursor
  have hdata : b.source.data = source.data := hfresh.data_eq
  rw [← hdata]
  exact hcoherent.drop_offset.symm

end Session
end PdfSyntax
