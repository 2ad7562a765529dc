import PdfSyntax.File
import PdfSyntax.Proofs.Reader.Payload
import PdfSyntax.Proofs.Reader.Trailing

/-!
# Objects after a look at the tokens ahead

Tokens can be taken and pushed back without a difference to the object that is read next, wherever a
session has come to, as long as the payload of a stream does not begin in the midst of them. A payload is
what follows the keyword in the input, and the tokens beyond the keyword are already taken from there.
-/

set_option autoImplicit false

namespace PdfSyntax.Session

/-- Whatever was done before, with nothing pushed back, a look at any number of tokens makes no difference
to the object that is read next, nor to whether there is one, unless it goes into the payload of a stream
that this object takes in. Failures may name other places. -/
theorem object_after_peek (source : Source) (offset : Int) (blockSize : Nat) (settings : Settings)
    (decrypt : Decipherment) (quiet : Bool) (scope : Scope) (steps : List (Operation × Nat))
    (count : Nat) (hsize : 0 < blockSize) :
    let fresh : Reader Buffer := .new (.atOffset source offset blockSize) settings decrypt quiet
    let r := readerAfter (run scope steps fresh) fresh
    r.pending = [] → ∀ tokens peeked, Reader.peek count r = .ok tokens peeked →
      ¬ r.SplitsPayload tokens →
      (∀ obj, (∃ after, Reader.object peeked = .ok obj after) ↔ ∃ after, Reader.object r = .ok obj after) ∧
      (∀ e after, Reader.object r = .error e after →
        ∃ e' after', Reader.object peeked = .error e' after' ∧ e.Resembles e') := by
  intro fresh r hp tokens peeked hpeek hsplits
  have hover := readerAfter_over (Buffer.stemsFrom_invariant fresh.cursor) scope steps
    (Reader.over_new (Buffer.stemsFrom_self _) settings decrypt quiet)
  have hblock : r.cursor.blockSize = blockSize := hover.cursor.blockSize_eq
  have hsimilar := Reader.object_of_peek (hblock ▸ hsize) hp hpeek hsplits
  generalize Reader.object r = result at hsimilar ⊢
  generalize Reader.object peeked = result' at hsimilar ⊢
  cases hsimilar with
  | @ok obj after after' _ =>
    constructor
    · intro other
      constructor
      · rintro ⟨_, heq⟩
        cases heq
        exact ⟨after, rfl⟩
      · rintro ⟨_, heq⟩
        cases heq
        exact ⟨after', rfl⟩
    · intro e after heq
      cases heq
  | @error e e' after after' he =>
    constructor
    · intro other
      constructor
      · rintro ⟨_, heq⟩
        cases heq
      · rintro ⟨_, heq⟩
        cases heq
    · intro _ _ heq
      cases heq
      exact ⟨e', after', rfl, he⟩

/-- A look that stops at the keyword in front of the payload, in the midst of the data. -/
theorem object_after_peek_of_stream :
    let source : Source := ⟨Latin1.ascii "7 <<>> stream\nABC", 0, true, 0, fun read _ => read % 2 + 1,
      fun _ _ => none⟩
    let fresh : Reader Buffer := .new (.atOffset source 5 3) .lenient Request.decrypt false
    let r := readerAfter (run .objects [(.token, 1)] fresh) fresh
    0 < 3 ∧ r.pending = [] ∧ ∃ tokens peeked, Reader.peek 3 r = .ok tokens peeked ∧
      tokens.map Obj.text? = [some "<<", some ">>", some "stream"] ∧ ¬ r.SplitsPayload tokens ∧
      ∃ obj after, Reader.object peeked = .ok obj after ∧ obj.payload? = some (.null, 19) := by
  intro source fresh r
  have hpending : r.pending = [] := List.isEmpty_iff.mp (by decide +kernel)
  obtain ⟨tokens, htokens⟩ : ∃ tokens, (Reader.peek 3).run' r = some tokens :=
    Option.isSome_iff_exists.mp (by decide +kernel)
  have htexts : ∀ tokens ∈ (Reader.peek 3).run' r,
      tokens.map Obj.text? = [some "<<", some ">>", some "stream"] := by decide +kernel
  have htexts := htexts tokens htokens
  obtain ⟨peeked, hpeek⟩ := exists_ok_of_run' htokens
  have hsplits : ¬ r.SplitsPayload tokens := by
    apply Reader.not_splitsPayload
    intro hmem
    have hmem := List.mem_map_of_mem (f := Obj.text?) hmem
    rw [List.map_dropLast, htexts] at hmem
    simp [Obj.text?] at hmem
  obtain ⟨obj, hobj⟩ : ∃ obj, Reader.object.run' r = some obj :=
    Option.isSome_iff_exists.mp (by decide +kernel)
  have hpayload : ∀ obj ∈ Reader.object.run' r, obj.payload? = some (.null, 19) := by decide +kernel
  obtain ⟨hsame, -⟩ := object_after_peek source 5 3 .lenient Request.decrypt false .objects [(.token, 1)]
    3 (by decide) hpending tokens peeked hpeek hsplits
  obtain ⟨after, hafter⟩ := (hsame obj).mpr (exists_ok_of_run' hobj)
  exact ⟨by decide, hpending, tokens, peeked, hpeek, htexts, hsplits, obj, after, hafter,
    hpayload obj hobj⟩

/-- A look beyond the keyword: the payload is taken to start after the tokens, and not after the line. -/
theorem peek_moves_payload :
    let fresh := File.reader (Latin1.ascii "<<>> stream\nABC") 16 .lenient
    let r := readerAfter (run .objects [] fresh) fresh
    r.pending = [] ∧ ∃ tokens peeked, Reader.peek 4 r = .ok tokens peeked ∧
      (∃ obj after, Reader.object r = .ok obj after ∧ obj.payload? = some (.null, 12)) ∧
      ∃ obj after, Reader.object peeked = .ok obj after ∧ obj.payload? = some (.null, 15) := by
  intro fresh r
  let peekAndRead : Reading Buffer Obj := Reader.peek 4 >>= fun _ => Reader.object
  obtain ⟨obj, hobj⟩ : ∃ obj, Reader.object.run' r = some obj :=
    Option.isSome_iff_exists.mp (by decide +kernel)
  obtain ⟨moved, hmoved⟩ : ∃ obj, peekAndRead.run' r = some obj :=
    Option.isSome_iff_exists.mp (by decide +kernel)
  have hpayload : ∀ obj ∈ Reader.object.run' r, obj.payload? = some (.null, 12) := by decide +kernel
  have hpayload' : ∀ obj ∈ peekAndRead.run' r, obj.payload? = some (.null, 15) := by decide +kernel
  obtain ⟨after, hread⟩ := exists_ok_of_run' hobj
  obtain ⟨tokens, peeked, hpeek, hrest⟩ := exists_of_bind_run' hmoved
  obtain ⟨after', hread'⟩ := exists_ok_of_run' hrest
  exact ⟨rfl, tokens, peeked, hpeek, ⟨obj, after, hread, hpayload obj hobj⟩, moved, after', hread',
    hpayload' moved hmoved⟩

end PdfSyntax.Session
