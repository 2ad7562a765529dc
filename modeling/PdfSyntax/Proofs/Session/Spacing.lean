import PdfSyntax.Proofs.Reader.Spacing
import PdfSyntax.Proofs.Session.Progress

/-!
# Gaps between words are interchangeable

Words that alone spell tokens spell the same tokens one after another, with any gaps between them, and
then the end comes. Objects are made of tokens, so what they are read as does not depend on the gaps
either, but for the places that messages and failures tell.
-/

set_option autoImplicit false

namespace PdfSyntax

open Lexer (Approaches BeginsToken Gap IsWord RunsOut Spaced)

/-- A word of which alone one token is made: a tolerant reader takes all of it, and tells nothing. -/
structure SpellsAlone (word : Bytes) (token : Obj) : Prop where
  begins : BeginsToken word
  taken : ∃ size once, 0 < size ∧ Reader.token (File.reader word size .lenient) = .ok token once ∧
    once.cursor.offset = word.length ∧ once.records = []

/-- Reports of the same outcome, but for places. -/
structure Report.Similar {σ : Type} (a b : Report σ) : Prop where
  outcome_eq : a.outcome.mapError Failure.unplaced = b.outcome.mapError Failure.unplaced
  records : List.Forall₂ Record.Similar a.records b.records
  requests_eq : a.requests = b.requests

section Alone
variable {word : Bytes} {token : Obj}

theorem SpellsAlone.isWord (h : SpellsAlone word token) : IsWord word token := by
  obtain ⟨size, once, hsize, htoken, hoffset, hrecords⟩ := h.taken
  obtain ⟨bytes, b, hadvances, hread⟩ := Reader.token_advances
    (r := File.reader word size .lenient) rfl (File.over_reader word hsize _)
  have hahead := File.ahead_reader word size .lenient
  have htolerant : (File.reader word size .lenient).settings.tolerant = true := rfl
  rw [hahead, htolerant] at hread
  refine ⟨h.begins, ?_⟩
  cases hscan : Lexer.scan true .gap word with
  | none =>
    rw [hscan] at hread
    cases hread.symm.trans htoken
  | some result =>
    obtain ⟨verdict, rest⟩ := result
    rw [hscan] at hread
    obtain ⟨rfl, heq, -⟩ := hread
    have hjudged := heq.symm.trans htoken
    obtain rfl := Reader.eq_token_of_judged hjudged (fun hknows => nomatch hknows) hrecords
    have hcursor : once.cursor = b := (Reader.taken?_of_judged hjudged).2
    have hnil : b.ahead = [] := by
      apply hadvances.ahead_eq_nil
      rw [← hcursor, hoffset, hahead]
      exact (Int.zero_add _).symm
    rw [hnil]

theorem Lexer.IsWord.spellsAlone (h : IsWord word token) : SpellsAlone word token := by
  have hahead := File.ahead_reader word 1 .lenient
  obtain ⟨b, htoken, -, hoffset⟩ := Reader.token_taken (r := File.reader word 1 .lenient) rfl
    (File.over_reader word Nat.one_pos _) (hahead.trans (List.append_nil word).symm)
    (by rw [hahead]; exact h.scan_eq)
  exact ⟨h.begins, 1, _, Nat.one_pos, htoken, hoffset.trans (Int.zero_add _), rfl⟩

end Alone

namespace Session

section Tokens
variable {medium : Medium} {r : Reader Buffer} {words : List Bytes} {tokens : List Obj}

theorem step_token_of_ok {σ : Type} [Cursor σ] {r r' : Reader σ} {token : Obj}
    (h : Reader.token r.cleared = .ok token r') : step .tokens .token r =
      ⟨.ok (.object (some token)), r'.records, r'.requests, r'⟩ := by
  rw [step_of_includes rfl]
  change Report.ofResult ((Reader.token >>= fun token => Pure.pure (.object (some token)))
    r.cleared) = _
  simp only [Bind.bind, EStateM.bind, h]
  rfl

/-- By induction on how often a token is asked for: each time the first word goes, until none is left. -/
theorem repeated_token_words (count : Nat) (hp : r.pending = []) (htolerant : r.settings.tolerant = true)
    (hover : Buffer.Over medium r.cursor) (hahead : Approaches words r.cursor.ahead)
    (hwords : List.Forall₂ IsWord words tokens) :
    (repeated .tokens .token count r).map (fun report => (report.outcome, report.records)) =
      ((tokens ++ [Obj.endOfInput]).take count).map fun token => (.ok (.object (some token)), []) := by
  induction count generalizing r words tokens with
  | zero => rfl
  | succ count ih =>
    have hrunsOut : ¬ RunsOut r.cleared.settings.tolerant words := by
      have htolerant' : r.cleared.settings.tolerant = true := htolerant
      rw [htolerant']
      exact Lexer.not_runsOut hwords
    obtain ⟨b, htoken, hover', hahead'⟩ :=
      Reader.token_of_words (r := r.cleared) hp hover hahead hwords hrunsOut
    have hstep := step_token_of_ok htoken
    cases hwords with
    | nil =>
      rw [repeated_of_isEnd (by rw [hstep]; rfl), hstep, List.nil_append, List.take_succ_cons,
        List.take_nil]
      rfl
    | @cons word token words tokens hword hwords =>
      have hend : token.isEnd = false := by
        rcases Lexer.isLexeme_of_scan hword.scan_eq with hlexeme | ⟨rfl, -⟩
        · exact hlexeme.isEnd_eq_false
        · exact absurd rfl (hword.begins.ne_end hword.scan_eq)
      rw [repeated_of_not_isEnd (by rw [hstep]; exact hend), hstep, List.map_cons, List.cons_append,
        List.take_succ_cons, List.map_cons,
        ih (r := { r.cleared with cursor := b }) hp htolerant hover' hahead' hwords]
      rfl

end Tokens

section Calls
variable {σ τ : Type} [Cursor σ] [Cursor τ] {r : Reader σ} {s : Reader τ}

/-- What a call for an object reports of the journal is what the reader is left with. -/
theorem step_object_journal (r : Reader σ) :
    (step .objects .object r).records = (step .objects .object r).reader.records ∧
      (step .objects .object r).requests = (step .objects .object r).reader.requests := by
  cases h : Reader.object r.cleared with
  | ok object r' =>
    rw [step_object_of_ok h]
    exact ⟨rfl, rfl⟩
  | error e r' =>
    rw [step_object_of_error h]
    exact ⟨rfl, rfl⟩

/-- Readers that come to the same object, or to the same failure but for places, report so. -/
theorem step_object_of_unplaced {L : Reader σ → Reader τ → Prop}
    (h : SameEnd (fun _ => L) (fun _ => L) (Reader.unplaced Reader.object r.cleared)
      (Reader.unplaced Reader.object s.cleared)) :
    (step .objects .object r).outcome.mapError Failure.unplaced =
      (step .objects .object s).outcome.mapError Failure.unplaced ∧
    L (step .objects .object r).reader (step .objects .object s).reader := by
  cases hr : Reader.object r.cleared with
  | ok object r' =>
    rw [Reader.unplaced_of_ok hr] at h
    cases hs : Reader.object s.cleared with
    | ok object' s' =>
      rw [Reader.unplaced_of_ok hs] at h
      cases h with
      | ok hL =>
        rw [step_object_of_ok hr, step_object_of_ok hs]
        exact ⟨rfl, hL⟩
    | error e s' =>
      rw [Reader.unplaced_of_error hs] at h
      cases h
  | error e r' =>
    rw [Reader.unplaced_of_error hr] at h
    cases hs : Reader.object s.cleared with
    | ok object' s' =>
      rw [Reader.unplaced_of_ok hs] at h
      cases h
    | error e' s' =>
      rw [Reader.unplaced_of_error hs] at h
      generalize he : e.unplaced = cause at h
      generalize he' : e'.unplaced = cause' at h
      cases h with
      | error hL =>
        rw [step_object_of_error hr, step_object_of_error hs]
        exact ⟨congrArg Except.error (he.trans he'.symm), hL⟩

end Calls

section Objects
variable {medium medium' : Medium} {r s : Reader Buffer}

/-- A call for an object reports the same but for places, and leaves readers in front of the same words. -/
theorem step_object_respaced (h : r.Respaced medium medium' s) :
    (step .objects .object r).Similar (step .objects .object s) ∧
      (step .objects .object r).reader.Respaced medium medium' (step .objects .object s).reader := by
  obtain ⟨houtcome, hrs⟩ :=
    step_object_of_unplaced (Reader.object_respaced medium medium' _ _ h.cleared)
  obtain ⟨hrecords, hrequests⟩ := step_object_journal r
  obtain ⟨hrecords', hrequests'⟩ := step_object_journal s
  refine ⟨⟨houtcome, ?_, ?_⟩, hrs⟩
  · rw [hrecords, hrecords']
    exact hrs.records
  · rw [hrequests, hrequests']
    exact hrs.requests_eq

theorem afterObjects_respaced (h : r.Respaced medium medium' s) (count : Nat) :
    (afterObjects r count).Respaced medium medium' (afterObjects s count) := by
  induction count with
  | zero => exact h
  | succ count ih => exact (step_object_respaced ih).2

end Objects

/-- Words that alone spell tokens, with gaps between them. Whatever the gaps, a tolerant reader takes
just these tokens, one by one and without a message, and then the end. And whatever the gaps here and
there, readers that do not look for streams report the same about call after call for an object, but for
places: the same objects and failures, the same messages, and the same decipherments. -/
theorem gaps_interchangeable (source source' : Source) (offset offset' : Int)
    (blockSize blockSize' : Nat) (settings : Settings) (decrypt : Decipherment) (quiet : Bool)
    (words : List Bytes) (tokens : List Obj) (hsteady : source.IsSteady) (hsteady' : source'.IsSteady)
    (hsize : 0 < blockSize) (hsize' : 0 < blockSize') (hwords : List.Forall₂ SpellsAlone words tokens)
    (hspaced : Spaced words source.rest) (hspaced' : Spaced words source'.rest) :
    let fresh : Reader Buffer := .new (.atOffset source offset blockSize) settings decrypt quiet
    let fresh' : Reader Buffer := .new (.atOffset source' offset' blockSize') settings decrypt quiet
    (settings.tolerant = true → ∀ count,
      (repeated .tokens .token count fresh).map (fun report => (report.outcome, report.records)) =
        ((tokens ++ [Obj.endOfInput]).take count).map fun token => (.ok (.object (some token)), [])) ∧
    (settings.streams = false → ∀ count, (objectCall fresh count).Similar (objectCall fresh' count)) := by
  intro fresh fresh'
  have hover : Buffer.Over (.ofSource source offset) fresh.cursor :=
    (Buffer.shows_atOffset hsteady offset hsize).toOver
  have hover' : Buffer.Over (.ofSource source' offset') fresh'.cursor :=
    (Buffer.shows_atOffset hsteady' offset' hsize').toOver
  have hspells : List.Forall₂ IsWord words tokens := hwords.imp fun _ _ => SpellsAlone.isWord
  have hahead : Approaches words fresh.cursor.ahead := hspaced.approaches
  have hahead' : Approaches words fresh'.cursor.ahead := hspaced'.approaches
  refine ⟨fun htolerant count => ?_, fun hstreams count => ?_⟩
  · exact repeated_token_words count rfl htolerant hover hahead hspells
  · have hfresh : fresh.Respaced (.ofSource source offset) (.ofSource source' offset') fresh' :=
      ⟨hover, hover', ⟨words, tokens, hspells, hahead, hahead'⟩, hstreams, ⟨_, _, rfl⟩, .nil⟩
    exact (step_object_respaced (afterObjects_respaced hfresh count)).1

/-- A comment right after a name and right after a number, with brackets in them and a carriage return at
their end, where there is plain white elsewhere. -/
theorem gaps_interchangeable_of_comments :
    let words := [Latin1.ascii "/a", Latin1.ascii "1", Latin1.ascii "0", Latin1.ascii "R"]
    let tokens : List Obj := [.name "a", .int 1, .int 0, .keyword "R"]
    let source (data : Bytes) : Source := ⟨data, 0, true, 0, fun read _ => read % 2 + 1, fun _ _ => none⟩
    let text := Latin1.ascii "/a" ++ Latin1.ascii "%(\r" ++
      (Latin1.ascii "1" ++ Latin1.ascii "\n" ++ (Latin1.ascii "0" ++ Latin1.ascii " " ++ Latin1.ascii "R"))
    let text' := Latin1.ascii "/a" ++ Latin1.ascii " " ++
      (Latin1.ascii "1" ++ Latin1.ascii "%]\r " ++ (Latin1.ascii "0" ++ Latin1.ascii "\t" ++ Latin1.ascii "R"))
    let settings : Settings := ⟨true, true, false, none, .rc4⟩
    let fresh : Reader Buffer := .new (.atOffset (source text) 5 3) settings Request.decrypt false
    let fresh' : Reader Buffer := .new (.atOffset (source text') 0 4) settings Request.decrypt false
    (source text).IsSteady ∧ (source text').IsSteady ∧ 0 < 3 ∧ 0 < 4 ∧
    List.Forall₂ SpellsAlone words tokens ∧ Spaced words (source text).rest ∧
    Spaced words (source text').rest ∧ settings.tolerant = true ∧ settings.streams = false ∧
    (repeated .tokens .token 6 fresh).map (fun report => (report.outcome, report.records)) =
      (tokens ++ [Obj.endOfInput]).map (fun token => (.ok (.object (some token)), [])) ∧
    (objectCall fresh 1).Similar (objectCall fresh' 1) := by
  intro words tokens source text text' settings fresh fresh'
  have hsteady : ∀ data, (source data).IsSteady :=
    fun data => ⟨fun read _ _ => Nat.succ_pos (read % 2), fun _ _ => rfl⟩
  have hname : IsWord (Latin1.ascii "/a") (.name "a") := ⟨⟨_, _, rfl, rfl, by decide⟩, rfl⟩
  have hone : IsWord (Latin1.ascii "1") (.int 1) := ⟨⟨_, _, rfl, rfl, by decide⟩, rfl⟩
  have hzero : IsWord (Latin1.ascii "0") (.int 0) := ⟨⟨_, _, rfl, rfl, by decide⟩, rfl⟩
  have hkeyword : IsWord (Latin1.ascii "R") (.keyword "R") := ⟨⟨_, _, rfl, rfl, by decide⟩, rfl⟩
  have hwords : List.Forall₂ SpellsAlone words tokens :=
    .cons hname.spellsAlone (.cons hone.spellsAlone (.cons hzero.spellsAlone
      (.cons hkeyword.spellsAlone .nil)))
  have hremark : ∀ b : UInt8, Byte.isLineEnd b = false → Lexer.IsRemark [b] :=
    fun b hb => List.forall_mem_singleton.mpr hb
  have hspace : Gap (Latin1.ascii " ") := .white rfl .nil
  have hfeed : Gap (Latin1.ascii "\n") := .white rfl .nil
  have htab : Gap (Latin1.ascii "\t") := .white rfl .nil
  have hcomment : Gap (Latin1.ascii "%(\r") := .comment (hremark 0x28 rfl) rfl .nil
  have hcomment' : Gap (Latin1.ascii "%]\r ") := .comment (hremark 0x5d rfl) rfl hspace
  have hspaced : Spaced words (source text).rest :=
    .cons hcomment (by decide) (.cons hfeed (by decide) (.cons hspace (by decide) (.single _)))
  have hspaced' : Spaced words (source text').rest :=
    .cons hspace (by decide) (.cons hcomment' (by decide) (.cons htab (by decide) (.single _)))
  obtain ⟨htaken, hsimilar⟩ := gaps_interchangeable (source text) (source text') 5 0 3 4 settings
    Request.decrypt false words tokens (hsteady text) (hsteady text') (by decide) (by decide) hwords
    hspaced hspaced'
  exact ⟨hsteady text, hsteady text', by decide, by decide, hwords, hspaced, hspaced', rfl, rfl,
    htaken rfl 6, hsimilar rfl 1⟩

end Session
end PdfSyntax
