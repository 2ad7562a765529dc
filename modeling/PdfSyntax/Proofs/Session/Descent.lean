import PdfSyntax.Proofs.Input.Blocks
import PdfSyntax.Proofs.Reader.Descent
import PdfSyntax.Proofs.Session.Agreement

/-!
# Reading objects one after another

A session that reads objects again and again, also after mistakes, comes to the outcomes of the grammar
over the tokens of the data. Mistakes are compared without the places at which they are reported.
-/

set_option autoImplicit false

namespace PdfSyntax

/-- The object or the mistake that a report is about. -/
def Report.parsed? {σ : Type} (report : Report σ) : Option (Except Fault Obj) :=
  match report.outcome with
  | .ok (.object (some obj)) => some (.ok obj)
  | .error (.malformed fault _) => some (.error fault)
  | _ => none

namespace Reader

theorem tokens_cases {σ : Type} [Cursor σ] {count : Nat} {r r' : Reader σ} {ts : List Obj}
    (h : tokens (count + 1) r = .ok ts r') :
    ∃ token s, Reader.token r = .ok token s ∧ ((token.isEnd = true ∧ ts = []) ∨
      (token.isEnd = false ∧ ∃ rest, ts = token :: rest ∧ tokens count s = .ok rest r')) := by
  simp only [tokens, Bind.bind, EStateM.bind] at h
  cases htoken : Reader.token r with
  | error e s =>
    rw [htoken] at h
    cases h
  | ok token s =>
    rw [htoken] at h
    refine ⟨token, s, rfl, ?_⟩
    cases hend : token.isEnd with
    | true =>
      simp only [hend, if_true] at h
      cases h
      exact .inl ⟨rfl, rfl⟩
    | false =>
      refine .inr ⟨rfl, ?_⟩
      simp only [hend, Bool.false_eq_true, if_false, EStateM.bind] at h
      cases hrest : tokens count s with
      | error e s' =>
        rw [hrest] at h
        cases h
      | ok rest s' =>
        rw [hrest] at h
        cases h
        exact ⟨rest, rfl, rfl⟩

/-- Bytes of which all tokens can be read, up to the end, spell these tokens. -/
theorem spells_of_tokens {count : Nat} {r r' : Reader Direct} {ts : List Obj} (hp : r.pending = [])
    (hr : r.cursor.IsInside) (htolerant : r.settings.tolerant = true)
    (h : tokens count r = .ok ts r') (hlt : ts.length < count) :
    Lexer.Spells True r.cursor.rest ts := by
  induction count generalizing r ts with
  | zero => omega
  | succ count ih =>
    obtain ⟨token, s, htoken, hcases⟩ := tokens_cases h
    obtain ⟨bytes, d, hpass, hread⟩ := token_ensures hp hr
    have hd := hpass.isInside hr
    rw [htolerant, htoken] at hread
    cases hscan : Lexer.scan true .gap r.cursor.rest with
    | none =>
      rw [hscan] at hread
      cases hread
    | some result =>
      obtain ⟨verdict, bytes'⟩ := result
      rw [hscan] at hread
      obtain ⟨rfl, hread⟩ := hread
      cases verdict with
      | fault fault => cases hread
      | token token' =>
        cases hread
        rcases hcases with ⟨hend, rfl⟩ | ⟨hend, rest, rfl, hrest⟩
        · rcases Lexer.isLexeme_of_scan hscan with hlexeme | ⟨rfl, hnil⟩
          · rw [hlexeme.isEnd_eq_false] at hend
            cases hend
          · rw [hnil] at hscan
            exact .nil hscan
        · exact .token hscan hend
            (ih (r := { r with cursor := d }) hp hd htolerant hrest (Nat.lt_of_succ_lt_succ hlt))
      | cutShort string =>
        cases hread
        rcases hcases with ⟨hend, -⟩ | ⟨-, rest, rfl, hrest⟩
        · cases hend
        · have hrest := ih (r := ({ r with cursor := d } : Reader Direct).recorded .warning
            cutShortMessage cutShortMessage) (by rw [pending_recorded]; exact hp)
            (by rw [cursor_recorded]; exact hd) (by rw [settings_recorded]; exact htolerant) hrest
            (Nat.lt_of_succ_lt_succ hlt)
          rw [cursor_recorded] at hrest
          exact .cutShort trivial hscan hrest

end Reader

namespace Session
variable {start : Reader Direct} {before : List String} {tokens : List Obj}

/-- The object that a session reads next, and what is ahead afterwards. -/
theorem step_object_reads (plain : start.settings.IsPlain) {r : Reader Direct}
    (hr : start.Ahead True before tokens r) :
    let p := Grammar.object start.settings.references tokens
    let report := step .objects .object r
    report.parsed? = some p.outcome ∧ start.Ahead True (before ++ p.dropped) p.rest report.reader := by
  intro p report
  have hreads : Reader.Reads start True before tokens Reader.object p := Reader.object_reads plain
  have hobject := hreads { r with records := [], requests := [] }
    { hr with records_eq := fun h => absurd trivial h }
  have hreport : report = _ := step_of_includes rfl r
  simp only [Reader.perform, Bind.bind, EStateM.bind] at hreport
  cases hend : Reader.object { r with records := [], requests := [] } with
  | ok obj r' =>
    rw [hend] at hobject hreport
    rw [hreport]
    obtain ⟨houtcome, hahead⟩ := hobject
    constructor
    · change some (Except.ok obj) = some p.outcome
      rw [houtcome]
    · exact hahead
  | error e r' =>
    rw [hend] at hobject hreport
    rw [hreport]
    obtain ⟨⟨fault, offset, rfl, houtcome⟩, hahead⟩ := hobject
    constructor
    · change some (Except.error fault) = some p.outcome
      rw [houtcome]
    · exact hahead

theorem isEnd_of_parsed? {σ : Type} {report : Report σ} {outcome : Except Fault Obj}
    (h : report.parsed? = some outcome) : report.isEnd = outcome.toOption.any Obj.isEnd := by
  unfold Report.parsed? at h
  unfold Report.isEnd
  split at h
  · next houtcome =>
    cases h
    rw [houtcome]
    rfl
  · next houtcome =>
    cases h
    rw [houtcome]
    rfl
  · cases h

theorem repeated_object_reads (plain : start.settings.IsPlain) (count : Nat) {r : Reader Direct}
    (hr : start.Ahead True before tokens r) :
    (repeated .objects .object count r).map Report.parsed? =
      ((Grammar.outcomes start.settings.references tokens).take count).map some := by
  induction count generalizing before tokens r with
  | zero => rfl
  | succ count ih =>
    obtain ⟨hparsed, hahead⟩ := step_object_reads plain hr
    have hend := isEnd_of_parsed? hparsed
    cases tokens with
    | nil =>
      have hend : (step .objects .object r).isEnd = true := hend
      rw [Grammar.outcomes, repeated]
      simp only [hend, if_true, List.map_cons, List.map_nil, hparsed, List.take_succ_cons,
        List.take_nil]
      rfl
    | cons first tokens =>
      have hlexeme := (hr.admits first List.mem_cons_self).1
      have hend : (step .objects .object r).isEnd = false := by
        rw [hend]
        change (Grammar.objectFrom start.settings.references first tokens).outcome.toOption.any
          Obj.isEnd = false
        cases houtcome : (Grammar.objectFrom start.settings.references first tokens).outcome with
        | error fault => rfl
        | ok obj => exact (Grammar.ordinary_of_objectFrom hlexeme houtcome).1
      rw [Grammar.outcomes, repeated]
      simp only [hend, Bool.false_eq_true, if_false, List.map_cons, hparsed, List.take_succ_cons]
      rw [ih hahead]
      rfl

section Fresh
variable (source : Source) (offset : Int) (blockSize : Nat) (settings : Settings)
variable (decrypt : Decipherment) (quiet : Bool) {tokens : List Obj}

theorem alike_fresh (hsteady : source.IsSteady) (hsize : 0 < blockSize) :
    Reader.Alike (Buffer.Shows (.ofSource source offset))
      (.new (Buffer.atOffset source offset blockSize) settings decrypt quiet)
      (.new ((Medium.ofSource source offset).cursorAt offset) settings decrypt quiet) :=
  Reader.alike_new (Buffer.shows_atOffset hsteady offset hsize) settings decrypt quiet

theorem ahead_fresh {mayCut : Prop} (hspells : Lexer.Spells mayCut source.rest tokens)
    (hstream : settings.streams = true → ∀ token ∈ tokens, token.isKeyword "stream" = false) :
    let start : Reader Direct :=
      .new ((Medium.ofSource source offset).cursorAt offset) settings decrypt quiet
    start.Ahead mayCut [] tokens start := by
  apply Reader.ahead_of_spells rfl
  · exact Direct.isInside_ofSource source offset
  · change Lexer.Spells mayCut ((Medium.ofSource source offset).cursorAt offset).rest tokens
    rw [Direct.rest_ofSource]
    exact hspells
  · exact hstream

theorem tokens_of_spells (hsteady : source.IsSteady) (hsize : 0 < blockSize)
    (plain : settings.IsPlain) (hstreams : settings.streams = false)
    (hspells : Lexer.Spells True source.rest tokens) :
    ∃ after, Reader.tokens (tokens.length + 1)
      (.new (Buffer.atOffset source offset blockSize) settings decrypt quiet) = .ok tokens after := by
  have halike := alike_fresh source offset blockSize settings decrypt quiet hsteady hsize
  have hkeep := Reader.tokens_keep (Buffer.simulation _) (tokens.length + 1) _ _ halike
  have hahead := ahead_fresh source offset settings decrypt quiet hspells (by simp [hstreams])
  have htaken := Reader.tokens_ahead (E := fun _ _ => False) plain (tokens.length + 1) _ hahead
  generalize Reader.tokens (tokens.length + 1)
    (.new (Buffer.atOffset source offset blockSize) settings decrypt quiet) = x at hkeep ⊢
  generalize Reader.tokens (tokens.length + 1)
    (.new ((Medium.ofSource source offset).cursorAt offset) settings decrypt quiet) = y at hkeep htaken
  cases hkeep with
  | ok _ =>
    obtain ⟨rfl, -⟩ := htaken
    exact ⟨_, by rw [List.take_of_length_le (Nat.le_succ _)]⟩
  | error _ => exact htaken.elim

end Fresh

/-- Reading objects again and again from data of which all tokens can be read comes to the outcomes of the
grammar over these tokens: none is lost, read twice or out of order. -/
theorem parsed_eq_outcomes (source : Source) (offset : Int) (blockSize : Nat) (settings : Settings)
    (decrypt : Decipherment) (quiet : Bool) (tokens : List Obj) (after : Reader Buffer) (count : Nat)
    (hsteady : source.IsSteady) (hsize : 0 < blockSize) (htolerant : settings.tolerant = true)
    (hstreams : settings.streams = false) (hkey : settings.key = none)
    (htokens : Reader.tokens (tokens.length + 1)
      (.new (Buffer.atOffset source offset blockSize) settings decrypt quiet) = .ok tokens after) :
    (repeated .objects .object count
        (.new (Buffer.atOffset source offset blockSize) settings decrypt quiet)).map Report.parsed? =
      ((Grammar.outcomes settings.references tokens).take count).map some := by
  let start : Reader Direct :=
    .new ((Medium.ofSource source offset).cursorAt offset) settings decrypt quiet
  have halike := alike_fresh source offset blockSize settings decrypt quiet hsteady hsize
  have hspells : Lexer.Spells True source.rest tokens := by
    have hkeep := Reader.tokens_keep (Buffer.simulation _) (tokens.length + 1) _ _ halike
    rw [htokens] at hkeep
    cases hdirect : Reader.tokens (tokens.length + 1) start with
    | ok tokens' after' =>
      rw [hdirect] at hkeep
      cases hkeep
      rw [← Direct.rest_ofSource source offset]
      exact Reader.spells_of_tokens rfl (Direct.isInside_ofSource source offset) htolerant hdirect
        (Nat.lt_succ_self _)
    | error e after' =>
      rw [hdirect] at hkeep
      cases hkeep
  have hahead := ahead_fresh source offset settings decrypt quiet hspells (by simp [hstreams])
  have hreports := repeated_alike (Buffer.simulation _) .objects .object trivial count halike
  have hparsed : ∀ {a : Report Buffer} {b : Report Direct},
      a.Alike (Buffer.Shows (.ofSource source offset)) b → a.parsed? = b.parsed? := by
    intro a b hab
    unfold Report.parsed?
    rw [hab.outcome]
  have hmap : (repeated .objects .object count
        (.new (Buffer.atOffset source offset blockSize) settings decrypt quiet)).map Report.parsed? =
      (repeated .objects .object count start).map Report.parsed? := by
    rw [← List.forall₂_eq_eq_eq, List.forall₂_map_left_iff, List.forall₂_map_right_iff]
    exact hreports.imp fun _ _ => hparsed
  rw [hmap]
  exact repeated_object_reads ⟨htolerant, hkey⟩ count hahead

/-- A definition with a reference and bare integers in it, in blocks of four bytes. -/
theorem parsed_eq_outcomes_of_definition :
    let source := Source.ofData (Latin1.ascii "1 0 obj[2 0 R 7 8]9")
    let settings : Settings := ⟨true, true, false, none, .rc4⟩
    let reader := Reader.new (Buffer.atOffset source 0 4) settings Request.decrypt false
    let tokens : List Obj := [.int 1, .int 0, .keyword "obj", .keyword "[", .int 2, .int 0,
      .keyword "R", .int 7, .int 8, .keyword "]", .int 9]
    source.IsSteady ∧ 0 < 4 ∧ settings.tolerant = true ∧ settings.streams = false ∧
    settings.key = none ∧
    ∃ after, Reader.tokens (tokens.length + 1) reader = .ok tokens after ∧
      (repeated .objects .object 3 reader).map Report.parsed? =
        ((Grammar.outcomes true tokens).take 3).map some := by
  intro source settings reader tokens
  have hsteady : source.IsSteady := Source.isSteady_ofData _
  have hspells : Lexer.Spells True source.rest tokens := by
    iterate 11
      apply Lexer.Spells.token
      · rfl
      · rfl
    exact .nil rfl
  obtain ⟨after, htokens⟩ := tokens_of_spells source 0 4 settings Request.decrypt false hsteady
    (by omega) ⟨rfl, rfl⟩ rfl hspells
  exact ⟨hsteady, by omega, rfl, rfl, rfl, after, htokens,
    parsed_eq_outcomes source 0 4 settings Request.decrypt false tokens after 3 hsteady (by omega) rfl
      rfl rfl htokens⟩

end Session

end PdfSyntax
