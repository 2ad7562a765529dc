import PdfSyntax.Proofs.Reader.Foresight
import PdfSyntax.Proofs.Session.Descent
import PdfSyntax.Proofs.Session.Spacing

/-!
# Reading with and without references

Where no keyword of references and definitions occurs, it makes no difference whether references are
looked for, unless there is a mistake right behind an integer. There the integer is lost: the mistake
ends the look ahead, and nothing that was taken for it is pushed back.
-/

set_option autoImplicit false

namespace PdfSyntax.Session

open Reader (Harmless Outruns Scans)

section Tokens
variable {σ : Type} [Cursor σ] {r : Reader σ}

/-- The reader after so many calls for a token, whatever came of each. -/
def afterTokens (r : Reader σ) : Nat → Reader σ
  | 0 => r
  | count + 1 => (step .tokens .token (afterTokens r count)).reader

/-- What the call for a token reports that comes after so many others. -/
def tokenCall (r : Reader σ) (count : Nat) : Report σ :=
  step .tokens .token (afterTokens r count)

theorem step_token_of_error {e : Failure} {r' : Reader σ} (h : Reader.token r.cleared = .error e r') :
    step .tokens .token r = ⟨.error e, r'.records, r'.requests, r'⟩ := by
  rw [step_of_includes rfl]
  change Report.ofResult ((Reader.token >>= fun token => Pure.pure (.object (some token)))
    r.cleared) = _
  simp only [Bind.bind, EStateM.bind, h]
  rfl

theorem afterTokens_add (r : Reader σ) (first count : Nat) :
    afterTokens r (first + count) = afterTokens (afterTokens r first) count := by
  induction count with
  | zero => rfl
  | succ count ih =>
    change (step .tokens .token (afterTokens r (first + count))).reader = _
    rw [ih]
    rfl

theorem tokenCall_add (r : Reader σ) (first count : Nat) :
    tokenCall r (first + count) = tokenCall (afterTokens r first) count := by
  rw [tokenCall, afterTokens_add]
  rfl

/-- A call for a token with nothing pushed back reports what the lexer makes of the cursor. -/
theorem step_token_of_lex {verdict : Lexer.Verdict} {c : σ} (hp : r.pending = [])
    (htolerant : r.settings.tolerant = true) (hlex : Reader.lex true .gap r.cursor = .ok verdict c) :
    (step .tokens .token r).parsed? = some verdict.outcome ∧
      (step .tokens .token r).reader.cursor = c ∧ (step .tokens .token r).reader.pending = [] ∧
      (step .tokens .token r).reader.settings = r.settings := by
  have htoken := Reader.token_of_no_pending (r := r.cleared) hp
  have hsettings : r.cleared.settings.tolerant = true := htolerant
  have hlex' : Reader.lex true .gap r.cleared.cursor = .ok verdict c := hlex
  rw [hsettings, hlex'] at htoken
  cases houtcome : verdict.outcome with
  | error fault =>
    obtain rfl := Lexer.Verdict.eq_fault_of_outcome houtcome
    rw [step_token_of_error htoken]
    exact ⟨rfl, rfl, hp, rfl⟩
  | ok token =>
    obtain ⟨told, records, heq⟩ := Reader.judged_eq (r := { r.cleared with cursor := c })
      (Lexer.Verdict.taken?_of_outcome houtcome)
    rw [step_token_of_ok (htoken.trans heq)]
    exact ⟨rfl, rfl, hp, rfl⟩

/-- The calls for a token report what the lexer makes of the cursor again and again. -/
theorem tokenCall_of_scans (hp : r.pending = []) (htolerant : r.settings.tolerant = true)
    {outcomes : List (Except Fault Obj)} {c : σ} (h : Scans r.cursor outcomes c) :
    ((afterTokens r outcomes.length).cursor = c ∧ (afterTokens r outcomes.length).pending = [] ∧
      (afterTokens r outcomes.length).settings = r.settings) ∧
    ∀ count outcome, outcomes[count]? = some outcome → (tokenCall r count).parsed? = some outcome := by
  induction h with
  | nothing => exact ⟨⟨rfl, hp, rfl⟩, fun count outcome h => by simp at h⟩
  | @more outcomes d d' verdict _ hlex ih =>
    obtain ⟨⟨hcursor, hpending, hsettings⟩, hcalls⟩ := ih
    obtain ⟨hparsed, hcursor', hpending', hsettings'⟩ := step_token_of_lex hpending
      (hsettings ▸ htolerant) (hcursor.symm ▸ hlex)
    rw [List.length_append]
    refine ⟨⟨hcursor', hpending', hsettings'.trans hsettings⟩, fun count outcome h => ?_⟩
    rcases Nat.lt_trichotomy count outcomes.length with hlt | rfl | hgt
    · rw [List.getElem?_append_left hlt] at h
      exact hcalls count outcome h
    · rw [List.getElem?_append_right (Nat.le_refl _), Nat.sub_self] at h
      cases h
      exact hparsed
    · rw [List.getElem?_eq_none (by rw [List.length_append]; exact hgt)] at h
      cases h

/-- What the calls for a token report tells whether looking for references is harmless. -/
theorem harmless_of_calls (hp : r.pending = []) (htolerant : r.settings.tolerant = true)
    (hkeywords : ∀ count text, (tokenCall r count).parsed? = some (.ok (.keyword text)) →
      text ≠ "R" ∧ text ≠ "obj")
    (hfaults : ∀ count n fault, (tokenCall r count).parsed? = some (.ok (.int n)) → 0 ≤ n →
      n < Ref.idLimit → (tokenCall r (count + 1)).parsed? ≠ some (.error fault)) :
    Harmless r.cursor where
  keyword h hmem := by
    obtain ⟨count, hcount⟩ := List.mem_iff_getElem?.mp hmem
    exact hkeywords count _ ((tokenCall_of_scans hp htolerant h).2 count _ hcount)
  fault {outcomes c n fault} h hn hlimit := by
    have hcalls := (tokenCall_of_scans hp htolerant h).2
    have hint := hcalls outcomes.length (.ok (.int n)) (by simp)
    have hfault := hcalls (outcomes.length + 1) (.error fault) (by
      rw [List.getElem?_append_right (Nat.le_add_right _ 1), Nat.add_sub_cancel_left]
      rfl)
    exact hfaults _ n fault hint hn hlimit hfault

variable {InFront : σ → Bytes → Prop} (supplies : Supplies InFront)
include supplies

/-- Calls for a token come to the end of the input, and stay there. -/
theorem afterTokens_inFront (hp : r.pending = []) (htolerant : r.settings.tolerant = true)
    {bytes : Bytes} (hfront : InFront r.cursor bytes) (count : Nat) :
    (afterTokens r count).pending = [] ∧ (afterTokens r count).settings = r.settings ∧
      ∃ rest, InFront (afterTokens r count).cursor rest ∧ (bytes = [] → rest = []) := by
  induction count with
  | zero => exact ⟨hp, rfl, bytes, hfront, id⟩
  | succ count ih =>
    obtain ⟨hpending, hsettings, rest, hrest, hnil⟩ := ih
    have hlex := supplies.lex_ensures true .gap rest _ hrest
    cases hr : Reader.lex true .gap (afterTokens r count).cursor with
    | error e c =>
      rw [hr] at hlex
      cases hlex.1
    | ok verdict c =>
      rw [hr] at hlex
      obtain ⟨rest', hscan, hrest'⟩ := hlex
      obtain ⟨-, hcursor, hpending', hsettings'⟩ := step_token_of_lex hpending
        (hsettings ▸ htolerant) hr
      refine ⟨hpending', hsettings'.trans hsettings, rest', hcursor.symm ▸ hrest', fun hbytes => ?_⟩
      rw [hnil hbytes] at hscan
      cases hscan
      rfl

theorem tokenCall_at_end (hp : r.pending = []) (htolerant : r.settings.tolerant = true)
    {bytes : Bytes} (hfront : InFront r.cursor bytes) {first count : Nat}
    (hleft : Cursor.left (afterTokens r first).cursor = 0) (hle : first ≤ count) :
    (tokenCall r count).parsed? = some (.ok .endOfInput) := by
  obtain ⟨hpending, hsettings, rest, hrest, -⟩ := afterTokens_inFront supplies hp htolerant hfront first
  obtain rfl : rest = [] := List.eq_nil_of_length_eq_zero ((supplies.left hrest).symm.trans hleft)
  obtain ⟨more, rfl⟩ := Nat.exists_eq_add_of_le hle
  obtain ⟨hpending', hsettings', rest', hrest', hnil⟩ :=
    afterTokens_inFront supplies hpending (hsettings ▸ htolerant) hrest more
  rw [hnil rfl] at hrest'
  have hlex := supplies.lex_ensures true .gap [] _ hrest'
  rw [tokenCall_add]
  cases hr : Reader.lex true .gap (afterTokens (afterTokens r first) more).cursor with
  | error e c =>
    rw [hr] at hlex
    cases hlex.1
  | ok verdict c =>
    rw [hr] at hlex
    obtain ⟨rest', hscan, -⟩ := hlex
    cases hscan
    have htolerant' : (afterTokens (afterTokens r first) more).settings.tolerant = true := by
      rw [hsettings', hsettings]
      exact htolerant
    exact (step_token_of_lex hpending' htolerant' hr).1

end Tokens

section Objects
variable {σ : Type} [Cursor σ] {InFront : σ → Bytes → Prop} {start : σ} {r s : Reader σ}
variable (supplies : Supplies InFront) (hharmless : Harmless start)
include supplies hharmless

theorem step_object_outruns (h : Outruns InFront start r s) :
    (step .objects .object r).outcome.mapError Failure.unplaced =
      (step .objects .object s).outcome.mapError Failure.unplaced ∧
    Outruns InFront start (step .objects .object r).reader (step .objects .object s).reader :=
  step_object_of_unplaced
    (Reader.Unharmed.object supplies hharmless _ _ (h.congr rfl rfl rfl rfl rfl rfl))

theorem afterObjects_outruns (h : Outruns InFront start r s) (count : Nat) :
    Outruns InFront start (afterObjects r count) (afterObjects s count) := by
  induction count with
  | zero => exact h
  | succ count ih => exact (step_object_outruns supplies hharmless ih).2

end Objects

section Blank
variable {r : Reader Buffer}

/-- A reader that has nothing, and reads blocks of no size. -/
structure Blank (r : Reader Buffer) : Prop where
  pending_eq : r.pending = []
  after_eq : r.cursor.after = []
  blockSize_eq : r.cursor.blockSize = 0

theorem object_of_blank (h : Blank r) : Reader.object r = .error .emptyBlock r := by
  have hnext : Cursor.next r.settings.tolerant r.cursor = .error .emptyBlock r.cursor := by
    change Buffer.next r.settings.tolerant r.cursor = _
    simp only [Buffer.next, Buffer.take, h.after_eq, Buffer.refill, h.blockSize_eq, if_true]
  have htoken : Reader.token r = .error .emptyBlock r := by
    rw [Reader.token_of_no_pending h.pending_eq, Reader.lex_of_error hnext]
  have hobject : Reader.object r = Reader.objectWithin (2 * r.weight + 2) r := rfl
  rw [hobject, Reader.objectWithin_succ]
  simp only [Bind.bind, EStateM.bind, htoken]

/-- Each call for an object fails then, and changes nothing. -/
theorem objectCall_of_blank (h : Blank r) (count : Nat) :
    (objectCall r count).outcome = .error .emptyBlock := by
  have hstep : ∀ {r : Reader Buffer}, Blank r →
      step .objects .object r = ⟨.error .emptyBlock, [], [], r.cleared⟩ := fun h =>
    step_object_of_error (object_of_blank ⟨h.pending_eq, h.after_eq, h.blockSize_eq⟩)
  have hafter : Blank (afterObjects r count) := by
    induction count with
    | zero => exact h
    | succ count ih =>
      rw [afterObjects, hstep ih]
      exact ⟨ih.pending_eq, ih.after_eq, ih.blockSize_eq⟩
  rw [objectCall, hstep hafter]

end Blank

/-- Where no keyword of references and definitions occurs among the tokens, and no mistake right behind an
integer that could begin either, call after call for an object comes to the same, but for places, whether
references are looked for or not: the same objects and the same mistakes, up to the end of the input. -/
theorem foresight_costs_nothing (source : Source) (offset : Int) (blockSize : Nat) (settings : Settings)
    (decrypt : Decipherment) (quiet : Bool) (hsteady : source.IsSteady)
    (htolerant : settings.tolerant = true) (hstreams : settings.streams = false)
    (hkey : settings.key = none) :
    let fresh (references : Bool) : Reader Buffer :=
      .new (.atOffset source offset blockSize) { settings with references } decrypt quiet
    (∀ count text, (tokenCall (fresh false) count).parsed? = some (.ok (.keyword text)) →
      text ≠ "R" ∧ text ≠ "obj") →
    (∀ count n fault, (tokenCall (fresh false) count).parsed? = some (.ok (.int n)) → 0 ≤ n →
      n < Ref.idLimit → (tokenCall (fresh false) (count + 1)).parsed? ≠ some (.error fault)) →
    ∀ count, (objectCall (fresh true) count).outcome.mapError Failure.unplaced =
      (objectCall (fresh false) count).outcome.mapError Failure.unplaced := by
  intro fresh hkeywords hfaults count
  rcases Nat.eq_zero_or_pos blockSize with hzero | hsize
  · have hblank : ∀ references, Blank (fresh references) := fun _ => ⟨rfl, rfl, hzero⟩
    rw [objectCall_of_blank (hblank true), objectCall_of_blank (hblank false)]
  have hharmless : Harmless (fresh false).cursor := harmless_of_calls rfl htolerant hkeywords hfaults
  have hover : Buffer.Over (.ofSource source offset) (fresh false).cursor :=
    (Buffer.shows_atOffset hsteady offset hsize).toOver
  have hfront : ∃ bytes, Buffer.InFront (.ofSource source offset) (fresh false).cursor bytes :=
    ⟨_, hover.inFront⟩
  have hfresh : Outruns (Buffer.InFront (.ofSource source offset)) (fresh false).cursor (fresh true)
      (fresh false) := by
    refine ⟨[], ?_⟩
    exact {
      tolerant := htolerant
      references := rfl
      streams := hstreams
      key := hkey
      settings_eq := rfl
      inFront := hfront
      inFront' := hfront
      scans := .nothing
      ahead := ⟨[], .nil _, rfl⟩ }
  exact (step_object_outruns (Buffer.supplies _) hharmless
    (afterObjects_outruns (Buffer.supplies _) hharmless hfresh count)).1

/-- Integers in a row, in an array too, and a mistake behind a name. -/
theorem foresight_costs_nothing_of_integers :
    let source : Source := ⟨Latin1.ascii "/a ) 1 2 3 [4 5]", 0, true, 0, fun read _ => read % 2 + 1,
      fun _ _ => none⟩
    let settings : Settings := ⟨true, true, false, none, .rc4⟩
    let fresh (references : Bool) : Reader Buffer :=
      .new (.atOffset source 5 3) { settings with references } Request.decrypt false
    source.IsSteady ∧ settings.tolerant = true ∧ settings.streams = false ∧ settings.key = none ∧
    (∀ count text, (tokenCall (fresh false) count).parsed? = some (.ok (.keyword text)) →
      text ≠ "R" ∧ text ≠ "obj") ∧
    (∀ count n fault, (tokenCall (fresh false) count).parsed? = some (.ok (.int n)) → 0 ≤ n →
      n < Ref.idLimit → (tokenCall (fresh false) (count + 1)).parsed? ≠ some (.error fault)) ∧
    ∀ count, (objectCall (fresh true) count).outcome.mapError Failure.unplaced =
      (objectCall (fresh false) count).outcome.mapError Failure.unplaced := by
  intro source settings fresh
  have hsteady : source.IsSteady := ⟨fun read _ _ => Nat.succ_pos (read % 2), fun _ _ => rfl⟩
  have hfront : Buffer.InFront (.ofSource source 5) (fresh false).cursor (fresh false).cursor.ahead :=
    (Buffer.shows_atOffset hsteady 5 (by decide)).toOver.inFront
  have hend : ∀ {count}, 9 ≤ count → (tokenCall (fresh false) count).parsed? = some (.ok .endOfInput) :=
    tokenCall_at_end (Buffer.supplies _) rfl rfl hfront (by decide +kernel)
  have hkeywords : ∀ count text, (tokenCall (fresh false) count).parsed? = some (.ok (.keyword text)) →
      text ≠ "R" ∧ text ≠ "obj" := by
    intro count text h
    have hshort : ∀ count < 9, ((tokenCall (fresh false) count).parsed?.any fun outcome =>
        outcome.toOption.any fun token => token.isKeyword "R" || token.isKeyword "obj") = false := by
      decide +kernel
    by_cases hlt : count < 9
    · have hother := hshort count hlt
      rw [h] at hother
      simpa [Except.toOption, Obj.isKeyword] using hother
    · rw [hend (Nat.le_of_not_lt hlt)] at h
      cases h
  have hfaults : ∀ count n fault, (tokenCall (fresh false) count).parsed? = some (.ok (.int n)) →
      0 ≤ n → n < Ref.idLimit →
      (tokenCall (fresh false) (count + 1)).parsed? ≠ some (.error fault) := by
    intro count n fault h _ _ hfault
    have htokens : ∀ count < 9, count ≠ 1 → ((tokenCall (fresh false) count).parsed?.any fun outcome =>
        outcome.toOption.isSome) = true := by
      decide +kernel
    have hname : ((tokenCall (fresh false) 0).parsed?.any fun outcome =>
        outcome.toOption.any fun token => token.text?.isSome) = true := by
      decide +kernel
    by_cases hlt : count + 1 < 9
    · by_cases hone : count = 0
      · rw [hone] at h
        rw [h] at hname
        cases hname
      · have htoken := htokens (count + 1) hlt (by omega)
        rw [hfault] at htoken
        cases htoken
    · rw [hend (Nat.le_of_not_lt hlt)] at hfault
      cases hfault
  exact ⟨hsteady, rfl, rfl, rfl, hkeywords, hfaults,
    foresight_costs_nothing source 5 3 settings Request.decrypt false hsteady rfl rfl rfl hkeywords
      hfaults⟩

/-- An integer with a bracket behind it that is none of its own: there are no keywords at all, and yet the
integer is lost where references are looked for. -/
theorem foresight_costs_integer :
    let fresh (references : Bool) :=
      File.reader (Latin1.ascii "1 )") 2 ⟨true, references, false, none, .rc4⟩
    (∀ count text, (tokenCall (fresh false) count).parsed? ≠ some (.ok (.keyword text))) ∧
    (objectCall (fresh false) 0).parsed? = some (.ok (.int 1)) ∧
    (objectCall (fresh true) 0).isEnd = false ∧ (objectCall (fresh true) 1).isEnd = true ∧
    ¬ ∀ count, (objectCall (fresh true) count).outcome.mapError Failure.unplaced =
      (objectCall (fresh false) count).outcome.mapError Failure.unplaced := by
  intro fresh
  have hfront : Buffer.InFront (.ofSource (.ofData (Latin1.ascii "1 )")) 0) (fresh false).cursor
      (fresh false).cursor.ahead :=
    (File.over_reader _ (by decide) _).inFront
  have hend : ∀ {count}, 2 ≤ count → (tokenCall (fresh false) count).parsed? = some (.ok .endOfInput) :=
    tokenCall_at_end (Buffer.supplies _) rfl rfl hfront (by decide +kernel)
  have hwordless : ∀ count < 2, ((tokenCall (fresh false) count).parsed?.any fun outcome =>
      outcome.toOption.any fun token => token.text?.isSome) = false := by
    decide +kernel
  have hint : ((objectCall (fresh false) 0).parsed?.bind Except.toOption).bind (Obj.natural? 2) =
      some 1 := by
    decide +kernel
  have hfails :
      ((objectCall (fresh true) 0).outcome.mapError Failure.unplaced).toOption.isSome = false := by
    decide +kernel
  have hyields :
      ((objectCall (fresh false) 0).outcome.mapError Failure.unplaced).toOption.isSome = true := by
    decide +kernel
  refine ⟨fun count text h => ?_, ?_, by decide +kernel, by decide +kernel, fun hsame => ?_⟩
  · by_cases hlt : count < 2
    · have hnone := hwordless count hlt
      rw [h] at hnone
      cases hnone
    · rw [hend (Nat.le_of_not_lt hlt)] at h
      cases h
  · obtain ⟨obj, hobj, hnatural⟩ := Option.bind_eq_some_iff.mp hint
    obtain ⟨outcome, hparsed, houtcome⟩ := Option.bind_eq_some_iff.mp hobj
    obtain ⟨rfl, -⟩ := Reader.eq_int_of_natural? hnatural
    cases outcome with
    | error fault => cases houtcome
    | ok obj =>
      cases houtcome
      exact hparsed
  · rw [hsame 0, hyields] at hfails
    cases hfails

end PdfSyntax.Session
