import PdfSyntax.Lexer

/-!
# The lexer on a sequence of bytes

`scan` runs the lexer over bytes at hand, and tells its verdict with the bytes it leaves. It comes to
nothing only where the bytes end and that is not tolerated. A tolerated end is met as often as it takes.
-/

set_option autoImplicit false

namespace PdfSyntax

/-- Whether a mistake is one inside a token. -/
def Fault.isLexical : Fault → Bool
  | unexpectedDelimiter _ | unterminatedHex | malformedHex .. | octalOverflow _ | unknownEscape _
  | malformedName | integerRange _ | emptyReal _ => true
  | _ => false

theorem Fault.kind_of_isLexical {fault : Fault} (h : fault.isLexical = true) : fault.kind = .input := by
  cases fault <;> first | rfl | cases h

namespace Lexer

def Action.verdict? : Action → Option Verdict
  | .more _ => none
  | .done verdict => some verdict
  | .doneBefore verdict => some verdict

/-- As long as no end was met, bytes come in time. -/
theorem State.take_of_not_ended {isEnded : Bool} (h : isEnded = false) (state : State) (b : UInt8) :
    state.take isEnded b = state.step b := by
  rw [h]
  rfl

/-- Each digit that was tested for has a value. -/
theorem State.hexPair_eq (first second : UInt8) (next : UInt8 → State) (fault : Fault) :
    hexPair first second next fault =
      match Byte.ofHexPair? first second with
      | some c => .more (next c)
      | none => .done (.fault fault) := by
  have hfirst := Byte.hexValue?_isSome first
  have hsecond := Byte.hexValue?_isSome second
  simp only [hexPair, ← hfirst, ← hsecond, Byte.ofHexPair?]
  cases Byte.hexValue? first <;> cases Byte.hexValue? second <;> rfl

/-- The verdict where nothing comes any more. In front of a token the line feed that stands for the end is
white, and as the end was met the gap is over; a comment ends with it. It ends names and words, and it makes
no `>>` of a bracket. In a hexadecimal string it stands for a digit, once or twice, and the end is noticed
behind the pair before the digits are looked at; the escape of a name looks at them. A literal string
notices the end at once, but in an escape first takes the line feed for the byte that is escaped, for the
rest of a line end, or for one that is no digit. -/
def State.finish : State → Verdict
  | .gap | .comment => .token .endOfInput
  | .less | .hex _ | .hexHalf .. => .fault .unterminatedHex
  | .greater => .fault (.unexpectedDelimiter Byte.greater)
  | .literal _ read | .escape _ read | .escapedReturn _ read => .cutShort read.reverse
  | .octal _ read value _ => .cutShort (UInt8.ofNat value :: read).reverse
  | .name read => .token (.name (Latin1.decode read.reverse))
  | .nameEscape _ | .nameEscapeHalf .. => .fault .malformedName
  | .word read => .ofWord read.reverse

/-- Where the lexer is done with a line feed for the end, that is the verdict. -/
theorem finish_of_fill {state : State} {verdict : Verdict}
    (h : state.fill.verdict? = some verdict) : state.finish = verdict := by
  cases state <;>
    simp +decide [State.fill, State.stepLate, State.lateHexByte, State.step, State.escapeByte, escaped?,
      State.nameByte, State.hexPair, Action.verdict?, State.finish] at h ⊢ <;> exact h

/-- Where the lexer goes on, the verdict is yet to come. -/
theorem finish_of_fill_more {state state' : State} (h : state.fill = .more state') :
    state'.finish = state.finish := by
  cases state <;>
    simp +decide [State.fill, State.stepLate, State.lateHexByte, State.step, State.escapeByte, escaped?,
      State.nameByte, State.hexPair] at h
  all_goals subst h; rfl

def scan (tolerant : Bool) : State → Bytes → Option (Verdict × Bytes)
  | state, [] => if tolerant then some (state.finish, []) else none
  | state, b :: bytes =>
    match state.step b with
    | .more state => scan tolerant state bytes
    | .done verdict => some (verdict, bytes)
    | .doneBefore verdict => some (verdict, b :: bytes)

section Step
variable {tolerant : Bool} {state state' : State} {verdict : Verdict} {b : UInt8} {bytes : Bytes}
variable {rest : Bytes}

theorem scan_nil (state : State) : scan true state [] = some (state.finish, []) := rfl

theorem scan_more (h : state.step b = .more state') :
    scan tolerant state (b :: bytes) = scan tolerant state' bytes := by
  simp only [scan, h]

theorem scan_done (h : state.step b = .done verdict) :
    scan tolerant state (b :: bytes) = some (verdict, bytes) := by
  simp only [scan, h]

theorem scan_doneBefore (h : state.step b = .doneBefore verdict) :
    scan tolerant state (b :: bytes) = some (verdict, b :: bytes) := by
  simp only [scan, h]

/-- A tolerated end is no other one if it is met once more. -/
theorem scan_again (h : state.fill = .more state') : scan tolerant state [] = scan tolerant state' [] := by
  rw [scan, scan, finish_of_fill_more h]

theorem scan_end (h : state.fill.verdict? = some verdict) : scan true state [] = some (verdict, []) := by
  rw [scan_nil, finish_of_fill h]

/-- States that treat the next byte alike, and the end of the bytes too, come to the same. -/
theorem scan_congr (hfinish : state.finish = state'.finish)
    (hstep : ∀ b ∈ bytes.head?, state.step b = state'.step b) :
    scan tolerant state bytes = scan tolerant state' bytes := by
  cases bytes with
  | nil => simp only [scan, hfinish]
  | cons b bytes => simp only [scan, hstep b rfl]

theorem suffix_of_scan (h : scan tolerant state bytes = some (verdict, rest)) : rest <:+ bytes := by
  induction bytes generalizing state with
  | nil =>
    cases tolerant with
    | false => cases h
    | true =>
      cases h
      exact List.nil_suffix
  | cons b bytes ih =>
    cases hstep : state.step b with
    | more state' =>
      rw [scan_more hstep] at h
      exact (ih h).trans (List.suffix_cons b bytes)
    | done verdict =>
      rw [scan_done hstep] at h
      cases h
      exact List.suffix_cons _ _
    | doneBefore verdict =>
      rw [scan_doneBefore hstep] at h
      cases h
      exact List.suffix_refl _

end Step

section Verdicts
variable {tolerant : Bool} {state : State} {verdict : Verdict} {b : UInt8} {bytes rest : Bytes}

theorem eq_of_scan (h : scan tolerant state bytes = some (verdict, rest)) :
    (∃ state' b, (State.step state' b).verdict? = some verdict) ∨
      (rest = [] ∧ ∃ state' : State, state'.finish = verdict) := by
  induction bytes generalizing state with
  | nil =>
    cases tolerant with
    | false => cases h
    | true =>
      cases h
      exact .inr ⟨rfl, state, rfl⟩
  | cons b bytes ih =>
    cases hstep : state.step b with
    | more state' =>
      rw [scan_more hstep] at h
      exact ih h
    | done verdict =>
      rw [scan_done hstep] at h
      cases h
      exact .inl ⟨state, b, by rw [hstep]; rfl⟩
    | doneBefore verdict =>
      rw [scan_doneBefore hstep] at h
      cases h
      exact .inl ⟨state, b, by rw [hstep]; rfl⟩

/-- Whether an object is a token of bytes. -/
def IsLexeme : Obj → Prop
  | .bool _ | .int _ | .real _ | .str _ | .name _ | .keyword _ => True
  | _ => False

theorem IsLexeme.isEnd_eq_false {token : Obj} (h : IsLexeme token) : token.isEnd = false := by
  cases token <;> first | rfl | exact h.elim

theorem isLexeme_of_ofWord {word : Bytes} {token : Obj} (h : Verdict.ofWord word = .token token) :
    IsLexeme token := by
  unfold Verdict.ofWord at h
  split at h <;> cases h <;> trivial

/-- What the lexer makes of bytes. -/
inductive IsMade : Obj → Prop where
  | word {word : Bytes} {token : Obj} : Verdict.ofWord word = .token token → IsMade token
  | keyword (text : String) : IsMade (.keyword text)
  | str (bytes : Bytes) : IsMade (.str bytes)
  | name (bytes : Bytes) : IsMade (.name (Latin1.decode bytes))

theorem IsMade.isLexeme {token : Obj} (h : IsMade token) : IsLexeme token := by
  cases h with
  | word h => exact isLexeme_of_ofWord h
  | _ => trivial

theorem isMade_of_step {b : UInt8} {token : Obj}
    (h : (state.step b).verdict? = some (.token token)) : IsMade token := by
  cases state <;> simp only [State.step, State.start, State.hexByte, State.literalByte,
    State.escapeByte, State.octalByte, State.nameByte, State.hexPair_eq, Verdict.keyword] at h
  all_goals repeat' split at h
  all_goals simp only [Action.verdict?, Option.some.injEq, reduceCtorEq, Verdict.token.injEq] at h
  all_goals first | exact .word h | subst h
  all_goals first | exact .keyword _ | exact .str _ | exact .name _

theorem isMade_of_finish {token : Obj} (h : state.finish = .token token) :
    IsMade token ∨ token = .endOfInput := by
  cases state <;> simp only [State.finish, reduceCtorEq, Verdict.token.injEq] at h
  case name read => exact .inl (h ▸ .name _)
  case word read => exact .inl (.word h)
  all_goals exact .inr h.symm

theorem isLexeme_of_step {b : UInt8} {token : Obj}
    (h : (state.step b).verdict? = some (.token token)) : IsLexeme token :=
  (isMade_of_step h).isLexeme

theorem isLexeme_of_finish {token : Obj} (h : state.finish = .token token) :
    IsLexeme token ∨ token = .endOfInput :=
  (isMade_of_finish h).imp_left IsMade.isLexeme

theorem isLexical_of_ofWord {word : Bytes} {fault : Fault} (h : Verdict.ofWord word = .fault fault) :
    fault.isLexical = true := by
  unfold Verdict.ofWord at h
  split at h <;> cases h <;> rfl

theorem isLexical_of_step {b : UInt8} {fault : Fault}
    (h : (state.step b).verdict? = some (.fault fault)) : fault.isLexical = true := by
  cases state <;> simp only [State.step, State.start, State.hexByte, State.literalByte,
    State.escapeByte, State.octalByte, State.nameByte, State.hexPair_eq, Verdict.keyword] at h
  all_goals repeat' split at h
  all_goals simp only [Action.verdict?, Option.some.injEq, reduceCtorEq, Verdict.fault.injEq] at h
  all_goals first | exact isLexical_of_ofWord h | subst h; rfl

theorem isLexical_of_finish {fault : Fault} (h : state.finish = .fault fault) :
    fault.isLexical = true := by
  cases state <;> simp only [State.finish, reduceCtorEq, Verdict.fault.injEq] at h
  all_goals first | exact isLexical_of_ofWord h | subst h; rfl

/-- A byte that comes late brings about what it would in time, or what the end would. -/
theorem eq_of_take {isEnded : Bool} {b : UInt8} (h : (state.take isEnded b).verdict? = some verdict) :
    (state.step b).verdict? = some verdict ∨ state.finish = verdict := by
  cases isEnded with
  | false => exact .inl h
  | true =>
    cases state <;> simp only [State.take, if_true, State.stepLate, State.lateHexByte] at h
    case gap =>
      split at h
      · exact .inr (Option.some.inj h)
      · exact .inl h
    case comment =>
      split at h
      · exact .inr (Option.some.inj h)
      · cases h
    case less =>
      repeat' split at h
      all_goals simp_all +decide [State.step, State.hexByte, Action.verdict?]
    case hex read =>
      split at h
      · simp_all +decide [State.step, State.hexByte, Action.verdict?]
      · cases h
    case hexHalf => exact .inr (Option.some.inj h)
    case literal => exact .inr (Option.some.inj h)
    case escapedReturn =>
      split at h
      · cases h
      · exact .inr (Option.some.inj h)
    case octal =>
      split at h
      · exact .inl h
      · exact .inr (Option.some.inj h)
    all_goals exact .inl h

/-- Whether the lexer comes to a verdict at all, by a step or at the end. -/
def Verdict.IsReached (verdict : Verdict) : Prop :=
  (∃ (state : State) (b : UInt8), (state.step b).verdict? = some verdict) ∨
    ∃ state : State, state.finish = verdict

theorem isReached_of_take {isEnded : Bool} {b : UInt8}
    (h : (state.take isEnded b).verdict? = some verdict) : verdict.IsReached :=
  (eq_of_take h).imp (fun h => ⟨state, b, h⟩) fun h => ⟨state, h⟩

theorem isReached_of_fill (h : state.fill.verdict? = some verdict) : verdict.IsReached :=
  .inr ⟨state, finish_of_fill h⟩

namespace Verdict.IsReached

theorem isMade {token : Obj} (h : (Verdict.token token).IsReached) :
    IsMade token ∨ token = .endOfInput := by
  rcases h with ⟨state, b, h⟩ | ⟨state, h⟩
  · exact .inl (isMade_of_step h)
  · exact isMade_of_finish h

theorem isLexical {fault : Fault} (h : (Verdict.fault fault).IsReached) : fault.isLexical = true := by
  rcases h with ⟨state, b, h⟩ | ⟨state, h⟩
  · exact isLexical_of_step h
  · exact isLexical_of_finish h

end Verdict.IsReached

/-- Past the end of the input nothing is left, and anything else is a token of bytes. -/
theorem isLexeme_of_scan {token : Obj} (h : scan tolerant state bytes = some (.token token, rest)) :
    IsLexeme token ∨ (token = .endOfInput ∧ rest = []) := by
  rcases eq_of_scan h with ⟨state', b, hstep⟩ | ⟨hrest, state', hfinish⟩
  · exact .inl (isLexeme_of_step hstep)
  · rcases isLexeme_of_finish hfinish with htoken | htoken
    · exact .inl htoken
    · exact .inr ⟨htoken, hrest⟩

theorem gap_step_ne_doneBefore (b : UInt8) : State.gap.step b ≠ .doneBefore verdict := by
  simp only [State.step, State.start, Verdict.keyword]
  repeat' split
  all_goals simp

theorem gap_take_ne_doneBefore (isEnded : Bool) (b : UInt8) :
    State.gap.take isEnded b ≠ .doneBefore verdict := by
  cases isEnded with
  | false => exact gap_step_ne_doneBefore b
  | true =>
    simp only [State.take, if_true, State.stepLate]
    split
    · simp
    · exact gap_step_ne_doneBefore b

theorem length_rest_lt (h : scan tolerant .gap (b :: bytes) = some (verdict, rest)) :
    rest.length < (b :: bytes).length := by
  cases hstep : State.gap.step b with
  | more state' =>
    rw [scan_more hstep] at h
    exact Nat.lt_succ_of_le (suffix_of_scan h).length_le
  | done verdict =>
    rw [scan_done hstep] at h
    cases h
    exact Nat.lt_succ_self _
  | doneBefore verdict => exact absurd hstep (gap_step_ne_doneBefore b)

end Verdicts

section Words
variable {tolerant : Bool} {state state' : State} {b : UInt8} {bytes rest : Bytes} {text : String}

def State.begun : State → Bytes
  | .word read => read.reverse
  | _ => []

theorem begun_suffix_of_step (h : state.step b = .more state') :
    state'.begun <:+ state.begun ++ [b] := by
  cases state <;> simp only [State.step, State.start, State.hexByte, State.literalByte,
    State.escapeByte, State.octalByte, State.nameByte, State.hexPair_eq] at h
  all_goals repeat' split at h
  all_goals cases h
  all_goals simp [State.begun]

/-- Keywords are brackets of one or two bytes, or they are words. -/
theorem keyword_of_step (h : (state.step b).verdict? = some (.token (.keyword text))) :
    text = "<<" ∨ text = ">>" ∨ text = Latin1.decode [b] ∨
      ∃ read, state = .word read ∧ state.step b = .doneBefore (.ofWord read.reverse) := by
  cases state <;> simp only [State.step, State.start, State.hexByte, State.literalByte,
    State.escapeByte, State.octalByte, State.nameByte, State.hexPair_eq, Verdict.keyword] at h ⊢
  all_goals repeat' split at h
  all_goals simp_all [Action.verdict?]

theorem keyword_of_finish (h : state.finish = .token (.keyword text)) :
    ∃ read, state = .word read := by
  cases state <;> simp_all [State.finish]

theorem eq_decode_of_ofWord {word : Bytes} (h : Verdict.ofWord word = .token (.keyword text)) :
    text = Latin1.decode word := by
  unfold Verdict.ofWord at h
  split at h <;> simp_all

/-- A keyword that is no bracket stands right before the bytes that are left. -/
theorem word_of_scan (h : scan tolerant state bytes = some (.token (.keyword text), rest))
    (hless : text ≠ "<<") (hgreater : text ≠ ">>") (hlength : text.length ≠ 1) :
    ∃ word, text = Latin1.decode word ∧ word ++ rest <:+ state.begun ++ bytes := by
  induction bytes generalizing state with
  | nil =>
    cases tolerant with
    | false => cases h
    | true =>
      rw [scan_nil] at h
      simp only [Option.some.injEq, Prod.mk.injEq] at h
      obtain ⟨hfinish, rfl⟩ := h
      obtain ⟨read, rfl⟩ := keyword_of_finish hfinish
      exact ⟨read.reverse, eq_decode_of_ofWord hfinish, List.suffix_refl _⟩
  | cons b bytes ih =>
    have hkeyword : (state.step b).verdict? = some (.token (.keyword text)) → _ := keyword_of_step
    cases hstep : state.step b with
    | more state' =>
      rw [scan_more hstep] at h
      obtain ⟨word, htext, hsuffix⟩ := ih h
      refine ⟨word, htext, hsuffix.trans ?_⟩
      obtain ⟨dropped, hdropped⟩ := begun_suffix_of_step hstep
      exact ⟨dropped, by rw [← List.append_assoc, hdropped]; simp⟩
    | done verdict =>
      rw [scan_done hstep] at h
      cases h
      rw [hstep] at hkeyword
      rcases hkeyword rfl with h | h | h | ⟨read, rfl, h⟩
      · exact absurd h hless
      · exact absurd h hgreater
      · rw [h] at hlength
        simp [Latin1.decode] at hlength
      · cases h
    | doneBefore verdict =>
      rw [scan_doneBefore hstep] at h
      cases h
      rw [hstep] at hkeyword
      rcases hkeyword rfl with h | h | h | ⟨read, rfl, h⟩
      · exact absurd h hless
      · exact absurd h hgreater
      · rw [h] at hlength
        simp [Latin1.decode] at hlength
      · simp only [Action.doneBefore.injEq] at h
        exact ⟨read.reverse, eq_decode_of_ofWord h.symm, List.suffix_refl _⟩

end Words
end Lexer
end PdfSyntax
