import PdfSyntax.Proofs.Lexer.Written

/-!
# Where a token begins and ends

In front of a token there may be a gap of white bytes and comments, which the lexer passes over. What it
makes of the token then depends on the bytes of the token alone: the same bytes with nothing after them
come to the same. A token without brackets around it goes on as long as there are regular bytes.
-/

set_option autoImplicit false

namespace PdfSyntax.Lexer

/-- Bytes that stand in the line of a comment, after the percent sign. -/
def IsRemark (text : Bytes) : Prop :=
  ∀ b ∈ text, Byte.isLineEnd b = false

/-- White bytes and comments, each of these with the byte that ends its line. -/
inductive Gap : Bytes → Prop where
  | nil : Gap []
  | white {b : UInt8} {gap : Bytes} : Byte.isWhite b = true → Gap gap → Gap (b :: gap)
  | comment {text gap : Bytes} {b : UInt8} : IsRemark text → Byte.isLineEnd b = true → Gap gap →
    Gap (Byte.percent :: (text ++ b :: gap))

/-- Bytes that begin neither with a white byte nor with a comment. -/
def BeginsToken (bytes : Bytes) : Prop :=
  ∃ b rest, bytes = b :: rest ∧ Byte.isWhite b = false ∧ b ≠ Byte.percent

section Gaps
variable {tolerant : Bool} {gap text bytes : Bytes}

theorem scan_remark (h : IsRemark text) :
    scan tolerant .comment (text ++ bytes) = scan tolerant .comment bytes := by
  induction text with
  | nil => rfl
  | cons b text ih =>
    have hb : Byte.isLineEnd b = false := h b List.mem_cons_self
    have hstep : State.comment.step b = .more .comment := by
      simp only [State.step, hb, Bool.false_eq_true, if_false]
    rw [List.cons_append, scan_more hstep]
    exact ih fun c hc => h c (List.mem_cons_of_mem b hc)

theorem scan_percent (bytes : Bytes) :
    scan tolerant .gap (Byte.percent :: bytes) = scan tolerant .comment bytes :=
  scan_more rfl

theorem Gap.scan_eq (h : Gap gap) : scan tolerant .gap (gap ++ bytes) = scan tolerant .gap bytes := by
  induction h with
  | nil => rfl
  | white hwhite _ ih => rw [List.cons_append, scan_white hwhite, ih]
  | @comment text gap b htext hend _ ih =>
    have hstep : State.comment.step b = .more .gap := by
      simp only [State.step, hend, if_true]
    rw [List.cons_append, List.append_assoc, scan_percent, scan_remark htext, List.cons_append,
      scan_more hstep, ih]

/-- A byte after a gap that begins a token and does not end it. -/
theorem Gap.scan_opened {state : State} {b : UInt8} (h : Gap gap)
    (hstep : State.gap.step b = .more state) :
    scan tolerant .gap (gap ++ b :: bytes) = scan tolerant state bytes := by
  rw [h.scan_eq, scan_more hstep]

/-- By induction on the bytes, in front of a token and in a comment at once. -/
theorem gap_or_remark (bytes : Bytes) :
    (∃ gap rest, bytes = gap ++ rest ∧ Gap gap ∧
      (rest = [] ∨ BeginsToken rest ∨ ∃ text, rest = Byte.percent :: text ∧ IsRemark text)) ∧
    (IsRemark bytes ∨ ∃ text b rest, bytes = text ++ b :: rest ∧ IsRemark text ∧
      Byte.isLineEnd b = true) := by
  induction hn : bytes.length using Nat.strongRecOn generalizing bytes with
  | _ n ih =>
    cases bytes with
    | nil => exact ⟨⟨[], [], rfl, .nil, .inl rfl⟩, .inl (by simp [IsRemark])⟩
    | cons b bytes =>
      rw [List.length_cons] at hn
      obtain ⟨hgap, hremark⟩ := ih bytes.length (by omega) bytes rfl
      constructor
      · cases hwhite : Byte.isWhite b with
        | true =>
          obtain ⟨gap, rest, rfl, hgap, hrest⟩ := hgap
          exact ⟨b :: gap, rest, rfl, .white hwhite hgap, hrest⟩
        | false =>
          by_cases hpercent : b = Byte.percent
          · subst hpercent
            rcases hremark with htext | ⟨text, c, rest, rfl, htext, hend⟩
            · exact ⟨[], _, rfl, .nil, .inr (.inr ⟨bytes, rfl, htext⟩)⟩
            · have hless : rest.length < n := by
                rw [List.length_append, List.length_cons] at hn
                omega
              obtain ⟨⟨gap, rest, rfl, hgap, hrest⟩, -⟩ := ih rest.length hless rest rfl
              refine ⟨Byte.percent :: (text ++ c :: gap), rest, ?_, .comment htext hend hgap, hrest⟩
              simp
          · exact ⟨[], _, rfl, .nil, .inr (.inl ⟨b, bytes, rfl, hwhite, hpercent⟩)⟩
      · cases hend : Byte.isLineEnd b with
        | true => exact .inr ⟨[], b, bytes, rfl, by simp [IsRemark], hend⟩
        | false =>
          rcases hremark with htext | ⟨text, c, rest, rfl, htext, hc⟩
          · exact .inl (List.forall_mem_cons.mpr ⟨hend, htext⟩)
          · exact .inr ⟨b :: text, c, rest, rfl, List.forall_mem_cons.mpr ⟨hend, htext⟩, hc⟩

end Gaps

section Spelling
variable {state : State} {verdict : Verdict} {b : UInt8} {bytes rest : Bytes}

/-- A token that ends before a byte would end there also if the bytes did. -/
theorem finish_of_doneBefore (h : state.step b = .doneBefore verdict) : state.finish = verdict := by
  cases state <;> simp only [State.step, State.start, State.hexByte, State.literalByte,
    State.escapeByte, State.octalByte, State.nameByte, State.hexPair_eq, Verdict.keyword] at h
  all_goals repeat' split at h
  all_goals cases h
  all_goals rfl

/-- The bytes that the lexer passes over come to the same with nothing after them. -/
theorem exists_spelling (h : scan true state bytes = some (verdict, rest)) :
    ∃ word, bytes = word ++ rest ∧ scan true state word = some (verdict, []) := by
  induction bytes generalizing state with
  | nil =>
    cases h
    exact ⟨[], rfl, rfl⟩
  | cons b bytes ih =>
    cases hstep : state.step b with
    | more state' =>
      rw [scan_more hstep] at h
      obtain ⟨word, hword, hscan⟩ := ih h
      exact ⟨b :: word, congrArg (b :: ·) hword, (scan_more hstep).trans hscan⟩
    | done verdict' =>
      rw [scan_done hstep] at h
      cases h
      exact ⟨[b], rfl, scan_done hstep⟩
    | doneBefore verdict' =>
      rw [scan_doneBefore hstep] at h
      cases h
      refine ⟨[], rfl, ?_⟩
      rw [scan_nil, finish_of_doneBefore hstep]

end Spelling

/-- Whether nothing but the byte that follows a token tells where it ends. -/
def IsBare : Obj → Prop
  | .bool _ | .int _ | .real _ | .name _ => True
  | .keyword text => text ∉ ["<<", ">>", "[", "]", "\x7b", "\x7d"]
  | _ => False

section Bare
variable {tolerant : Bool} {state : State} {b : UInt8} {bytes rest : Bytes} {token : Obj}

theorem decode_delimiter : ∀ b : UInt8, Byte.isDelimiter b = true → b ≠ Byte.less → b ≠ Byte.greater →
    b ≠ Byte.leftParen → b ≠ Byte.rightParen → b ≠ Byte.slash → b ≠ Byte.percent →
    Latin1.decode [b] ∈ ["[", "]", "\x7b", "\x7d"] :=
  Byte.forall_of_fin _ (by decide +kernel)

theorem not_isBare_of_start (h : State.start b = .done (.token token)) (hpercent : b ≠ Byte.percent) :
    ¬ IsBare token := by
  simp only [State.start, Verdict.keyword] at h
  repeat' split at h
  all_goals simp only [reduceCtorEq, Action.done.injEq, Verdict.token.injEq] at h
  next hless hgreater hleft hright hslash hdelimiter =>
    subst h
    simp only [beq_iff_eq] at hless hgreater hleft hright hslash
    have hmem := decode_delimiter b hdelimiter hless hgreater hleft hright hslash hpercent
    exact fun hbare => hbare (List.mem_cons_of_mem _ (List.mem_cons_of_mem _ hmem))

/-- A byte that ends a token as part of it is a bracket. -/
theorem not_isBare_of_done (h : state.step b = .done (.token token)) : ¬ IsBare token := by
  cases state <;> simp only [State.step, State.hexByte, State.literalByte, State.escapeByte,
    State.octalByte, State.nameByte, State.hexPair_eq, Verdict.keyword] at h
  case gap =>
    split at h
    · cases h
    · split at h
      · cases h
      · next hpercent => exact not_isBare_of_start h (by simpa using hpercent)
  all_goals repeat' split at h
  all_goals simp only [reduceCtorEq, Action.done.injEq, Verdict.token.injEq] at h
  all_goals subst h
  all_goals simp [IsBare]

/-- A token ends before a byte only if it is not a regular one. -/
theorem isRegular_of_doneBefore (h : state.step b = .doneBefore (.token token)) :
    Byte.isRegular b = false := by
  cases state <;> simp only [State.step, State.start, State.hexByte, State.literalByte,
    State.escapeByte, State.octalByte, State.nameByte, State.hexPair_eq, Verdict.keyword] at h
  all_goals repeat' split at h
  all_goals simp_all

theorem terminated_of_scan (h : scan tolerant state bytes = some (.token token, rest))
    (hbare : IsBare token) : Terminated rest := by
  induction bytes generalizing state with
  | nil =>
    cases tolerant with
    | false => cases h
    | true =>
      simp only [scan_nil, Option.some.injEq, Prod.mk.injEq] at h
      rw [← h.2]
      exact fun b hb => (nomatch hb)
  | cons b bytes ih =>
    cases hstep : state.step b with
    | more state' =>
      rw [scan_more hstep] at h
      exact ih h
    | done verdict =>
      rw [scan_done hstep] at h
      cases h
      exact absurd hbare (not_isBare_of_done hstep)
    | doneBefore verdict =>
      rw [scan_doneBefore hstep] at h
      cases h
      intro c hc
      cases hc
      exact isRegular_of_doneBefore hstep

end Bare

section Begun
variable {tolerant : Bool} {state state' : State} {verdict : Verdict} {b : UInt8} {bytes rest : Bytes}

/-- Whether the lexer has read some of a token. -/
def State.HasBegun : State → Prop
  | .gap | .comment => False
  | _ => True

theorem State.HasBegun.step (h : state.HasBegun) (hstep : state.step b = .more state') :
    state'.HasBegun := by
  cases state <;> simp only [State.step, State.hexByte, State.literalByte, State.escapeByte,
    State.octalByte, State.nameByte, State.hexPair_eq] at hstep
  case gap => exact h.elim
  case comment => exact h.elim
  all_goals repeat' split at hstep
  all_goals cases hstep
  all_goals trivial

/-- Once a token has begun, the end of the input is not a token of its own. -/
theorem ne_end_of_begun (h : state.HasBegun) (hscan : scan tolerant state bytes = some (verdict, rest)) :
    verdict ≠ .token .endOfInput := by
  induction bytes generalizing state with
  | nil =>
    cases tolerant with
    | false => cases hscan
    | true =>
      simp only [scan_nil, Option.some.injEq, Prod.mk.injEq] at hscan
      rw [← hscan.1]
      cases state <;> simp only [State.finish, ne_eq, reduceCtorEq, not_false_eq_true,
        Verdict.token.injEq]
      case gap => exact fun _ => h
      case comment => exact fun _ => h
      case word read => exact fun hword => isLexeme_of_ofWord hword
  | cons b bytes ih =>
    have hlexeme : ∀ {token}, (state.step b).verdict? = some (.token token) → IsLexeme token :=
      isLexeme_of_step
    cases hstep : state.step b with
    | more state' =>
      rw [scan_more hstep] at hscan
      exact ih (h.step hstep) hscan
    | done verdict' =>
      rw [scan_done hstep] at hscan
      cases hscan
      rintro rfl
      exact hlexeme (by rw [hstep]; rfl)
    | doneBefore verdict' =>
      rw [scan_doneBefore hstep] at hscan
      cases hscan
      rintro rfl
      exact hlexeme (by rw [hstep]; rfl)

theorem hasBegun_of_start (h : State.start b = .more state) : state.HasBegun := by
  simp only [State.start] at h
  repeat' split at h
  all_goals cases h
  all_goals trivial

theorem gap_step_start (hwhite : Byte.isWhite b = false) (hpercent : b ≠ Byte.percent) :
    State.gap.step b = State.start b := by
  simp only [State.step, hwhite, Bool.false_eq_true, if_false, beq_iff_eq, hpercent]

theorem BeginsToken.ne_end (h : BeginsToken bytes)
    (hscan : scan tolerant .gap bytes = some (verdict, rest)) : verdict ≠ .token .endOfInput := by
  obtain ⟨b, bytes, rfl, hwhite, hpercent⟩ := h
  have hstart := gap_step_start hwhite hpercent
  cases hstep : State.gap.step b with
  | more state' =>
    rw [scan_more hstep] at hscan
    exact ne_end_of_begun (hasBegun_of_start (hstart.symm.trans hstep)) hscan
  | done verdict' =>
    rw [scan_done hstep] at hscan
    cases hscan
    rintro rfl
    have hverdict : (State.gap.step b).verdict? = some (.token .endOfInput) := by
      rw [hstep]
      rfl
    exact isLexeme_of_step hverdict
  | doneBefore verdict' => exact absurd hstep (gap_step_ne_doneBefore b)

end Begun

/-- What the lexer passes over up to the end of a token: a gap, and the spelling of the token. -/
structure Span (span spelling : Bytes) (verdict : Verdict) : Prop where
  gap : ∃ gap, Gap gap ∧ span = gap ++ spelling
  begins : BeginsToken spelling
  scan_eq : scan true .gap spelling = some (verdict, [])

/-- What the lexer passes over where no token comes: a gap, and a comment that does not end. -/
def IsBlank (span : Bytes) : Prop :=
  ∃ gap rest, span = gap ++ rest ∧ Gap gap ∧
    (rest = [] ∨ ∃ text, rest = Byte.percent :: text ∧ IsRemark text)

section Spans
variable {verdict : Verdict} {bytes rest : Bytes}

theorem IsBlank.scan_eq {span : Bytes} (h : IsBlank span) :
    scan true .gap span = some (.token .endOfInput, []) := by
  obtain ⟨gap, rest, rfl, hgap, hrest⟩ := h
  rw [hgap.scan_eq]
  rcases hrest with rfl | ⟨text, rfl, htext⟩
  · rfl
  · have hcomment : scan true .comment (text ++ []) = scan true .comment [] := scan_remark htext
    rw [List.append_nil] at hcomment
    rw [scan_percent, hcomment]
    rfl

/-- Bytes are blank, or what the lexer passes over of them is a gap and the spelling of a token. -/
theorem blank_or_span (h : scan true .gap bytes = some (verdict, rest)) :
    (IsBlank bytes ∧ verdict = .token .endOfInput ∧ rest = []) ∨
      ∃ span spelling, bytes = span ++ rest ∧ Span span spelling verdict := by
  obtain ⟨gap, tail, rfl, hgap, htail⟩ := (gap_or_remark bytes).1
  have hblank : (tail = [] ∨ ∃ text, tail = Byte.percent :: text ∧ IsRemark text) →
      IsBlank (gap ++ tail) ∧ verdict = .token .endOfInput ∧ rest = [] := by
    intro hrest
    have hspan : IsBlank (gap ++ tail) := ⟨gap, tail, rfl, hgap, hrest⟩
    rw [hspan.scan_eq] at h
    cases h
    exact ⟨hspan, rfl, rfl⟩
  rcases htail with hnil | ⟨b, bytes, rfl, hwhite, hpercent⟩ | hremark
  · exact .inl (hblank (.inl hnil))
  · rw [hgap.scan_eq] at h
    obtain ⟨word, hword, hscan⟩ := exists_spelling h
    refine .inr ⟨gap ++ word, word, by rw [hword, List.append_assoc], ⟨gap, hgap, rfl⟩, ?_, hscan⟩
    cases word with
    | nil =>
      have hless := length_rest_lt h
      rw [hword, List.nil_append] at hless
      exact absurd hless (Nat.lt_irrefl _)
    | cons c word =>
      cases hword
      exact ⟨b, word, rfl, hwhite, hpercent⟩
  · exact .inl (hblank (.inr hremark))

end Spans
end PdfSyntax.Lexer
