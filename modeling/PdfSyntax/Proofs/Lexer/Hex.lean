import PdfSyntax.Proofs.Lexer.Scan

/-!
# Hexadecimal strings

After its opening angle bracket a hexadecimal string is a sequence of digits, two for each byte, with
white bytes anywhere among them, and the first closing bracket ends it. The lexer reads exactly this: it
comes to a string where the bytes up to the first closing bracket are such digits, and everywhere else it
finds a fault or the end of the bytes.
-/

set_option autoImplicit false

namespace PdfSyntax.Lexer

/-- Hexadecimal digits of either case, two for each byte, and the bytes that they spell. -/
inductive HexDigits : Bytes → Bytes → Prop where
  | nil : HexDigits [] []
  | pair {high low b : UInt8} {digits value : Bytes} : Byte.ofHexPair? high low = some b →
    HexDigits digits value → HexDigits (high :: low :: digits) (b :: value)

def withoutWhite (bytes : Bytes) : Bytes :=
  bytes.filter fun b => !Byte.isWhite b

/-- Bytes after an opening angle bracket that begin with a string, with its value. -/
structure HexClosed (bytes body value rest : Bytes) : Prop where
  bytes_eq : bytes = body ++ Byte.greater :: rest
  isFirst : Byte.greater ∉ body
  digits : HexDigits (withoutWhite body) value

theorem hexValue_of_ofHexPair {high low b : UInt8} (h : Byte.ofHexPair? high low = some b) :
    (Byte.hexValue? high).isSome = true ∧ (Byte.hexValue? low).isSome = true := by
  unfold Byte.ofHexPair? at h
  cases hhigh : Byte.hexValue? high with
  | none =>
    rw [hhigh] at h
    cases h
  | some _ =>
    cases hlow : Byte.hexValue? low with
    | none =>
      rw [hhigh, hlow] at h
      cases h
    | some _ => exact ⟨rfl, rfl⟩

theorem withoutWhite_cons_of_isWhite {b : UInt8} (h : Byte.isWhite b = true) (bytes : Bytes) :
    withoutWhite (b :: bytes) = withoutWhite bytes := by
  rw [withoutWhite, List.filter_cons_of_neg (by simp [h])]
  rfl

theorem withoutWhite_cons {b : UInt8} (h : Byte.isWhite b = false) (bytes : Bytes) :
    withoutWhite (b :: bytes) = b :: withoutWhite bytes := by
  rw [withoutWhite, List.filter_cons_of_pos (by simp [h])]
  rfl

theorem withoutWhite_eq_self {bytes : Bytes} (h : ∀ b ∈ bytes, Byte.isWhite b = false) :
    withoutWhite bytes = bytes :=
  List.filter_eq_self.mpr fun b hb => by rw [h b hb]; rfl

/-- Whether bytes go on with a string up to their first closing bracket, after digits read before. -/
def ClosesHex (before bytes rest : Bytes) : Prop :=
  ∃ body value, bytes = body ++ Byte.greater :: rest ∧ Byte.greater ∉ body ∧
    HexDigits (before ++ withoutWhite body) value

namespace ClosesHex
variable {before bytes rest : Bytes} {first b c : UInt8}

theorem closed (h : ClosesHex [] bytes rest) : ∃ body value, HexClosed bytes body value rest := by
  obtain ⟨body, value, hbytes, hfirst, hdigits⟩ := h
  exact ⟨body, value, hbytes, hfirst, hdigits⟩

theorem cons_white (h : ClosesHex before bytes rest) (hwhite : Byte.isWhite b = true) :
    ClosesHex before (b :: bytes) rest := by
  obtain ⟨body, value, rfl, hfirst, hdigits⟩ := h
  have hclose : Byte.greater ≠ b := by
    rintro rfl
    cases hwhite
  refine ⟨b :: body, value, rfl, List.not_mem_cons_of_ne_of_not_mem hclose hfirst, ?_⟩
  rwa [withoutWhite_cons_of_isWhite hwhite]

theorem cons_digit (h : ClosesHex (before ++ [b]) bytes rest) (hwhite : Byte.isWhite b = false)
    (hclose : b ≠ Byte.greater) : ClosesHex before (b :: bytes) rest := by
  obtain ⟨body, value, rfl, hfirst, hdigits⟩ := h
  refine ⟨b :: body, value, rfl, List.not_mem_cons_of_ne_of_not_mem hclose.symm hfirst, ?_⟩
  rwa [withoutWhite_cons hwhite, List.append_cons]

theorem pair (h : ClosesHex [] bytes rest) (hpair : Byte.ofHexPair? first b = some c) :
    ClosesHex [first, b] bytes rest := by
  obtain ⟨body, value, hbytes, hfirst, hdigits⟩ := h
  exact ⟨body, c :: value, hbytes, hfirst, .pair hpair hdigits⟩

end ClosesHex

section Steps
variable {read : Bytes} {first b c : UInt8}

theorem hex_step_white (h : Byte.isWhite b = true) : (State.hex read).step b = .more (.hex read) := by
  simp only [State.step, State.hexByte, h, if_true]

theorem hex_step_digit (hwhite : Byte.isWhite b = false) (hclose : b ≠ Byte.greater) :
    (State.hex read).step b = .more (.hexHalf read b) := by
  simp only [State.step, State.hexByte, hwhite, Bool.false_eq_true, if_false, beq_iff_eq, hclose]

theorem hexHalf_step_white (h : Byte.isWhite b = true) :
    (State.hexHalf read first).step b = .more (.hexHalf read first) := by
  simp only [State.step, h, if_true]

theorem hexHalf_step_digit (hwhite : Byte.isWhite b = false) (h : Byte.ofHexPair? first b = some c) :
    (State.hexHalf read first).step b = .more (.hex (c :: read)) := by
  simp only [State.step, State.hexPair_eq, hwhite, Bool.false_eq_true, if_false, h]

theorem hexHalf_step_other (hwhite : Byte.isWhite b = false) (h : Byte.ofHexPair? first b = none) :
    (State.hexHalf read first).step b = .done (.fault (.malformedHex first b)) := by
  simp only [State.step, State.hexPair_eq, hwhite, Bool.false_eq_true, if_false, h]

end Steps

section Scan
variable {tolerant : Bool} {read bytes body value rest : Bytes}

/-- By induction on the bytes, between two pairs of digits and within a pair at once. -/
theorem scan_hexDigits (hfirst : Byte.greater ∉ body) :
    (∀ read value, HexDigits (withoutWhite body) value →
      scan tolerant (.hex read) (body ++ rest) = scan tolerant (.hex (value.reverse ++ read)) rest) ∧
    (∀ read first value, HexDigits (first :: withoutWhite body) value →
      scan tolerant (.hexHalf read first) (body ++ rest) =
        scan tolerant (.hex (value.reverse ++ read)) rest) := by
  induction body with
  | nil =>
    constructor
    · intro read value h
      cases h
      rfl
    · intro read first value h
      cases h
  | cons b body ih =>
    have hclose := List.ne_of_not_mem_cons hfirst
    obtain ⟨hbetween, hwithin⟩ := ih (List.not_mem_of_not_mem_cons hfirst)
    cases hwhite : Byte.isWhite b with
    | true =>
      rw [withoutWhite_cons_of_isWhite hwhite]
      constructor
      · intro read value h
        rw [List.cons_append, scan_more (hex_step_white hwhite), hbetween read value h]
      · intro read first value h
        rw [List.cons_append, scan_more (hexHalf_step_white hwhite), hwithin read first value h]
    | false =>
      rw [withoutWhite_cons hwhite]
      constructor
      · intro read value h
        rw [List.cons_append, scan_more (hex_step_digit hwhite (Ne.symm hclose)),
          hwithin read b value h]
      · intro read first value h
        cases h with
        | @pair _ _ c _ value hpair hdigits =>
          rw [List.cons_append, scan_more (hexHalf_step_digit hwhite hpair),
            hbetween (c :: read) value hdigits, List.reverse_cons, List.append_assoc,
            List.singleton_append]

theorem HexClosed.scan_eq (h : HexClosed bytes body value rest) :
    scan tolerant (.hex read) bytes = some (.token (.str (read.reverse ++ value)), rest) := by
  rw [h.bytes_eq, (scan_hexDigits h.isFirst).1 read value h.digits]
  have hclose : (State.hex (value.reverse ++ read)).step Byte.greater =
      .done (.token (.str (value.reverse ++ read).reverse)) := rfl
  rw [scan_done hclose, List.reverse_append, List.reverse_reverse]

/-- Whatever is no fault is the string up to the first closing bracket; within a pair, its first digit was
read before. -/
theorem closes_of_scan_hex {verdict : Verdict} :
    (∀ read, scan tolerant (.hex read) bytes = some (verdict, rest) →
      (∃ fault, verdict = .fault fault) ∨ ClosesHex [] bytes rest) ∧
    (∀ read first, scan tolerant (.hexHalf read first) bytes = some (verdict, rest) →
      (∃ fault, verdict = .fault fault) ∨ ClosesHex [first] bytes rest) := by
  induction bytes with
  | nil =>
    cases tolerant with
    | false => exact ⟨fun _ h => (nomatch h), fun _ _ h => (nomatch h)⟩
    | true =>
      constructor
      · intro read h
        cases h
        exact .inl ⟨_, rfl⟩
      · intro read first h
        cases h
        exact .inl ⟨_, rfl⟩
  | cons b bytes ih =>
    obtain ⟨hbetween, hwithin⟩ := ih
    cases hwhite : Byte.isWhite b with
    | true =>
      constructor
      · intro read h
        rw [scan_more (hex_step_white hwhite)] at h
        exact (hbetween read h).imp_right (·.cons_white hwhite)
      · intro read first h
        rw [scan_more (hexHalf_step_white hwhite)] at h
        exact (hwithin read first h).imp_right (·.cons_white hwhite)
    | false =>
      constructor
      · intro read h
        by_cases hclose : b = Byte.greater
        · subst hclose
          have hdone : (State.hex read).step Byte.greater = .done (.token (.str read.reverse)) := rfl
          rw [scan_done hdone] at h
          cases h
          exact .inr ⟨[], [], rfl, List.not_mem_nil, .nil⟩
        · rw [scan_more (hex_step_digit hwhite hclose)] at h
          exact (hwithin read b h).imp_right (·.cons_digit hwhite hclose)
      · intro read first h
        cases hpair : Byte.ofHexPair? first b with
        | none =>
          rw [scan_done (hexHalf_step_other hwhite hpair)] at h
          cases h
          exact .inl ⟨_, rfl⟩
        | some c =>
          have hclose : b ≠ Byte.greater := by
            rintro rfl
            exact absurd (hexValue_of_ofHexPair hpair).2 (by decide)
          rw [scan_more (hexHalf_step_digit hwhite hpair)] at h
          exact (hbetween (c :: read) h).imp_right
            fun hcloses => (hcloses.pair hpair).cons_digit hwhite hclose

/-- After the first angle bracket any byte but a second one belongs to a hexadecimal string, and so does
the end of the bytes. -/
theorem scan_less (h : bytes.head? ≠ some Byte.less) :
    scan tolerant .less bytes = scan tolerant (.hex []) bytes := by
  apply scan_congr
  · rfl
  · intro b hb
    have hne : b ≠ Byte.less := by
      rintro rfl
      exact h hb
    simp only [State.step, beq_iff_eq, hne, if_false]

end Scan
end PdfSyntax.Lexer
