import PdfSyntax.Proofs.Lexer.Scan

/-!
# Names

After its slash a name is spelled byte by byte: a regular byte other than the number sign may stand for
itself, and the number sign with two hexadecimal digits stands for any byte. A name ends before the first
byte that is not regular. The lexer reads exactly this: any bytes begin with a spelling up to the end of
the name, or up to a number sign that begins no escape.
-/

set_option autoImplicit false

namespace PdfSyntax.Lexer

/-- Whether a word or a name that stands before bytes ends there. -/
def Terminated (rest : Bytes) : Prop :=
  ∀ b ∈ rest.head?, Byte.isRegular b = false

/-- A spelling of a name without its slash, and the bytes that it spells. -/
inductive NameSpelling : Bytes → Bytes → Prop where
  | nil : NameSpelling [] []
  | plain {b : UInt8} {spelling raw : Bytes} : Byte.isRegular b = true → b ≠ Byte.hash →
    NameSpelling spelling raw → NameSpelling (b :: spelling) (b :: raw)
  | escape {high low b : UInt8} {spelling raw : Bytes} : Byte.ofHexPair? high low = some b →
    NameSpelling spelling raw → NameSpelling (Byte.hash :: high :: low :: spelling) (b :: raw)

/-- Whether a number sign in front of bytes begins an escape: two hexadecimal digits come first. -/
def BeginsEscape (bytes : Bytes) : Prop :=
  ∃ high low b rest, bytes = high :: low :: rest ∧ Byte.ofHexPair? high low = some b

theorem Terminated.nil : Terminated [] :=
  fun _ h => (nomatch h)

theorem Terminated.of_white {rest : Bytes} {b : UInt8} (h : Byte.isWhite b = true) :
    Terminated (b :: rest) := by
  intro c hc
  obtain rfl := Option.some.inj hc
  rw [Byte.isRegular, h]
  rfl

section Steps
variable {read : Bytes} {b : UInt8}

theorem name_step_plain (hregular : Byte.isRegular b = true) (hhash : b ≠ Byte.hash) :
    (State.name read).step b = .more (.name (b :: read)) := by
  simp only [State.step, State.nameByte, beq_iff_eq, hhash, hregular, if_true, if_false]

theorem name_step_end (h : Byte.isRegular b = false) :
    (State.name read).step b = .doneBefore (.token (.name (Latin1.decode read.reverse))) := by
  have hhash : b ≠ Byte.hash := by
    rintro rfl
    cases h
  simp only [State.step, State.nameByte, beq_iff_eq, hhash, h, if_false, Bool.false_eq_true]

end Steps

section Scan
variable {tolerant : Bool} {read bytes spelling raw rest : Bytes}

theorem scan_hash : scan tolerant (.name read) (Byte.hash :: bytes) =
    scan tolerant (.nameEscape read) bytes :=
  scan_more rfl

theorem scan_nameEscape {first : UInt8} : scan tolerant (.nameEscape read) (first :: bytes) =
    scan tolerant (.nameEscapeHalf read first) bytes :=
  scan_more rfl

theorem NameSpelling.scan_eq (h : NameSpelling spelling raw) :
    scan tolerant (.name read) (spelling ++ rest) =
      scan tolerant (.name (raw.reverse ++ read)) rest := by
  induction h generalizing read with
  | nil => rfl
  | plain hregular hhash _ ih =>
    rw [List.cons_append, scan_more (name_step_plain hregular hhash), ih]
    simp
  | @escape high low b spelling raw hpair _ ih =>
    have hlow : (State.nameEscapeHalf read high).step low = .more (.name (b :: read)) := by
      simp only [State.step, State.hexPair_eq, hpair]
    rw [List.cons_append, List.cons_append, List.cons_append, scan_hash, scan_nameEscape,
      scan_more hlow, ih]
    simp

/-- The end of the bytes ends a name as well, if it is tolerated. -/
theorem scan_name_end (hrest : Terminated rest) (hend : rest = [] → tolerant = true) :
    scan tolerant (.name read) rest =
      some (.token (.name (Latin1.decode read.reverse)), rest) := by
  cases rest with
  | nil =>
    rw [hend rfl]
    rfl
  | cons b rest => exact scan_doneBefore (name_step_end (hrest b rfl))

theorem fault_of_scan_hash {verdict : Verdict} (h : ¬ BeginsEscape bytes)
    (hscan : scan tolerant (.name read) (Byte.hash :: bytes) = some (verdict, rest)) :
    verdict = .fault .malformedName := by
  rw [scan_hash] at hscan
  cases bytes with
  | nil =>
    cases tolerant <;> cases hscan
    rfl
  | cons high bytes =>
    rw [scan_nameEscape] at hscan
    cases bytes with
    | nil =>
      cases tolerant <;> cases hscan
      rfl
    | cons low bytes =>
      cases hpair : Byte.ofHexPair? high low with
      | some b => exact absurd ⟨high, low, b, bytes, rfl, hpair⟩ h
      | none =>
        have hlow : (State.nameEscapeHalf read high).step low = .done (.fault .malformedName) := by
          simp only [State.step, State.hexPair_eq, hpair]
        rw [scan_done hlow] at hscan
        cases hscan
        rfl

/-- By induction on the bytes, of which an escape takes three. -/
theorem name_cases (bytes : Bytes) : ∃ spelling raw rest, bytes = spelling ++ rest ∧
    NameSpelling spelling raw ∧
      (Terminated rest ∨ ∃ tail, rest = Byte.hash :: tail ∧ ¬ BeginsEscape tail) := by
  induction hn : bytes.length using Nat.strongRecOn generalizing bytes with
  | _ n ih =>
    cases bytes with
    | nil => exact ⟨[], [], [], rfl, .nil, .inl .nil⟩
    | cons b bytes =>
      rw [List.length_cons] at hn
      by_cases hhash : b = Byte.hash
      · subst hhash
        by_cases hescape : BeginsEscape bytes
        · obtain ⟨high, low, c, bytes, rfl, hpair⟩ := hescape
          rw [List.length_cons, List.length_cons] at hn
          obtain ⟨spelling, raw, rest, rfl, hspelling, hrest⟩ := ih _ (by omega) bytes rfl
          exact ⟨_, _, rest, rfl, .escape hpair hspelling, hrest⟩
        · exact ⟨[], [], _, rfl, .nil, .inr ⟨bytes, rfl, hescape⟩⟩
      · cases hregular : Byte.isRegular b with
        | true =>
          obtain ⟨spelling, raw, rest, rfl, hspelling, hrest⟩ := ih _ (by omega) bytes rfl
          exact ⟨_, _, rest, rfl, .plain hregular hhash hspelling, hrest⟩
        | false =>
          refine ⟨[], [], b :: bytes, rfl, .nil, .inl fun c hc => ?_⟩
          obtain rfl := Option.some.inj hc
          exact hregular

end Scan
end PdfSyntax.Lexer
