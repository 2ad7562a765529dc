import PdfSyntax.Proofs.Lexer.Scan

/-!
# Literal strings

After its opening parenthesis a literal string is a sequence of items: raw bytes, balanced groups in
parentheses, and escapes. The first parenthesis that closes more than was opened ends it. The lexer keeps
only the number of groups that are open, and reads exactly this grammar: scanning items does nothing but
add their values to what was read, and any bytes whatever begin with items up to the end of the string,
to a wrong escape, or to the end of the bytes.
-/

set_option autoImplicit false

namespace PdfSyntax.Lexer

/-- Octal digits and the number that they spell. -/
inductive Octal : Bytes → Nat → Prop where
  | one {b : UInt8} {digit : Nat} : Byte.octalValue? b = some digit → Octal [b] digit
  | more {digits : Bytes} {value : Nat} {b : UInt8} {digit : Nat} :
    Octal digits value → Byte.octalValue? b = some digit → Octal (digits ++ [b]) (8 * value + digit)

/-- Whether digits are as many as there may be, or the following byte is no digit. -/
def IsGreedy (digits following : Bytes) : Prop :=
  digits.length = 3 ∨ digits.length < 3 ∧ ∀ b ∈ following.head?, Byte.octalValue? b = none

/-- What stands after a backslash, with its value, in front of the bytes that follow. -/
inductive Escape : Bytes → Bytes → Bytes → Prop where
  | letter {b c : UInt8} {following : Bytes} : escaped? b = some c → Escape [b] [c] following
  | lineFeed {following : Bytes} : Escape [Byte.lineFeed] [] following
  | returnLineFeed {following : Bytes} : Escape [Byte.carriageReturn, Byte.lineFeed] [] following
  | loneReturn {following : Bytes} : following.head? ≠ some Byte.lineFeed →
    Escape [Byte.carriageReturn] [] following
  | octal {digits following : Bytes} {value : Nat} : Octal digits value → IsGreedy digits following →
    value ≤ 255 → Escape digits [UInt8.ofNat value] following

/-- What stands after a backslash and is no escape. -/
inductive BadEscape : Bytes → Fault → Prop where
  | unknown {b : UInt8} : escaped? b = none → b ≠ Byte.carriageReturn → b ≠ Byte.lineFeed →
    Byte.octalValue? b = none → BadEscape [b] (.unknownEscape b)
  | octal {digits : Bytes} {value : Nat} : Octal digits value → digits.length = 3 → 255 < value →
    BadEscape digits (.octalOverflow value)

/-- Items that leave so many groups open, with their value, in front of the bytes that follow. -/
inductive Items : Nat → Bytes → Bytes → Bytes → Prop where
  | nil {following : Bytes} : Items 0 [] [] following
  | raw {depth : Nat} {b : UInt8} {spelling value following : Bytes} :
    b ≠ Byte.leftParen → b ≠ Byte.rightParen → b ≠ Byte.backslash →
    Items depth spelling value following → Items depth (b :: spelling) (b :: value) following
  | group {depth : Nat} {inner innerValue spelling value following : Bytes} :
    Items 0 inner innerValue (Byte.rightParen :: (spelling ++ following)) →
    Items depth spelling value following →
    Items depth (Byte.leftParen :: (inner ++ Byte.rightParen :: spelling))
      (Byte.leftParen :: (innerValue ++ Byte.rightParen :: value)) following
  | opened {depth : Nat} {spelling value following : Bytes} : Items depth spelling value following →
    Items (depth + 1) (Byte.leftParen :: spelling) (Byte.leftParen :: value) following
  | escape {depth : Nat} {escape byte spelling value following : Bytes} :
    Escape escape byte (spelling ++ following) → Items depth spelling value following →
    Items depth (Byte.backslash :: (escape ++ spelling)) (byte ++ value) following

/-- Bytes after an opening parenthesis that begin with a string, with its value. -/
structure Closed (bytes spelling value rest : Bytes) : Prop where
  bytes_eq : bytes = spelling ++ Byte.rightParen :: rest
  items : Items 0 spelling value (Byte.rightParen :: rest)

/-- Bytes after an opening parenthesis in which a wrong escape comes before the end of the string. -/
structure Faulty (bytes spelling bad rest : Bytes) (fault : Fault) : Prop where
  bytes_eq : bytes = spelling ++ Byte.backslash :: (bad ++ rest)
  items : ∃ depth value, Items depth spelling value (Byte.backslash :: (bad ++ rest))
  isBad : BadEscape bad fault

/-- Bytes after an opening parenthesis that end before the string does, at most with a backslash. -/
structure Unclosed (bytes value : Bytes) : Prop where
  items : ∃ depth spelling tail, bytes = spelling ++ tail ∧ (tail = [] ∨ tail = [Byte.backslash]) ∧
    Items depth spelling value tail

section Scan
variable {tolerant : Bool} {depth : Nat} {read : Bytes}

section Literal
variable {b : UInt8} {bytes : Bytes}

theorem scan_raw (hleft : b ≠ Byte.leftParen) (hright : b ≠ Byte.rightParen)
    (hescape : b ≠ Byte.backslash) : scan tolerant (.literal depth read) (b :: bytes) =
      scan tolerant (.literal depth (b :: read)) bytes := by
  apply scan_more
  simp only [State.step, State.literalByte, beq_iff_eq, hleft, hright, hescape, if_false]

theorem scan_leftParen : scan tolerant (.literal depth read) (Byte.leftParen :: bytes) =
    scan tolerant (.literal (depth + 1) (Byte.leftParen :: read)) bytes :=
  scan_more rfl

theorem scan_rightParen : scan tolerant (.literal (depth + 1) read) (Byte.rightParen :: bytes) =
    scan tolerant (.literal depth (Byte.rightParen :: read)) bytes :=
  scan_more rfl

theorem scan_close : scan tolerant (.literal 0 read) (Byte.rightParen :: bytes) =
    some (.token (.str read.reverse), bytes) :=
  scan_done rfl

theorem scan_backslash : scan tolerant (.literal depth read) (Byte.backslash :: bytes) =
    scan tolerant (.escape depth read) bytes :=
  scan_more rfl

end Literal

theorem octal_lt_eight {b : UInt8} {digit : Nat} (h : Byte.octalValue? b = some digit) : digit < 8 := by
  unfold Byte.octalValue? at h
  split at h
  · next hrange =>
    cases h
    have hle : b.toNat ≤ 0x37 := UInt8.le_iff_toNat_le.mp hrange.2
    omega
  · cases h

theorem octal_apart : ∀ b : UInt8, (Byte.octalValue? b).isSome = true →
    escaped? b = none ∧ b ≠ Byte.carriageReturn ∧ b ≠ Byte.lineFeed :=
  Byte.forall_of_fin _ (by decide +kernel)

namespace Octal
variable {digits bytes : Bytes} {value : Nat}

theorem length_pos (h : Octal digits value) : 0 < digits.length := by
  cases h <;> simp

/-- The first digit is told by the byte after the backslash, the others one by one. -/
theorem scan_digits (h : Octal digits value) (hlength : digits.length ≤ 2) :
    scan tolerant (.escape depth read) (digits ++ bytes) =
      scan tolerant (.octal depth read value digits.length) bytes := by
  induction h generalizing bytes with
  | @one b digit hdigit =>
    obtain ⟨hescaped, hreturn, hfeed⟩ := octal_apart b (by rw [hdigit]; rfl)
    apply scan_more
    simp only [State.step, State.escapeByte, hescaped, beq_iff_eq, hreturn, hfeed, if_false, hdigit,
      List.length_singleton]
  | @more digits value b digit h hdigit ih =>
    rw [List.length_append, List.length_singleton] at hlength ⊢
    rw [List.append_assoc, ih (by omega)]
    apply scan_more
    simp only [State.step, State.octalByte, hdigit]
    rw [if_pos (by omega)]

/-- Three digits spell a byte, or a number that is too large for one. -/
theorem scan_three (h : Octal digits value) (hlength : digits.length = 3) :
    scan tolerant (.escape depth read) (digits ++ bytes) =
      if 255 < value then some (.fault (.octalOverflow value), bytes)
      else scan tolerant (.literal depth (UInt8.ofNat value :: read)) bytes := by
  cases h with
  | one _ => simp at hlength
  | @more digits value b digit h hdigit =>
    rw [List.length_append, List.length_singleton] at hlength
    rw [List.append_assoc, h.scan_digits (by omega)]
    by_cases hvalue : 255 < 8 * value + digit
    · rw [if_pos hvalue]
      apply scan_done
      simp only [State.step, State.octalByte, hdigit, if_pos hvalue]
      rw [if_neg (by omega)]
    · rw [if_neg hvalue]
      apply scan_more
      simp only [State.step, State.octalByte, hdigit, if_neg hvalue]
      rw [if_neg (by omega)]

theorem lt_pow (h : Octal digits value) : value < Nat.pow 8 digits.length := by
  induction h with
  | one h => exact octal_lt_eight h
  | @more digits value _ digit _ hdigit ih =>
    have hlt := octal_lt_eight hdigit
    rw [List.length_append, List.length_singleton]
    change 8 * value + digit < Nat.pow 8 digits.length * 8
    omega

end Octal

/-- After fewer than three digits the escape is over where no digit follows. -/
theorem scan_octal_end {value digits : Nat} {bytes : Bytes}
    (h : ∀ b ∈ bytes.head?, Byte.octalValue? b = none) :
    scan tolerant (.octal depth read value digits) bytes =
      scan tolerant (.literal depth (UInt8.ofNat value :: read)) bytes := by
  apply scan_congr
  · rfl
  · intro b hb
    simp only [State.step, State.octalByte, h b hb]

theorem scan_return_end {bytes : Bytes} (h : bytes.head? ≠ some Byte.lineFeed) :
    scan tolerant (.escapedReturn depth read) bytes = scan tolerant (.literal depth read) bytes := by
  apply scan_congr
  · rfl
  · intro b hb
    have hne : b ≠ Byte.lineFeed := by
      rintro rfl
      exact h hb
    simp only [State.step, beq_iff_eq, hne, if_false]

theorem Escape.scan_eq {escape byte following : Bytes} (h : Escape escape byte following) :
    scan tolerant (.escape depth read) (escape ++ following) =
      scan tolerant (.literal depth (byte.reverse ++ read)) following := by
  cases h with
  | letter h =>
    apply scan_more
    simp only [State.step, State.escapeByte, h]
    rfl
  | lineFeed => exact scan_more rfl
  | returnLineFeed => exact (scan_more rfl).trans (scan_more rfl)
  | loneReturn h => exact (scan_more rfl).trans (scan_return_end h)
  | octal h hgreedy hvalue =>
    rcases hgreedy with hthree | ⟨hless, hend⟩
    · rw [h.scan_three hthree, if_neg (by omega)]
      rfl
    · rw [h.scan_digits (by omega), scan_octal_end hend]
      rfl

theorem BadEscape.scan_eq {bad rest : Bytes} {fault : Fault} (h : BadEscape bad fault) :
    scan tolerant (.escape depth read) (bad ++ rest) = some (.fault fault, rest) := by
  cases h with
  | unknown hescaped hreturn hfeed hoctal =>
    apply scan_done
    simp only [State.step, State.escapeByte, hescaped, beq_iff_eq, hreturn, hfeed, if_false, hoctal]
  | octal h hlength hvalue => rw [h.scan_three hlength, if_pos hvalue]

/-- By induction on the items: what the lexer has read grows by their value, and what it counts by the
groups that they leave open. -/
theorem Items.scan_eq {opened : Nat} {spelling value following : Bytes}
    (h : Items opened spelling value following) :
    scan tolerant (.literal depth read) (spelling ++ following) =
      scan tolerant (.literal (depth + opened) (value.reverse ++ read)) following := by
  induction h generalizing depth read with
  | nil => rfl
  | raw hleft hright hescape _ ih =>
    rw [List.cons_append, scan_raw hleft hright hescape, ih]
    simp
  | group _ _ ihinner ih =>
    rw [List.cons_append, List.append_assoc, scan_leftParen, List.cons_append, ihinner, scan_rightParen,
      ih]
    simp
  | @opened opened spelling value following _ ih =>
    rw [List.cons_append, scan_leftParen, ih]
    simp [Nat.add_assoc, Nat.add_comm 1]
  | escape hescape _ ih =>
    rw [List.cons_append, List.append_assoc, scan_backslash, hescape.scan_eq, ih]
    simp

end Scan

section Sequences
variable {depth more : Nat} {spelling value spelling' value' following : Bytes}

namespace Items

theorem append (h : Items depth spelling value (spelling' ++ following))
    (h' : Items more spelling' value' following) :
    Items (depth + more) (spelling ++ spelling') (value ++ value') following := by
  generalize htotal : spelling' ++ following = total at h
  induction h with
  | nil => rwa [Nat.zero_add]
  | raw hleft hright hescape _ ih => exact .raw hleft hright hescape (ih htotal)
  | group hinner _ _ ih =>
    subst htotal
    have hgroup := Items.group (by rwa [List.append_assoc]) (ih rfl)
    simpa using hgroup
  | opened _ ih =>
    rw [Nat.succ_add]
    exact .opened (ih htotal)
  | escape hescape _ ih =>
    subst htotal
    have hitems := Items.escape (by rwa [List.append_assoc]) (ih rfl)
    simpa using hitems

theorem snoc_raw {b : UInt8} (h : Items depth spelling value (b :: following))
    (hleft : b ≠ Byte.leftParen) (hright : b ≠ Byte.rightParen) (hescape : b ≠ Byte.backslash) :
    Items depth (spelling ++ [b]) (value ++ [b]) following := by
  have hsplit : Items depth spelling value ([b] ++ following) := h
  exact hsplit.append (.raw hleft hright hescape .nil)

theorem snoc_opened (h : Items depth spelling value (Byte.leftParen :: following)) :
    Items (depth + 1) (spelling ++ [Byte.leftParen]) (value ++ [Byte.leftParen]) following := by
  have hsplit : Items depth spelling value ([Byte.leftParen] ++ following) := h
  exact hsplit.append (.opened .nil)

theorem snoc_escape {escape byte : Bytes}
    (h : Items depth spelling value (Byte.backslash :: (escape ++ following)))
    (hescape : Escape escape byte following) :
    Items depth (spelling ++ Byte.backslash :: escape) (value ++ byte) following := by
  have hlast : Items 0 (Byte.backslash :: escape) byte following := by
    have hitems : Items 0 (Byte.backslash :: (escape ++ [])) (byte ++ []) following :=
      .escape hescape .nil
    rwa [List.append_nil, List.append_nil] at hitems
  have hsplit : Items depth spelling value ((Byte.backslash :: escape) ++ following) := h
  exact hsplit.append hlast

/-- A closing parenthesis makes a group of the last one that is open. -/
theorem snoc_closed (h : Items (depth + 1) spelling value (Byte.rightParen :: following)) :
    Items depth (spelling ++ [Byte.rightParen]) (value ++ [Byte.rightParen]) following := by
  generalize hopened : depth + 1 = opened at h
  generalize htotal : Byte.rightParen :: following = total at h
  induction h generalizing depth with
  | nil => cases hopened
  | raw hleft hright hescape _ ih => exact .raw hleft hright hescape (ih hopened htotal)
  | group hinner _ _ ih =>
    subst htotal
    have hgroup := Items.group (by simpa using hinner) (ih hopened rfl)
    simpa using hgroup
  | @opened opened spelling value _ h ih =>
    subst htotal
    cases hopened
    cases opened with
    | zero => exact .group h .nil
    | succ opened => exact .opened (ih rfl rfl)
  | escape hescape _ ih =>
    subst htotal
    have hitems := Items.escape (by simpa using hescape) (ih hopened rfl)
    simpa using hitems

end Items

/-- Digits go on as long as there are digits, and no more than three. -/
theorem exists_octal {b : UInt8} {digit : Nat} (h : Byte.octalValue? b = some digit) (bytes : Bytes) :
    ∃ digits value rest, b :: bytes = digits ++ rest ∧ Octal digits value ∧ IsGreedy digits rest := by
  have hone : Octal [b] digit := .one h
  cases bytes with
  | nil => exact ⟨[b], _, [], rfl, hone, .inr ⟨by simp, by simp⟩⟩
  | cons c bytes =>
    cases hc : Byte.octalValue? c with
    | none => exact ⟨[b], _, c :: bytes, rfl, hone, .inr ⟨by simp, by simpa using hc⟩⟩
    | some second =>
      have htwo : Octal [b, c] _ := hone.more hc
      cases bytes with
      | nil => exact ⟨[b, c], _, [], rfl, htwo, .inr ⟨by simp, by simp⟩⟩
      | cons d bytes =>
        cases hd : Byte.octalValue? d with
        | none => exact ⟨[b, c], _, d :: bytes, rfl, htwo, .inr ⟨by simp, by simpa using hd⟩⟩
        | some third => exact ⟨[b, c, d], _, bytes, rfl, htwo.more hd, .inl rfl⟩

/-- After a backslash there is an escape, or there is a byte or a number that is none. -/
theorem escape_cases (b : UInt8) (bytes : Bytes) :
    (∃ escape byte rest, b :: bytes = escape ++ rest ∧ Escape escape byte rest) ∨
      ∃ bad fault rest, b :: bytes = bad ++ rest ∧ BadEscape bad fault := by
  cases hescaped : escaped? b with
  | some c => exact .inl ⟨[b], [c], bytes, rfl, .letter hescaped⟩
  | none =>
    by_cases hfeed : b = Byte.lineFeed
    · subst hfeed
      exact .inl ⟨[Byte.lineFeed], [], bytes, rfl, .lineFeed⟩
    by_cases hreturn : b = Byte.carriageReturn
    · subst hreturn
      by_cases hhead : bytes.head? = some Byte.lineFeed
      · obtain ⟨rest, rfl⟩ := List.head?_eq_some_iff.mp hhead
        exact .inl ⟨[Byte.carriageReturn, Byte.lineFeed], [], rest, rfl, .returnLineFeed⟩
      · exact .inl ⟨[Byte.carriageReturn], [], bytes, rfl, .loneReturn hhead⟩
    cases hfirst : Byte.octalValue? b with
    | none => exact .inr ⟨[b], _, bytes, rfl, .unknown hescaped hreturn hfeed hfirst⟩
    | some digit =>
      obtain ⟨digits, value, rest, heq, hoctal, hgreedy⟩ := exists_octal hfirst bytes
      by_cases hvalue : value ≤ 255
      · exact .inl ⟨digits, _, rest, heq, .octal hoctal hgreedy hvalue⟩
      · refine .inr ⟨digits, _, rest, heq, .octal hoctal ?_ (by omega)⟩
        rcases hgreedy with hthree | ⟨hless, -⟩
        · exact hthree
        · have hpow : Nat.pow 8 digits.length ≤ 64 :=
            Nat.pow_le_pow_right (by omega) (Nat.le_of_lt_succ hless)
          have hlt := hoctal.lt_pow
          omega

theorem Escape.length_pos {escape byte : Bytes} (h : Escape escape byte following) :
    0 < escape.length := by
  cases h with
  | octal h => exact h.length_pos
  | _ => simp

/-- By induction on the bytes that follow, of which each item takes some. -/
theorem Items.cases (h : Items depth spelling value following) :
    (∃ spelling' value' rest, Closed (spelling ++ following) spelling' value' rest) ∨
      (∃ spelling' bad rest fault, Faulty (spelling ++ following) spelling' bad rest fault) ∨
      ∃ value', Unclosed (spelling ++ following) value' := by
  induction hn : following.length using Nat.strongRecOn generalizing depth spelling value following with
  | _ n ih =>
    cases following with
    | nil => exact .inr (.inr ⟨value, ⟨depth, spelling, [], rfl, .inl rfl, h⟩⟩)
    | cons b following =>
      rw [List.length_cons] at hn
      by_cases hleft : b = Byte.leftParen
      · subst hleft
        have hnext := ih _ (by omega) h.snoc_opened rfl
        rwa [List.append_assoc] at hnext
      by_cases hright : b = Byte.rightParen
      · subst hright
        cases depth with
        | zero => exact .inl ⟨spelling, value, following, rfl, h⟩
        | succ depth =>
          have hnext := ih _ (by omega) h.snoc_closed rfl
          rwa [List.append_assoc] at hnext
      by_cases hescape : b = Byte.backslash
      · subst hescape
        cases following with
        | nil => exact .inr (.inr ⟨value, ⟨depth, spelling, [Byte.backslash], rfl, .inr rfl, h⟩⟩)
        | cons c following =>
          rcases escape_cases c following with ⟨escape, byte, rest, heq, hitem⟩ |
            ⟨bad, fault, rest, heq, hbad⟩
          · have hpos := hitem.length_pos
            rw [heq] at h hn ⊢
            rw [List.length_append] at hn
            have hnext := ih _ (by omega) (h.snoc_escape hitem) rfl
            simpa using hnext
          · rw [heq] at h ⊢
            exact .inr (.inl ⟨spelling, bad, rest, fault, rfl, ⟨depth, value, h⟩, hbad⟩)
      · have hnext := ih _ (by omega) (h.snoc_raw hleft hright hescape) rfl
        rwa [List.append_assoc] at hnext

end Sequences

section Strings
variable {tolerant : Bool} {bytes spelling value rest : Bytes}

theorem literal_cases (bytes : Bytes) : (∃ spelling value rest, Closed bytes spelling value rest) ∨
    (∃ spelling bad rest fault, Faulty bytes spelling bad rest fault) ∨ ∃ value, Unclosed bytes value := by
  have hnone : Items 0 [] [] bytes := .nil
  exact hnone.cases

theorem Closed.scan_eq (h : Closed bytes spelling value rest) :
    scan tolerant (.literal 0 []) bytes = some (.token (.str value), rest) := by
  rw [h.bytes_eq, h.items.scan_eq, scan_close]
  simp

theorem Faulty.scan_eq {bad : Bytes} {fault : Fault} (h : Faulty bytes spelling bad rest fault) :
    scan tolerant (.literal 0 []) bytes = some (.fault fault, rest) := by
  obtain ⟨depth, value, hitems⟩ := h.items
  rw [h.bytes_eq, hitems.scan_eq, scan_backslash, h.isBad.scan_eq]

theorem Unclosed.scan_eq (h : Unclosed bytes value) : scan tolerant (.literal 0 []) bytes =
    if tolerant then some (.cutShort value, []) else none := by
  obtain ⟨depth, spelling, tail, rfl, htail, hitems⟩ := h.items
  rw [hitems.scan_eq]
  rcases htail with rfl | rfl
  · cases tolerant <;> simp [scan, State.finish]
  · rw [scan_backslash]
    cases tolerant <;> simp [scan, State.finish]

end Strings
end PdfSyntax.Lexer
