import Mathlib.Data.List.TakeWhile
import PdfSyntax.Obj.Str
import PdfSyntax.Obj.Display
import PdfSyntax.Proofs.Decimal.ReadBack
import PdfSyntax.Proofs.Lexer.Hex
import PdfSyntax.Proofs.Lexer.Name
import PdfSyntax.Proofs.Lexer.Spells

/-!
# What the lexer makes of written tokens

Strings end with a delimiter of their own. Names, numbers and keywords go on as long as regular bytes
follow, so that what is written after them must start with another byte. Given that, the lexer takes
exactly the bytes that were written, and makes of them the token that they were written for.
-/

set_option autoImplicit false

namespace PdfSyntax

namespace Latin1

def ofAscii (c : Char) : UInt8 :=
  UInt8.ofNat c.toNat

theorem ascii_ofList (cs : List Char) : ascii (String.ofList cs) = cs.map ofAscii := by
  rw [ascii, String.toList_ofList]
  rfl

theorem ascii_append (s t : String) : ascii (s ++ t) = ascii s ++ ascii t := by
  simp only [ascii, String.toList_append, List.map_append]

theorem char_ofAscii {c : Char} (h : c.toNat < 256) : char (ofAscii c) = c :=
  char_of_byte? (if_pos h)

theorem map_char_map_ofAscii {cs : List Char} (h : ∀ c ∈ cs, c.toNat < 256) :
    (cs.map ofAscii).map char = cs := by
  rw [List.map_map]
  exact (List.map_congr_left fun c hc => char_ofAscii (h c hc)).trans (List.map_id cs)

theorem exists_decode {text : String} (h : ∀ c ∈ text.toList, c.toNat < 256) :
    ∃ bytes, text = decode bytes :=
  ⟨text.toList.map ofAscii, by rw [decode, map_char_map_ofAscii h, String.ofList_toList]⟩

end Latin1

namespace Word
open Latin1 (ofAscii)

theorem digit_ofAscii {c : Char} (h : c.isDigit = true) :
    c.toNat < 256 ∧ isDigit (ofAscii c) = true ∧ Byte.isRegular (ofAscii c) = true := by
  have hc : c.toNat < 256 := by
    simp only [Char.isDigit, Bool.and_eq_true, decide_eq_true_eq, ge_iff_le] at h
    have := UInt32.le_iff_toNat_le.mp h.2
    exact Nat.lt_of_le_of_lt this (by decide)
  have hdigit := Byte.forall_of_fin (fun b => (Latin1.char b).isDigit = true →
    isDigit b = true ∧ Byte.isRegular b = true) (by decide +kernel)
  refine ⟨hc, hdigit (ofAscii c) ?_⟩
  rwa [Latin1.char_ofAscii hc]

theorem read_of_digit (negative : Bool) {d : UInt8} (h : isDigit d = true) (word : Bytes) :
    read ((if negative then [minus] else []) ++ d :: word) = readUnsigned negative (d :: word) := by
  obtain ⟨hminus, hplus, ht, hf⟩ := Byte.forall_of_fin (fun b => isDigit b = true →
    b ≠ minus ∧ b ≠ plus ∧ b ≠ 0x74 ∧ b ≠ 0x66) (by decide +kernel) d h
  have htrue : Latin1.ascii "true" = [0x74, 0x72, 0x75, 0x65] := by decide
  have hfalse : Latin1.ascii "false" = [0x66, 0x61, 0x6c, 0x73, 0x65] := by decide
  cases negative with
  | true => simp [read, htrue, hfalse, splitSign, minus]
  | false => simp [read, htrue, hfalse, splitSign, ht, hf, hminus, hplus]

theorem natural_map_ofAscii {cs : List Char} (h : ∀ c ∈ cs, c.isDigit = true) :
    natural (cs.map ofAscii) = Nat.ofDigitChars 10 cs 0 := by
  rw [natural, Latin1.map_char_map_ofAscii fun c hc => (digit_ofAscii (h c hc)).1]

theorem readUnsigned_digits (negative : Bool) {cs : List Char} (hne : cs ≠ [])
    (h : ∀ c ∈ cs, c.isDigit = true)
    (hint : isInt64 (if negative then -(Nat.ofDigitChars 10 cs 0 : Int) else Nat.ofDigitChars 10 cs 0)) :
    readUnsigned negative (cs.map ofAscii) =
      .int (if negative then -(Nat.ofDigitChars 10 cs 0 : Int) else Nat.ofDigitChars 10 cs 0) := by
  have hall : ∀ b ∈ cs.map ofAscii, isDigit b = true := by
    intro b hb
    obtain ⟨c, hc, rfl⟩ := List.mem_map.mp hb
    exact (digit_ofAscii (h c hc)).2.1
  have htake : (cs.map ofAscii).takeWhile isDigit = cs.map ofAscii :=
    List.takeWhile_eq_self_iff.mpr hall
  have hdrop : (cs.map ofAscii).dropWhile isDigit = [] :=
    List.dropWhile_eq_nil_iff.mpr hall
  unfold readUnsigned
  rw [hdrop, htake]
  dsimp only
  rw [natural_map_ofAscii h]
  simp only [List.isEmpty_iff, List.map_eq_nil_iff, hne, if_false, hint, if_true]

theorem readUnsigned_point (negative : Bool) {before after : List Char} (hne : before ≠ [])
    (h : ∀ c ∈ before ++ after, c.isDigit = true) :
    readUnsigned negative ((before ++ '.' :: after).map ofAscii) =
      .real (.ofRank negative (Binary64.rankOfRatio (Nat.ofDigitChars 10 (before ++ after) 0)
        (Nat.pow 10 after.length))) := by
  have hdigit : ∀ cs : List Char, (∀ c ∈ cs, c ∈ before ++ after) →
      ∀ b ∈ cs.map ofAscii, isDigit b = true := by
    intro cs hcs b hb
    obtain ⟨c, hc, rfl⟩ := List.mem_map.mp hb
    exact (digit_ofAscii (h c (hcs c hc))).2.1
  have hbefore := hdigit before fun c hc => List.mem_append_left after hc
  have hafter := hdigit after fun c hc => List.mem_append_right before hc
  have hpoint : isDigit (ofAscii '.') = false := by decide
  rw [List.map_append, List.map_cons]
  unfold readUnsigned
  rw [List.takeWhile_append_of_pos hbefore, List.dropWhile_append_of_pos hbefore,
    List.takeWhile_cons_of_neg (by simp [hpoint]), List.dropWhile_cons_of_neg (by simp [hpoint]),
    List.append_nil]
  have hall : (after.map ofAscii).all isDigit = true := List.all_eq_true.mpr hafter
  have hnonempty : (before.map ofAscii).isEmpty = false := by
    rw [List.isEmpty_eq_false_iff]
    simpa using hne
  have hofAscii : (ofAscii '.' == point) = true := by decide
  simp only [hofAscii, hall, hnonempty, Bool.and_self, Bool.false_and, if_true, Bool.false_eq_true,
    if_false, real]
  rw [← List.map_append, natural_map_ofAscii h, List.length_map]

theorem ascii_signed (negative : Bool) (cs : List Char) :
    Latin1.ascii (String.ofList ((if negative then ['-'] else []) ++ cs)) =
      (if negative then [minus] else []) ++ cs.map ofAscii := by
  rw [Latin1.ascii_ofList, List.map_append]
  cases negative <;> rfl

theorem exists_digits (n : Int) : ∃ (negative : Bool) (cs : List Char), cs ≠ [] ∧
    (∀ c ∈ cs, c.isDigit = true) ∧
    decimal n = String.ofList ((if negative then ['-'] else []) ++ cs) ∧
    (if negative then -(Nat.ofDigitChars 10 cs 0 : Int) else Nat.ofDigitChars 10 cs 0) = n := by
  have hdigit : ∀ m : Nat, ∀ c ∈ Nat.toDigits 10 m, c.isDigit = true :=
    fun m c hc => Nat.isDigit_of_mem_toDigits (by omega) (by omega) hc
  by_cases hn : n < 0
  · refine ⟨true, Nat.toDigits 10 n.natAbs, Nat.toDigits_ne_nil, hdigit _, ?_, ?_⟩
    · simp [decimal, Numeral.decimal, Numeral.signed, hn]
    · rw [if_pos rfl, Nat.ofDigitChars_ten_toDigits]
      omega
  · refine ⟨false, Nat.toDigits 10 n.toNat, Nat.toDigits_ne_nil, hdigit _, ?_, ?_⟩
    · simp [decimal, Numeral.decimal, Numeral.signed, hn]
    · rw [if_neg Bool.false_ne_true, Nat.ofDigitChars_ten_toDigits]
      omega

/-- Regular bytes, one at least, and what they stand for as a word. -/
structure Means (word : Bytes) (meaning : Meaning) : Prop where
  ne_nil : word ≠ []
  isRegular : ∀ b ∈ word, Byte.isRegular b = true
  read_eq : read word = meaning

/-- A number is a word that starts with a digit, maybe after a minus sign. -/
theorem means_signed (negative : Bool) {c : Char} {cs : List Char} {meaning : Meaning}
    (hc : c.isDigit = true) (hcs : ∀ c ∈ cs, c.isDigit = true ∨ c = '.')
    (hread : readUnsigned negative ((c :: cs).map ofAscii) = meaning) :
    Means (Latin1.ascii (String.ofList ((if negative then ['-'] else []) ++ c :: cs))) meaning := by
  rw [ascii_signed]
  refine ⟨by simp, ?_, ?_⟩
  · intro b hb
    rcases List.mem_append.mp hb with hb | hb
    · cases negative with
      | true =>
        obtain rfl := List.mem_singleton.mp hb
        decide
      | false => cases hb
    · obtain ⟨d, hd, rfl⟩ := List.mem_map.mp hb
      have hcases : d.isDigit = true ∨ d = '.' := by
        rcases List.mem_cons.mp hd with rfl | hd
        · exact .inl hc
        · exact hcs d hd
      rcases hcases with hd | rfl
      · exact (digit_ofAscii hd).2.2
      · decide
  · rw [List.map_cons, read_of_digit negative (digit_ofAscii hc).2.1, ← List.map_cons, hread]

theorem means_decimal {n : Int} (h : isInt64 n = true) :
    Means (Latin1.ascii (decimal n)) (.int n) := by
  obtain ⟨negative, cs, hne, hdigit, htext, rfl⟩ := exists_digits n
  have hread := readUnsigned_digits negative hne hdigit h
  rw [htext]
  cases cs with
  | nil => exact absurd rfl hne
  | cons c cs =>
    exact means_signed negative (hdigit c (by simp)) (fun d hd => .inl (hdigit d (by simp [hd]))) hread

/-- The written form of a finite real is read back as the same bits. -/
theorem means_positional {x : Binary64} (h : x.isFinite = true) :
    ∃ text, x.positional? = some text ∧ Means (Latin1.ascii text) (.real x) := by
  refine ⟨_, if_pos h, ?_⟩
  obtain ⟨before, after, hpositional, hplaces⟩ := (Decimal.shortest x.rank).isPlaced
  have hread := readUnsigned_point x.isNegative hplaces.before_ne_nil hplaces.isDigit
  rw [hplaces.rank_eq, Decimal.rank_shortest (of_decide_eq_true h), Binary64.ofRank_rank] at hread
  rw [Binary64.signText, hpositional]
  have hne := hplaces.before_ne_nil
  cases before with
  | nil => exact absurd rfl hne
  | cons c before =>
    refine means_signed x.isNegative (hplaces.isDigit c (by simp)) ?_ hread
    intro d hd
    rcases List.mem_append.mp hd with hd | hd
    · exact .inl (hplaces.isDigit d (by simp [hd]))
    rcases List.mem_cons.mp hd with rfl | hd
    · exact .inr rfl
    · exact .inl (hplaces.isDigit d (by simp [hd]))

end Word

namespace Lexer

section Gaps
variable {tolerant : Bool} {mayCut : Prop} {space bytes : Bytes} {tokens : List Obj}

theorem scan_white {b : UInt8} (h : Byte.isWhite b = true) :
    scan tolerant .gap (b :: bytes) = scan tolerant .gap bytes :=
  scan_more (by simp only [State.step, h, if_true])

theorem Spells.white {b : UInt8} (h : Byte.isWhite b = true) (hspells : Spells mayCut bytes tokens) :
    Spells mayCut (b :: bytes) tokens := by
  cases hspells with
  | nil hscan => exact .nil (by rw [scan_white h, hscan])
  | token hscan hend hrest => exact .token (by rw [scan_white h, hscan]) hend hrest
  | cutShort hcut hscan hrest => exact .cutShort hcut (by rw [scan_white h, hscan]) hrest

theorem Spells.gap (h : ∀ b ∈ space, Byte.isWhite b = true) (hspells : Spells mayCut bytes tokens) :
    Spells mayCut (space ++ bytes) tokens := by
  induction space with
  | nil => exact hspells
  | cons b space ih =>
    exact (ih fun c hc => h c (List.mem_cons_of_mem b hc)).white (h b (List.mem_cons_self ..))

end Gaps

/-- Whether the lexer makes a token of exactly these bytes if a word would end after them. -/
def Yields (bytes : Bytes) (token : Obj) : Prop :=
  ∀ rest, Terminated rest → scan true .gap (bytes ++ rest) = some (.token token, rest)

theorem Yields.spells {mayCut : Prop} {bytes rest : Bytes} {token : Obj} {tokens : List Obj}
    (h : Yields bytes token) (hend : token.isEnd = false) (hrest : Terminated rest)
    (hspells : Spells mayCut rest tokens) : Spells mayCut (bytes ++ rest) (token :: tokens) :=
  .token (h rest hrest) hend hspells

section Words
variable {word rest : Bytes} {token : Obj}

theorem gap_step_of_isRegular {b : UInt8} (h : Byte.isRegular b = true) :
    State.gap.step b = .more (.word [b]) := by
  simp only [Byte.isRegular, Byte.isDelimiter, Bool.and_eq_true, Bool.not_eq_true',
    Bool.or_eq_false_iff] at h
  simp only [State.step, State.start, Byte.isDelimiter, h, Bool.false_eq_true, if_false, Bool.or_self]

theorem scan_word (h : ∀ b ∈ word, Byte.isRegular b = true) (hrest : Terminated rest) (read : Bytes) :
    scan true (.word read) (word ++ rest) = some (.ofWord (read.reverse ++ word), rest) := by
  induction word generalizing read with
  | nil =>
    rw [List.nil_append, List.append_nil]
    cases rest with
    | nil => rfl
    | cons b rest =>
      have hb : Byte.isRegular b = false := hrest b rfl
      exact scan_doneBefore (by simp only [State.step, hb, Bool.false_eq_true, if_false])
  | cons b word ih =>
    have hb : Byte.isRegular b = true := h b (List.mem_cons_self ..)
    have hstep : (State.word read).step b = .more (.word (b :: read)) := by
      simp only [State.step, hb, if_true]
    rw [List.cons_append, scan_more hstep, ih (fun c hc => h c (List.mem_cons_of_mem b hc)),
      List.reverse_cons, List.append_assoc, List.singleton_append]

theorem yields_word (hne : word ≠ []) (h : ∀ b ∈ word, Byte.isRegular b = true)
    (htoken : Verdict.ofWord word = .token token) : Yields word token := by
  intro rest hrest
  cases word with
  | nil => exact absurd rfl hne
  | cons b word =>
    rw [List.cons_append, scan_more (gap_step_of_isRegular (h b (List.mem_cons_self ..))),
      scan_word (fun c hc => h c (List.mem_cons_of_mem b hc)) hrest [b], List.reverse_singleton,
      List.singleton_append, htoken]

theorem yields_decimal {n : Int} (h : Word.isInt64 n = true) :
    Yields (Latin1.ascii (decimal n)) (.int n) := by
  have hmeans := Word.means_decimal h
  exact yields_word hmeans.ne_nil hmeans.isRegular (by rw [Verdict.ofWord, hmeans.read_eq])

theorem yields_positional {x : Binary64} (h : x.isFinite = true) :
    ∃ text, x.positional? = some text ∧ Yields (Latin1.ascii text) (.real x) := by
  obtain ⟨text, htext, hmeans⟩ := Word.means_positional h
  exact ⟨text, htext, yields_word hmeans.ne_nil hmeans.isRegular (by rw [Verdict.ofWord, hmeans.read_eq])⟩

end Words

section Names
open Latin1 (ofAscii)

theorem encodeChar_char (b : UInt8) :
    ((Name.encodeChar (Latin1.char b)).map ofAscii = [b] ∧ Byte.isRegular b = true ∧ b ≠ Byte.hash) ∨
      (Name.encodeChar (Latin1.char b)).map ofAscii = Byte.hash :: Byte.toHexPair b :=
  Byte.forall_of_fin (fun b => ((Name.encodeChar (Latin1.char b)).map ofAscii = [b] ∧
    Byte.isRegular b = true ∧ b ≠ Byte.hash) ∨
      (Name.encodeChar (Latin1.char b)).map ofAscii = Byte.hash :: Byte.toHexPair b)
    (by decide +kernel) b

/-- The way in which a name is written is one of its spellings. -/
theorem nameSpelling_encode (bytes : Bytes) :
    NameSpelling (bytes.flatMap fun b => (Name.encodeChar (Latin1.char b)).map ofAscii) bytes := by
  induction bytes with
  | nil => exact .nil
  | cons b bytes ih =>
    rw [List.flatMap_cons]
    rcases encodeChar_char b with ⟨hb, hregular, hhash⟩ | hb
    · rw [hb]
      exact .plain hregular hhash ih
    · rw [hb]
      exact .escape (Byte.ofHexPair?_toHexPair b) ih

theorem yields_name {text : String} (h : ∀ c ∈ text.toList, c.toNat < 256) :
    Yields (Latin1.ascii (Name.encode text)) (.name text) := by
  intro rest hrest
  obtain ⟨bytes, rfl⟩ := Latin1.exists_decode h
  have hbytes : Latin1.ascii (Name.encode (Latin1.decode bytes)) =
      Byte.slash :: bytes.flatMap fun b => (Name.encodeChar (Latin1.char b)).map ofAscii := by
    rw [Name.encode, Latin1.ascii_ofList, Latin1.decode, String.toList_ofList, List.map_cons,
      List.flatMap_map, List.map_flatMap]
    rfl
  have hstep : State.gap.step Byte.slash = .more (.name []) := rfl
  rw [hbytes, List.cons_append, scan_more hstep, (nameSpelling_encode bytes).scan_eq,
    scan_name_end hrest fun _ => rfl]
  simp

end Names

section Strings
variable {tolerant : Bool}

theorem scan_escape (b : UInt8) (read rest : Bytes) :
    scan tolerant (.literal 0 read) (Str.escape b ++ rest) =
      scan tolerant (.literal 0 (b :: read)) rest := by
  unfold Str.escape
  by_cases h : Str.needsEscape b = true
  · have hslash : (State.literal 0 read).step Byte.backslash = .more (.escape 0 read) := rfl
    have hescaped : escaped? b = some b := by
      simp only [Str.needsEscape, Bool.or_eq_true, beq_iff_eq] at h
      rcases h with (rfl | rfl) | rfl <;> rfl
    have hstep : (State.escape 0 read).step b = .more (.literal 0 (b :: read)) := by
      simp only [State.step, State.escapeByte, hescaped]
    rw [if_pos h, List.cons_append, List.cons_append, List.nil_append, scan_more hslash, scan_more hstep]
  · have hstep : (State.literal 0 read).step b = .more (.literal 0 (b :: read)) := by
      simp only [Str.needsEscape, Bool.or_eq_true, beq_iff_eq, not_or] at h
      simp only [State.step, State.literalByte, beq_iff_eq, h, if_false]
    rw [if_neg h, List.singleton_append, scan_more hstep]

theorem scan_literal (s read rest : Bytes) :
    scan tolerant (.literal 0 read) (s.flatMap Str.escape ++ Byte.rightParen :: rest) =
      some (.token (.str (read.reverse ++ s)), rest) := by
  induction s generalizing read with
  | nil =>
    rw [List.append_nil]
    exact scan_done rfl
  | cons b s ih =>
    rw [List.flatMap_cons, List.append_assoc, scan_escape, ih, List.reverse_cons, List.append_assoc,
      List.singleton_append]

theorem plain_of_hexValue {digit : UInt8} (h : (Byte.hexValue? digit).isSome = true) :
    Byte.isWhite digit = false ∧ digit ≠ Byte.less ∧ digit ≠ Byte.greater :=
  Byte.forall_of_fin (fun b => (Byte.hexValue? b).isSome = true →
    Byte.isWhite b = false ∧ b ≠ Byte.less ∧ b ≠ Byte.greater) (by decide +kernel) digit h

theorem plain_of_mem_toHexPair {b digit : UInt8} (h : digit ∈ Byte.toHexPair b) :
    Byte.isWhite digit = false ∧ digit ≠ Byte.less ∧ digit ≠ Byte.greater := by
  obtain ⟨hhigh, hlow⟩ := hexValue_of_ofHexPair (Byte.ofHexPair?_toHexPair b)
  rcases List.mem_cons.mp h with rfl | h
  · exact plain_of_hexValue hhigh
  · obtain rfl := List.mem_singleton.mp h
    exact plain_of_hexValue hlow

theorem hexDigits_toHexPair (s : Bytes) : HexDigits (s.flatMap Byte.toHexPair) s := by
  induction s with
  | nil => exact .nil
  | cons b s ih => exact .pair (Byte.ofHexPair?_toHexPair b) ih

/-- The hexadecimal form of a string has no white bytes in it. -/
theorem hexClosed_toHexPair (s rest : Bytes) : HexClosed
    (s.flatMap Byte.toHexPair ++ Byte.greater :: rest) (s.flatMap Byte.toHexPair) s rest := by
  have hplain : ∀ digit ∈ s.flatMap Byte.toHexPair, Byte.isWhite digit = false ∧
      digit ≠ Byte.less ∧ digit ≠ Byte.greater := by
    intro digit hdigit
    obtain ⟨b, -, hmem⟩ := List.mem_flatMap.mp hdigit
    exact plain_of_mem_toHexPair hmem
  refine ⟨rfl, fun hmem => (hplain _ hmem).2.2 rfl, ?_⟩
  rw [withoutWhite_eq_self fun digit hdigit => (hplain digit hdigit).1]
  exact hexDigits_toHexPair s

/-- A string is read back from either form, whatever follows and whether or not an end is tolerated. -/
theorem scan_encode (form : Str.Form) (s rest : Bytes) :
    scan tolerant .gap (Str.encode form s ++ rest) = some (.token (.str s), rest) := by
  have hliteral : scan tolerant .gap (Str.literal s ++ rest) = some (.token (.str s), rest) := by
    have hopen : State.gap.step Byte.leftParen = .more (.literal 0 []) := rfl
    rw [Str.literal, List.cons_append, List.cons_append, List.append_assoc, scan_more hopen,
      List.singleton_append, scan_literal]
    rfl
  have hhex : scan tolerant .gap (Str.hex s ++ rest) = some (.token (.str s), rest) := by
    have hopen : State.gap.step Byte.less = .more .less := rfl
    rw [Str.hex, List.cons_append, List.cons_append, List.append_assoc, scan_more hopen,
      List.singleton_append, scan_less, (hexClosed_toHexPair s rest).scan_eq]
    · rfl
    · cases s with
      | nil => exact fun h => absurd (Option.some.inj h) (by decide)
      | cons b s =>
        have hfirst : Byte.hexDigit (b / 16) ∈ Byte.toHexPair b := List.mem_cons_self
        exact fun h => (plain_of_mem_toHexPair hfirst).2.1 (Option.some.inj h)
  cases form with
  | literal => exact hliteral
  | hex => exact hhex
  | auto =>
    rw [Str.encode, Str.auto]
    split
    · exact hhex
    · exact hliteral

theorem yields_str (s : Bytes) : Yields (Str.auto s) (.str s) :=
  fun rest _ => scan_encode .auto s rest

end Strings

end Lexer
end PdfSyntax
