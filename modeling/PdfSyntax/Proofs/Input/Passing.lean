import PdfSyntax.Proofs.Activity
import PdfSyntax.Proofs.Input.Blocks
import PdfSyntax.Proofs.Lexer.Scan

/-!
# What a direct cursor passes over

The bytes still to come determine what a direct cursor yields and what the lexer makes of it. Moving
over bytes takes them off the front of what is to come, and adds their number to the offset.
-/

set_option autoImplicit false

namespace PdfSyntax.Direct

structure Passes (d : Direct) (bytes : Bytes) (d' : Direct) : Prop where
  data_eq : d'.data = d.data
  origin_eq : d'.origin = d.origin
  offset_eq : d'.offset = d.offset + bytes.length
  rest_eq : d.rest = bytes ++ d'.rest
  ended : d'.isEnded = true → d.isEnded = true ∨ d'.rest = []

/-- A cursor that does not stand before its data, and has come to the end only if nothing is left. -/
structure IsInside (d : Direct) : Prop where
  origin_le : d.origin ≤ d.offset
  ended : d.isEnded = true → d.rest = []

theorem isInside_ofSource (source : Source) (offset : Int) :
    ((Medium.ofSource source offset).cursorAt offset).IsInside where
  origin_le := by
    simp only [Medium.ofSource, Medium.cursorAt]
    omega
  ended h := by cases h

theorem rest_of_isInside {d : Direct} (h : d.IsInside) :
    d.rest = d.data.drop (d.offset - d.origin).toNat :=
  if_pos h.origin_le

/-- Moving on drops bytes that are still to come. -/
theorem rest_of_moved {d : Direct} (h : d.IsInside) (count : Nat) :
    ({ d with offset := d.offset + count } : Direct).rest = d.rest.drop count := by
  have hle := h.origin_le
  have hplace : (d.offset + count - d.origin).toNat = (d.offset - d.origin).toNat + count := by omega
  rw [rest_of_isInside h, List.drop_drop, ← hplace]
  exact if_pos (by simp only; omega)

theorem IsInside.moved {d : Direct} (h : d.IsInside) (count : Nat) :
    ({ d with offset := d.offset + count } : Direct).IsInside where
  origin_le := by
    have := h.origin_le
    simp only
    omega
  ended hended := by rw [rest_of_moved h, h.ended hended, List.drop_nil]

theorem length_rest {d : Direct} (h : d.IsInside) : d.rest.length = d.left := by
  have hle := h.origin_le
  rw [rest_of_isInside h, List.length_drop]
  simp only [left, stop]
  omega

theorem rest_ofSource (source : Source) (offset : Int) :
    ((Medium.ofSource source offset).cursorAt offset).rest = source.rest := by
  have hplace : (offset - (offset - (source.position : Int))).toNat = source.position := by omega
  rw [rest_of_isInside (isInside_ofSource source offset), Source.rest]
  simp only [Medium.ofSource, Medium.cursorAt, hplace]

namespace Passes
variable {d d' d'' : Direct} {bytes bytes' : Bytes}

theorem refl (d : Direct) : d.Passes [] d :=
  ⟨rfl, rfl, by simp, rfl, .inl⟩

theorem trans (h : d.Passes bytes d') (h' : d'.Passes bytes' d'') :
    d.Passes (bytes ++ bytes') d'' where
  data_eq := h'.data_eq.trans h.data_eq
  origin_eq := h'.origin_eq.trans h.origin_eq
  offset_eq := by
    rw [h'.offset_eq, h.offset_eq, List.length_append]
    omega
  rest_eq := by rw [h.rest_eq, h'.rest_eq, List.append_assoc]
  ended hended := by
    rcases h'.ended hended with hended | hrest
    · refine (h.ended hended).imp_right fun hrest => ?_
      exact (List.append_eq_nil_iff.mp (h'.rest_eq.symm.trans hrest)).2
    · exact .inr hrest

theorem isInside (h : d.Passes bytes d') (hd : d.IsInside) : d'.IsInside where
  origin_le := by
    have := h.origin_eq
    have := h.offset_eq
    have := hd.origin_le
    omega
  ended hended := by
    rcases h.ended hended with hended | hrest
    · exact (List.append_eq_nil_iff.mp (h.rest_eq.symm.trans (hd.ended hended))).2
    · exact hrest

theorem offset_le (h : d.Passes bytes d') : d.offset ≤ d'.offset := by
  have := h.offset_eq
  omega

theorem of_byte? {byte : UInt8} (hd : d.IsInside) (h : d.byte? = some byte) :
    d.Passes [byte] { d with offset := d.offset + 1 } := by
  refine ⟨rfl, rfl, rfl, ?_, .inl⟩
  have hmoved : ({ d with offset := d.offset + 1 } : Direct).rest = d.rest.drop 1 := rest_of_moved hd 1
  rw [byte?_eq_head?, List.head?_eq_some_iff] at h
  obtain ⟨rest, hrest⟩ := h
  rw [hmoved, hrest]
  rfl

theorem offset_eq_of_append {front : Bytes} (h : d.Passes bytes d') (hd : d.IsInside)
    (hne : d.rest ≠ []) (hfront : d.data = front ++ d'.rest) :
    d'.offset = d.origin + front.length := by
  have hlength := congrArg List.length h.rest_eq
  have hdata := congrArg List.length hfront
  have hpos := List.length_pos_iff.mpr hne
  have hoffset := h.offset_eq
  rw [length_rest hd] at hlength hpos
  simp only [left, stop, List.length_append] at hlength hpos hdata
  omega

theorem endedAt (hrest : d.rest = []) : d.Passes [] { d with isEnded := true } :=
  ⟨rfl, rfl, by simp, rfl, fun _ => .inr hrest⟩

end Passes

theorem next_ensures {d : Direct} (hd : d.IsInside) (tolerant : Bool) :
    Ensures (· = d) (next tolerant)
      (fun byte d' => d.Passes byte.toList d' ∧ (byte = none → tolerant = true ∧ d.rest = []) ∧
        (byte.isSome → d'.isEnded = false ∧ d'.back = d))
      (fun e d' => d' = d ∧ tolerant = false ∧ d.rest = [] ∧ e = .unexpectedEnd d.offset) := by
  intro s heq
  rw [heq]
  simp only [next]
  cases hbyte : byte? _ with
  | some byte =>
    have hended : d.isEnded = false := by
      cases hended : d.isEnded with
      | false => rfl
      | true =>
        rw [byte?_eq_head?, hd.ended hended] at hbyte
        cases hbyte
    exact ⟨.of_byte? hd hbyte, by simp, fun _ => ⟨hended, by simp [back]⟩⟩
  | none =>
    rw [byte?_eq_head?, List.head?_eq_none_iff] at hbyte
    cases tolerant with
    | true => exact ⟨.endedAt hbyte, fun _ => ⟨rfl, hbyte⟩, fun h => by cases h⟩
    | false => exact ⟨rfl, rfl, hbyte, rfl⟩

section Next
variable {d d' : Direct} {tolerant : Bool} (hd : d.IsInside)
include hd

theorem of_next_error {e : Failure} (h : Cursor.next tolerant d = .error e d') :
    d' = d ∧ tolerant = false ∧ d.rest = [] ∧ e = .unexpectedEnd d.offset := by
  have hnext := next_ensures hd tolerant d rfl
  have h : next tolerant d = .error e d' := h
  rw [h] at hnext
  exact hnext

theorem of_next_none (h : Cursor.next tolerant d = .ok none d') :
    d.Passes [] d' ∧ tolerant = true ∧ d.rest = [] := by
  have hnext := next_ensures hd tolerant d rfl
  have h : next tolerant d = .ok none d' := h
  rw [h] at hnext
  exact ⟨hnext.1, hnext.2.1 rfl⟩

theorem of_next_some {byte : UInt8} (h : Cursor.next tolerant d = .ok (some byte) d') :
    d.Passes [byte] d' ∧ Cursor.isEnded d' = false ∧ Cursor.back d' = d := by
  have hnext := next_ensures hd tolerant d rfl
  have h : next tolerant d = .ok (some byte) d' := h
  rw [h] at hnext
  exact ⟨hnext.1, hnext.2.2 rfl⟩

end Next

/-- The verdict of `scan` on the bytes to come, in front of the bytes that it leaves. -/
def Scans (tolerant : Bool) (state : Lexer.State) (d : Direct) :
    EStateM.Result Failure Direct Lexer.Verdict → Prop
  | .ok verdict d' =>
    Lexer.scan tolerant state d.rest = some (verdict, d'.rest) ∧ ∃ bytes, d.Passes bytes d'
  | .error e d' =>
    Lexer.scan tolerant state d.rest = none ∧ e = .unexpectedEnd d'.offset ∧ ∃ bytes, d.Passes bytes d'

theorem Scans.after {tolerant : Bool} {state state' : Lexer.State} {d d' : Direct} {bytes : Bytes}
    {result : EStateM.Result Failure Direct Lexer.Verdict} (hpass : d.Passes bytes d')
    (hscan : Lexer.scan tolerant state d.rest = Lexer.scan tolerant state' d'.rest)
    (h : Scans tolerant state' d' result) : Scans tolerant state d result := by
  cases result with
  | ok verdict d'' =>
    obtain ⟨hverdict, bytes', hpass'⟩ := h
    exact ⟨hscan.trans hverdict, _, hpass.trans hpass'⟩
  | error e d'' =>
    obtain ⟨hnone, he, bytes', hpass'⟩ := h
    exact ⟨hscan.trans hnone, he, _, hpass.trans hpass'⟩

theorem lex_scans {d : Direct} (hd : d.IsInside) (tolerant : Bool) (state : Lexer.State) :
    Scans tolerant state d (Reader.lex tolerant state d) := by
  induction state, d using Reader.lex_induction (σ := Direct) tolerant with
  | error hn hlex =>
    obtain ⟨rfl, rfl, hrest, rfl⟩ := of_next_error hd hn
    rw [hlex]
    exact ⟨by rw [hrest]; rfl, rfl, [], .refl _⟩
  | again hn hfill hlex ih =>
    obtain ⟨hpass, rfl, hrest⟩ := of_next_none hd hn
    have hrest' := (List.append_eq_nil_iff.mp (hpass.rest_eq.symm.trans hrest)).2
    rw [hlex]
    refine (ih (hpass.isInside hd)).after hpass ?_
    rw [hrest, hrest', Lexer.scan_again hfill]
  | finished hn hfill hlex =>
    obtain ⟨hpass, rfl, hrest⟩ := of_next_none hd hn
    have hrest' := (List.append_eq_nil_iff.mp (hpass.rest_eq.symm.trans hrest)).2
    rw [hlex]
    exact ⟨by rw [hrest, hrest', Lexer.scan_end hfill], [], hpass⟩
  | more hn hs hlex ih =>
    obtain ⟨hpass, hended, -⟩ := of_next_some hd hn
    rw [Lexer.State.take_of_not_ended hended] at hs
    rw [hlex]
    refine (ih (hpass.isInside hd)).after hpass ?_
    rw [hpass.rest_eq]
    exact Lexer.scan_more hs
  | done hn hs hlex =>
    obtain ⟨hpass, hended, -⟩ := of_next_some hd hn
    rw [Lexer.State.take_of_not_ended hended] at hs
    rw [hlex]
    exact ⟨by rw [hpass.rest_eq]; exact Lexer.scan_done hs, _, hpass⟩
  | doneBefore hn hs hlex =>
    obtain ⟨hpass, hended, hback⟩ := of_next_some hd hn
    rw [Lexer.State.take_of_not_ended hended] at hs
    rw [hlex, hback]
    exact ⟨by rw [hpass.rest_eq]; exact Lexer.scan_doneBefore hs, [], .refl _⟩

end PdfSyntax.Direct
