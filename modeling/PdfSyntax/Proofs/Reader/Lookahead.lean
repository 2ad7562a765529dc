import PdfSyntax.Proofs.Reader.Token
import PdfSyntax.Reader.Object

/-!
# What looking ahead leaves behind

A reader that nobody else pushes tokens back to has two tokens pushed back at most, and of two the first
is an integer. So a token that is no integer is the last one that was pushed back, or it has just been
read: right after it the cursor is where the token ends.
-/

set_option autoImplicit false

namespace PdfSyntax

def Record.IsUpTo (record : Record) (offset : Int) : Prop :=
  ∃ text place, record.text = located text place ∧ place ≤ offset

namespace Reader

/-- What a reader takes for a token, the end of the input included. -/
def IsToken (token : Obj) : Prop :=
  Lexer.IsLexeme token ∨ token = .endOfInput

/-- The tokens that looking ahead can leave pushed back. -/
inductive Left : List Obj → Prop where
  | nothing : Left []
  | one {token : Obj} : IsToken token → Left [token]
  | two {n : Int} {token : Obj} : IsToken token → Left [.int n, token]

namespace Left
variable {token : Obj} {pending : List Obj}

theorem tail (h : Left (token :: pending)) : Left pending := by
  cases h with
  | one _ => exact .nothing
  | two h => exact .one h

theorem isToken (h : Left (token :: pending)) : IsToken token := by
  cases h with
  | one h => exact h
  | two _ => exact .inl trivial

theorem eq_nil (h : Left (token :: pending)) (hint : ∀ n, token ≠ .int n) : pending = [] := by
  cases h with
  | one _ => rfl
  | two _ => exact absurd rfl (hint _)

theorem tail_eq_nil (h : Left (token :: pending)) : pending.tail = [] := by
  cases h <;> rfl

end Left

/-- A reader that has passed over some bytes and told things on the way, as part of the same object. -/
structure Reached (s : Reader Direct) (pending : List Obj) (r : Reader Direct) : Prop where
  passes : ∃ bytes, s.cursor.Passes bytes r.cursor
  pending_eq : r.pending = pending
  settings_eq : r.settings = s.settings
  context_eq : r.context = s.context
  told_eq : r.told.isSome = s.told.isSome
  records_eq : ∃ new, r.records = s.records ++ new ∧ ∀ record ∈ new, record.IsUpTo r.cursor.offset

section Reached
variable {s : Reader Direct} {pending : List Obj}

theorem reached_self (s : Reader Direct) : Reached s s.pending s :=
  ⟨⟨[], .refl _⟩, rfl, rfl, rfl, rfl, [], by simp, by simp⟩

theorem Reached.isInside {r : Reader Direct} (h : Reached s pending r) (hs : s.cursor.IsInside) :
    r.cursor.IsInside := by
  obtain ⟨bytes, hpass⟩ := h.passes
  exact hpass.isInside hs

theorem Reached.pass {r : Reader Direct} (h : Reached s pending r) {bytes : Bytes} {d : Direct}
    (hpass : r.cursor.Passes bytes d) : Reached s pending { r with cursor := d } := by
  obtain ⟨before, hbefore⟩ := h.passes
  obtain ⟨new, hnew, hupto⟩ := h.records_eq
  refine { h with passes := ⟨_, hbefore.trans hpass⟩, records_eq := ⟨new, hnew, ?_⟩ }
  intro record hmem
  obtain ⟨text, place, htext, hle⟩ := hupto record hmem
  exact ⟨text, place, htext, Int.le_trans hle hpass.offset_le⟩

theorem Reached.recorded {r : Reader Direct} (h : Reached s pending r) (level : Level)
    (message text : String) : Reached s pending (r.recorded level message text) := by
  obtain ⟨new, hnew, hupto⟩ := h.records_eq
  unfold Reader.recorded
  split
  · exact h
  · refine { h with
      told_eq := by rw [← h.told_eq]; simp
      records_eq := ⟨new ++ [⟨level, located text r.cursor.offset⟩], ?_, ?_⟩ }
    · simp only [hnew, List.append_assoc]
      rfl
    · intro record hmem
      rcases List.mem_append.mp hmem with hmem | hmem
      · exact hupto record hmem
      · rw [List.mem_singleton.mp hmem]
        exact ⟨text, _, rfl, Int.le_refl _⟩

theorem Reached.within {r r' : Reader Direct} {pending' : List Obj} {ref : Ref}
    (h : Reached s pending r) (h' : Reached { r with context := ref } pending' r') :
    Reached s pending' { r' with context := r.context } := by
  obtain ⟨before, hbefore⟩ := h.passes
  obtain ⟨bytes, hbytes⟩ := h'.passes
  obtain ⟨new, hnew, hupto⟩ := h.records_eq
  obtain ⟨new', hnew', hupto'⟩ := h'.records_eq
  refine ⟨⟨_, hbefore.trans hbytes⟩, h'.pending_eq, h'.settings_eq.trans h.settings_eq, h.context_eq,
    h'.told_eq.trans h.told_eq, new ++ new', ?_, ?_⟩
  · change r'.records = _
    rw [hnew', ← List.append_assoc, ← hnew]
  · intro record hmem
    rcases List.mem_append.mp hmem with hmem | hmem
    · obtain ⟨text, place, htext, hle⟩ := hupto record hmem
      exact ⟨text, place, htext, Int.le_trans hle hbytes.offset_le⟩
    · exact hupto' record hmem

end Reached

def Rests (s r : Reader Direct) : Prop :=
  ∃ pending, Left pending ∧ Reached s pending r

/-- A reader that has just taken a token, which it may push back. -/
def Holds (s : Reader Direct) (token : Obj) (r : Reader Direct) : Prop :=
  ∃ pending, Left (token :: pending) ∧ Reached s pending r

section Steps
variable {s : Reader Direct} {token : Obj} {pending : List Obj}
variable {E : Failure → Reader Direct → Prop}

theorem Holds.rests {r : Reader Direct} (h : Holds s token r) : Rests s r := by
  obtain ⟨pending, hleft, hr⟩ := h
  exact ⟨pending, hleft.tail, hr⟩

theorem rests_of_reached {r : Reader Direct} (h : Reached s [] r) : Rests s r :=
  ⟨[], .nothing, h⟩

theorem Holds.reached {r : Reader Direct} (h : Holds s token r) (hint : ∀ n, token ≠ .int n) :
    Reached s [] r := by
  obtain ⟨pending, hleft, hr⟩ := h
  rwa [hleft.eq_nil hint] at hr

/-- Taking a token either takes back what was pushed back last or passes over bytes. -/
theorem token_reached (hs : s.cursor.IsInside) (hleft : Left pending) :
    Ensures (Reached s pending) Reader.token
      (fun token r => Left (token :: pending.tail) ∧ Reached s pending.tail r) (fun _ => Rests s) := by
  intro r hr
  cases hp : r.pending with
  | cons first rest =>
    obtain rfl : first :: rest = pending := hp.symm.trans hr.pending_eq
    rw [token_of_pending hp]
    exact ⟨hleft, { hr with pending_eq := rfl }⟩
  | nil =>
    obtain rfl : [] = pending := hp.symm.trans hr.pending_eq
    obtain ⟨bytes, d, hpass, hread⟩ := token_ensures hp (hr.isInside hs)
    have hd := hr.pass hpass
    cases hscan : Lexer.scan r.settings.tolerant .gap r.cursor.rest with
    | none =>
      rw [hscan] at hread
      rw [hread]
      exact rests_of_reached hd
    | some result =>
      obtain ⟨verdict, rest⟩ := result
      rw [hscan] at hread
      rw [hread.2]
      cases verdict with
      | token token => exact ⟨.one ((Lexer.isLexeme_of_scan hscan).imp_right And.left), hd⟩
      | fault fault => exact rests_of_reached hd
      | cutShort string => exact ⟨.one (.inl trivial), hd.recorded _ _ _⟩

theorem token_holds (hs : s.cursor.IsInside) :
    Ensures (Rests s) Reader.token (Holds s) (fun _ => Rests s) :=
  .of_exists fun _ => .of_fact fun hleft =>
    (token_reached hs hleft).weaken (fun _ h => h) (fun _ _ h => ⟨_, h⟩) (fun _ _ h => h)

theorem push_reached (token : Obj) :
    Ensures (Reached s pending) (push token) (fun _ => Reached s (token :: pending)) E :=
  fun r hr => { hr with pending_eq := by rw [← hr.pending_eq] }

theorem push_rests (token : Obj) : Ensures (Holds s token) (push token) (fun _ => Rests s) E :=
  .of_exists fun _ => .of_fact fun hleft =>
    (push_reached token).weaken (fun _ h => h) (fun _ _ h => ⟨_, hleft, h⟩) (fun _ _ h => h)

theorem fail_rests {α : Type} {fault : Fault} {Q : α → Reader Direct → Prop} :
    Ensures (Rests s) (fail fault) Q (fun _ => Rests s) :=
  fail_ensures fun _ h => h

/-- After an integer at most one token is pushed back, and two at most are when looking ahead is over. -/
theorem suffix_rests (hs : s.cursor.IsInside) (n id : Int) :
    Ensures (Holds s (.int n)) (suffix id) (fun _ => Rests s) (fun _ => Rests s) := by
  refine .of_exists fun pending => .of_fact fun hleft => ?_
  have hnil := hleft.tail_eq_nil
  apply (token_reached hs hleft.tail).bind
  intro second
  refine .of_fact fun hsecond => ?_
  rw [hnil] at hsecond ⊢
  cases hnat : second.natural? Ref.genLimit with
  | none =>
    exact (push_reached second).bind fun _ => .pure fun r hr => ⟨_, hsecond, hr⟩
  | some gen =>
    apply (token_reached hs .nothing).bind
    intro third
    refine .of_fact fun hthird => ?_
    apply Ensures.ite
    · exact fun _ => .pure fun r hr => rests_of_reached hr
    · intro _
      apply Ensures.ite
      · exact fun _ => .pure fun r hr => rests_of_reached hr
      · intro _
        obtain ⟨rfl, -⟩ := eq_int_of_natural? hnat
        exact (push_reached third).bind fun _ => (push_reached (.int gen)).bind fun _ =>
          .pure fun r hr => ⟨_, .two hthird.isToken, hr⟩

end Steps
end Reader
end PdfSyntax
