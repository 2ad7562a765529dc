import PdfSyntax.Proofs.Input.Frame
import PdfSyntax.Proofs.Reader.Journal
import PdfSyntax.Proofs.Reader.Likeness

/-!
# What no move changes

What every move of a cursor keeps is kept by whatever is made of its moves. A reader is like itself as
long as its cursor is as it should be, so what is known of readers that are alike speaks of one reader
too.
-/

set_option autoImplicit false

namespace PdfSyntax

variable {σ α : Type}

/-- What all moves of a cursor keep, also those that fail. -/
structure Cursor.Invariant [Cursor σ] (I : σ → Prop) : Prop where
  next : ∀ tolerant, Ensures I (Cursor.next tolerant) (fun _ => I) (fun _ => I)
  back : ∀ {c}, I c → I (Cursor.back c)
  seek : ∀ target, Ensures I (Cursor.seek target) (fun _ => I) (fun _ => I)
  forward : ∀ tolerant target, Ensures I (Cursor.forward tolerant target) (fun _ => I) (fun _ => I)

/-- What all moves of a cursor keep, also those that fail, as long as it is sent to some of the offsets
only. -/
structure Cursor.Law [Cursor σ] (within : Int → Prop) (I : σ → Prop) : Prop where
  next : ∀ tolerant, Ensures I (Cursor.next tolerant) (fun _ => I) (fun _ => I)
  back : ∀ {c}, I c → I (Cursor.back c)
  seek : ∀ {target}, within target → Ensures I (Cursor.seek target) (fun _ => I) (fun _ => I)
  forward : ∀ tolerant target, Ensures I (Cursor.forward tolerant target) (fun _ => I) (fun _ => I)

theorem Cursor.Invariant.law [Cursor σ] {I : σ → Prop} (inv : Cursor.Invariant I) :
    Cursor.Law (fun _ => True) I where
  next := inv.next
  back := inv.back
  seek _ := inv.seek _
  forward := inv.forward

theorem Cursor.Law.and [Cursor σ] {within : Int → Prop} {I J : σ → Prop}
    (hI : Cursor.Law within I) (hJ : Cursor.Law within J) :
    Cursor.Law within fun c => I c ∧ J c where
  next tolerant := (hI.next tolerant).and (hJ.next tolerant)
  back h := ⟨hI.back h.1, hJ.back h.2⟩
  seek h := (hI.seek h).and (hJ.seek h)
  forward tolerant target := (hI.forward tolerant target).and (hJ.forward tolerant target)

/-- What holds of all cursors does not depend on where they are sent. -/
theorem Cursor.Law.of_imp [Cursor σ] {within within' : Int → Prop} {I : σ → Prop}
    (law : Cursor.Law within I) (h : ∀ target, within' target → within target) :
    Cursor.Law within' I :=
  { law with seek := fun htarget => law.seek (h _ htarget) }

theorem Buffer.stemsFrom_invariant (start : Buffer) : Cursor.Invariant (Buffer.StemsFrom start) where
  next := Buffer.next_stems start
  back h := h.back
  seek := Buffer.seek_stems start
  forward := Buffer.forward_stems start

/-- What is promised before and after, seen as a relation of a state to itself. -/
def Fixed (P : σ → Prop) (s t : σ) : Prop :=
  t = s ∧ P s

theorem Ensures.keep {ε : Type} {P : σ → Prop} {m : EStateM ε σ α}
    (h : Ensures P m (fun _ => P) (fun _ => P)) : Keep ε (Fixed P) m m := by
  rintro s t ⟨rfl, hs⟩
  have hm := h t hs
  cases hr : m t with
  | ok a s' =>
    rw [hr] at hm
    exact .ok ⟨rfl, hm⟩
  | error e s' =>
    rw [hr] at hm
    exact .error ⟨rfl, hm⟩

theorem Cursor.Law.simulation [Cursor σ] {within : Int → Prop} {I : σ → Prop}
    (law : Cursor.Law within I) : Simulation (Fixed I) within where
  next tolerant := by
    rintro c d ⟨rfl, hc⟩
    have hnext := law.next tolerant d hc
    cases hr : Cursor.next tolerant d with
    | ok byte c' =>
      rw [hr] at hnext
      exact .ok ⟨⟨rfl, hnext⟩, fun _ => ⟨rfl, law.back hnext⟩⟩
    | error e c' =>
      rw [hr] at hnext
      exact .error ⟨rfl, hnext⟩
  offset h := by rw [h.1]
  isEnded h := by rw [h.1]
  left h := by rw [h.1]
  seek h := (law.seek h).keep

/-- What all moves keep the lexer keeps. -/
theorem Cursor.Law.lex [Cursor σ] {within : Int → Prop} {I : σ → Prop} (law : Cursor.Law within I)
    (tolerant : Bool) (state : Lexer.State) :
    Ensures I (Reader.lex tolerant state) (fun _ => I) (fun _ => I) := by
  intro c hc
  have hkeep := Reader.lex_keep law.simulation tolerant state c c ⟨rfl, hc⟩
  generalize Reader.lex tolerant state c = result at hkeep ⊢
  cases hkeep with
  | ok h => exact h.2
  | error h => exact h.2

namespace Reader

/-- A reader with its cursor as it should be, that deciphers so, and that is quiet or not. -/
structure Over (I : σ → Prop) (decrypt : Decipherment) (quiet : Bool) (r : Reader σ) : Prop where
  cursor : I r.cursor
  decrypt_eq : r.decrypt = decrypt
  told_eq : r.told.isSome = quiet

section Over
variable {I : σ → Prop} {decrypt : Decipherment} {quiet : Bool}

theorem over_new {c : σ} (hc : I c) (settings : Settings) (decrypt : Decipherment) (quiet : Bool) :
    Over I decrypt quiet (.new c settings decrypt quiet) :=
  ⟨hc, rfl, by cases quiet <;> rfl⟩

theorem onCursor_over {m : EStateM Failure σ α} (h : Ensures I m (fun _ => I) (fun _ => I)) :
    Ensures (Over I decrypt quiet) (onCursor m) (fun _ => Over I decrypt quiet)
      (fun _ => Over I decrypt quiet) := by
  intro r hr
  have hm := h r.cursor hr.cursor
  cases hc : m r.cursor with
  | ok a c =>
    rw [hc] at hm
    rw [onCursor_of_ok hc]
    exact { hr with cursor := hm }
  | error e c =>
    rw [hc] at hm
    rw [onCursor_of_error hc]
    exact { hr with cursor := hm }

theorem set_over (setting : Setting) : Ensures (Over I decrypt quiet) (set (σ := σ) setting)
    (fun _ => Over I decrypt quiet) (fun _ => Over I decrypt quiet) := by
  intro r hr
  cases setting <;> exact { hr with }

theorem Over.told {r : Reader σ} (h : Over I decrypt quiet r) (told : List String)
    (hsome : r.told.isSome = true) : Over I decrypt quiet { r with told := some told } :=
  { h with told_eq := hsome.symm.trans h.told_eq }

/-- What the moves of a cursor keep is kept by whatever keeps readers alike. -/
theorem stays_of_keep {past : σ → Prop} {m : Reading σ α}
    (h : ∀ decrypt quiet, Keep Failure (Fixed (Over past decrypt quiet)) m m) :
    Ensures (fun r => past r.cursor) m (fun _ r => past r.cursor) (fun _ r => past r.cursor) := by
  intro r hr
  have hkeep := h r.decrypt r.told.isSome r r ⟨rfl, hr, rfl, rfl⟩
  generalize m r = x at hkeep ⊢
  cases hkeep with
  | ok hq => exact hq.2.cursor
  | error he => exact he.2.cursor

variable [Cursor σ]

theorem record_over (level : Level) (message : String) (text : Except Failure String) :
    Ensures (Over I decrypt quiet) (record (σ := σ) level message text)
      (fun _ => Over I decrypt quiet) (fun _ => Over I decrypt quiet) :=
  record_ensures (fun told hsome h => h.told told hsome) (fun _ h => { h with }) level message text

theorem over_likeness : Likeness (Fixed I) (Fixed (Over I decrypt quiet)) where
  cursor h := ⟨by rw [h.1], h.2.cursor⟩
  withCursor := by
    rintro r s c d ⟨rfl, hr⟩ ⟨rfl, hc⟩
    exact ⟨rfl, { hr with cursor := hc }⟩
  pending h := by rw [h.1]
  withPending := by
    rintro r s pending ⟨rfl, hr⟩
    exact ⟨rfl, { hr with }⟩
  switches h := by rw [h.1]; exact Settings.sameSwitches_self _
  context h := by rw [h.1]
  record _ := (record_over _ _ _).keep
  withContext := by
    rintro r s context ⟨rfl, hr⟩
    exact ⟨rfl, { hr with }⟩
  decipher data := (decipher_ensures (fun _ h => { h with }) data).keep

end Over
end Reader
end PdfSyntax
