import PdfSyntax.Proofs.Reader.Journal
import PdfSyntax.Proofs.Reader.Likeness

/-!
# Readers over cursors that cannot be told apart

Readers over related cursors, the same in all else, are alike. So they do the same in every operation
that neither gives back bytes of its own nor skips forward. Only the byte after a carriage return in
`streamStart` and the byte after a token in `lex` are given back, each right after it was yielded.
-/

set_option autoImplicit false

namespace PdfSyntax

variable {σ τ α β : Type}

namespace Reader

def withCursor (r : Reader σ) (cursor : τ) : Reader τ :=
  { r with cursor }

/-- Readers that differ in their cursors only, and these are related. -/
def Alike (R : σ → τ → Prop) (r : Reader σ) (s : Reader τ) : Prop :=
  ∃ d, R r.cursor d ∧ s = r.withCursor d

section Plain
variable {R : σ → τ → Prop}

theorem alike_new {c : σ} {d : τ} (h : R c d) (settings : Settings) (decrypt : Decipherment)
    (quiet : Bool) : Alike R (.new c settings decrypt quiet) (.new d settings decrypt quiet) :=
  ⟨d, h, rfl⟩

theorem keep_of_withCursor {m : Reading σ α} {n : Reading τ α}
    (h : ∀ (r : Reader σ) (d : τ), match m r with
      | .ok a r' => n (r.withCursor d) = .ok a (r'.withCursor d) ∧ r'.cursor = r.cursor
      | .error e r' => n (r.withCursor d) = .error e (r'.withCursor d) ∧ r'.cursor = r.cursor) :
    Keep Failure (Alike R) m n := by
  intro r s halike
  rcases halike with ⟨d, hR, rfl⟩
  have hr := h r d
  cases hm : m r with
  | ok a r' =>
    rw [hm] at hr
    obtain ⟨hn, hc⟩ := hr
    rw [hn]
    exact .ok ⟨d, hc ▸ hR, rfl⟩
  | error e r' =>
    rw [hm] at hr
    obtain ⟨hn, hc⟩ := hr
    rw [hn]
    exact .error ⟨d, hc ▸ hR, rfl⟩

theorem set_keep (setting : Setting) : Keep Failure (Alike R) (set (σ := σ) setting) (set setting) := by
  apply keep_of_withCursor
  intro r d
  cases setting <;> exact ⟨rfl, rfl⟩

theorem append_keep (entry : Record) : Keep Failure (Alike R)
    (modify fun r => { r with records := r.records ++ [entry] } : Reading σ Unit)
    (modify fun r => { r with records := r.records ++ [entry] }) :=
  keep_of_withCursor fun _ _ => ⟨rfl, rfl⟩

theorem isNews_keep (message : String) :
    Keep Failure (Alike R) (isNews (σ := σ) message) (isNews message) := by
  intro r s halike
  rcases halike with ⟨d, hR, rfl⟩
  cases htold : r.told with
  | none =>
    rw [isNews_of_none htold, isNews_of_none (r := r.withCursor d) htold]
    exact .ok ⟨d, hR, rfl⟩
  | some told =>
    rw [isNews_of_some htold, isNews_of_some (r := r.withCursor d) htold]
    by_cases h : told.contains message = true
    · rw [if_pos h, if_pos h]
      exact .ok ⟨d, hR, rfl⟩
    · rw [if_neg h, if_neg h]
      exact .ok ⟨d, hR, rfl⟩

theorem decipher_keep (data : Bytes) :
    Keep Failure (Alike R) (decipher (σ := σ) data) (decipher data) := by
  apply decipher_keep_of_same
  · rintro r s ⟨d, hR, rfl⟩
    rfl
  · rintro r s ⟨d, hR, rfl⟩
    rfl
  · rintro r s ⟨d, hR, rfl⟩
    rfl
  · rintro r s request ⟨d, hR, rfl⟩
    exact ⟨d, hR, rfl⟩

end Plain

section Simulated
variable [Cursor σ] [Cursor τ] {R : σ → τ → Prop} {within : Int → Prop}
variable (sim : Simulation R within)
include sim

theorem place_keep : Keep Failure (Alike R) (place (σ := σ)) place := by
  intro r s halike
  rcases halike with ⟨d, hR, rfl⟩
  have h := sim.offset hR
  change SameEnd _ _ (.ok (Cursor.offset r.cursor) r) (.ok (Cursor.offset d) (r.withCursor d))
  rw [h]
  exact .ok ⟨d, hR, rfl⟩

theorem tell_keep (message : String) (text : Except Failure String) :
    Keep Failure (Alike R) (tell (σ := σ) message text) (tell message text) := by
  apply (isNews_keep message).bind
  intro news
  cases news with
  | false => exact .pure fun _ _ h => h
  | true =>
    exact (ofExcept_keep _ text).bind fun _ => (place_keep sim).bind fun _ => .pure fun _ _ h => h

theorem record_keep (level : Level) (message : String) (text : Except Failure String) :
    Keep Failure (Alike R) (record (σ := σ) level message text) (record level message text) := by
  apply (tell_keep sim message text).bind
  intro told
  cases told with
  | none => exact .pure fun _ _ h => h
  | some text => exact append_keep ⟨level, text⟩

theorem alike_likeness : Likeness (σ := σ) R (Alike R) where
  cursor := by
    rintro r s ⟨d, hR, rfl⟩
    exact hR
  withCursor := by
    rintro r s c d ⟨_, _, rfl⟩ hR
    exact ⟨d, hR, rfl⟩
  pending := by
    rintro r s ⟨d, hR, rfl⟩
    rfl
  withPending := by
    rintro r s pending ⟨d, hR, rfl⟩
    exact ⟨d, hR, rfl⟩
  switches := by
    rintro r s ⟨d, hR, rfl⟩
    exact r.settings.sameSwitches_self
  context := by
    rintro r s ⟨d, hR, rfl⟩
    rfl
  record _ := record_keep sim _ _ _
  withContext := by
    rintro r s context ⟨d, hR, rfl⟩
    exact ⟨d, hR, rfl⟩
  decipher := decipher_keep

theorem tokens_keep (count : Nat) : Keep Failure (Alike R) (tokens (σ := σ) count) (tokens count) :=
  ((alike_likeness sim).toTokenLikeness.congruence sim).tokens count

theorem objects_keep : Keep Failure (Alike R) (objects (σ := σ)) objects :=
  (alike_likeness sim).objects_keep sim

end Simulated

end Reader
end PdfSyntax
