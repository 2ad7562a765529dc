import PdfSyntax.Proofs.Activity

/-!
# What a reader tells

A message changes nothing but what was told, if the reader is quiet, and the records. So what these
changes keep is kept by every message, whether it is news or not, and whether its text can be made or
not.
-/

set_option autoImplicit false

namespace PdfSyntax.Reader

variable {σ : Type}

theorem isNews_of_none {message : String} {r : Reader σ} (h : r.told = none) :
    isNews message r = .ok true r := by
  obtain ⟨c, pending, settings, context, decrypt, told, records, requests⟩ := r
  cases h
  rfl

theorem isNews_of_some {message : String} {told : List String} {r : Reader σ}
    (h : r.told = some told) : isNews message r =
      if told.contains message then .ok false r
      else .ok true { r with told := some (message :: told) } := by
  obtain ⟨c, pending, settings, context, decrypt, told', records, requests⟩ := r
  cases h
  by_cases hknown : told.contains message = true
  · rw [if_pos hknown]
    exact congrArg (fun p : Bool × Reader σ => EStateM.Result.ok p.1 p.2) (if_pos hknown)
  · rw [if_neg hknown]
    exact congrArg (fun p : Bool × Reader σ => EStateM.Result.ok p.1 p.2) (if_neg hknown)

section Kept
variable {P : Reader σ → Prop}
variable (htold : ∀ {r : Reader σ} (told : List String), r.told.isSome = true → P r →
  P { r with told := some told })
include htold

theorem isNews_ensures (message : String) : Ensures P (isNews message) (fun _ => P) (fun _ => P) := by
  intro r hr
  cases hr' : r.told with
  | none =>
    rw [isNews_of_none hr']
    exact hr
  | some told =>
    rw [isNews_of_some hr']
    by_cases h : told.contains message = true
    · rw [if_pos h]
      exact hr
    · rw [if_neg h]
      exact htold _ (by rw [hr']; rfl) hr

variable [Cursor σ]

theorem tell_ensures (message : String) (text : Except Failure String) :
    Ensures P (tell message text) (fun _ => P) (fun _ => P) := by
  apply (isNews_ensures htold message).bind
  intro news
  cases news with
  | false => exact .pure fun _ h => h
  | true =>
    cases text with
    | ok text => exact fun _ h => h
    | error e => exact fun _ h => h

theorem record_ensures (hrecords : ∀ {r : Reader σ} (records : List Record), P r → P { r with records })
    (level : Level) (message : String) (text : Except Failure String) :
    Ensures P (record level message text) (fun _ => P) (fun _ => P) := by
  apply (tell_ensures htold message text).bind
  intro told
  cases told with
  | none => exact .pure fun _ h => h
  | some text => exact fun _ h => hrecords _ h

end Kept
end PdfSyntax.Reader
