import PdfSyntax.File
import PdfSyntax.Proofs.Reader.Form
import PdfSyntax.Proofs.Session.Invariant
import PdfSyntax.Proofs.Session.Payload

/-!
# Only well-formed objects come out

As long as nobody pushes back the end of the input, or something that is no object, calls for objects
yield nothing but well-formed objects and the end, whatever the data, the settings and the decipherment
are, whatever the source refuses, and wherever the data are cut short.
-/

set_option autoImplicit false

namespace PdfSyntax

variable {σ α : Type}

/-- Whether an operation pushes back nothing but keywords and well-formed objects, if it pushes back
anything. -/
def Operation.PushesSound : Operation → Prop
  | .push obj => obj.IsSound
  | _ => True

theorem Operation.ReadsObjects.pushesSound {within : Int → Prop} {operation : Operation}
    (h : operation.ReadsObjects within) : operation.PushesSound := by
  cases operation <;> trivial

/-- Whether an outcome is a well-formed object or the end in its place, or a list of well-formed
objects. -/
def Outcome.IsWellFormed : Outcome → Prop
  | .object (some obj) => obj = .endOfInput ∨ obj.IsWellFormed
  | .objects objs => ∀ obj ∈ objs, obj.IsWellFormed
  | _ => False

namespace Reader

section Moves
variable {I D : σ → Prop}

theorem Sound.told {r : Reader σ} (h : Sound I D r) (told : List String) :
    Sound I D { r with told := some told } :=
  { h with }

theorem Sound.cleared {r : Reader σ} (h : Sound I D r) : Sound I D r.cleared :=
  { h with }

theorem set_sound (setting : Setting) : KeepsSound I D (set (σ := σ) setting) := by
  intro r hr
  cases setting <;> exact { hr with }

/-- A seek throws away what is pushed back, so it does not matter what the cursor has come to. -/
theorem seek_sound [Cursor σ] (ends : Cursor.Ends I D) (target : Int) :
    KeepsSound I D (seek (σ := σ) target) := by
  intro r hr
  have hseek := ends.law.seek target r.cursor hr.cursor
  have hafter : ∀ {c}, I c → Sound I D { r with pending := [], cursor := c } := fun hc =>
    ⟨hc, fun _ hmem => (List.not_mem_nil hmem).elim, .nil, fun hmem => (List.not_mem_nil hmem).elim⟩
  cases hm : Cursor.seek target r.cursor with
  | ok a c =>
    rw [hm] at hseek
    rw [show seek target r = .ok a { r with pending := [], cursor := c } from
      onCursor_of_ok (r := { r with pending := [] }) hm]
    exact hafter hseek
  | error e c =>
    rw [hm] at hseek
    rw [show seek target r = .error e { r with pending := [], cursor := c } from
      onCursor_of_error (r := { r with pending := [] }) hm]
    exact hafter hseek

end Moves

section Perform
variable [Cursor σ] {I D : σ → Prop} (ends : Cursor.Ends I D)
include ends

theorem token_keeps : KeepsSound I D (token (σ := σ)) :=
  (token_sound ends).weaken (fun _ h => h) (fun _ _ h => h.sound) (fun _ _ h => h)

theorem forward_sound (target : Int) : KeepsSound I D (forward (σ := σ) target) :=
  getSettings_sound.bind fun settings =>
    onCursor_sound (ends.law.forward settings.tolerant target) (ends.forward settings.tolerant target)

theorem object_keeps : Ensures (Sound I D) (object (σ := σ))
    (fun obj r => (obj = .endOfInput ∨ obj.IsWellFormed) ∧ Sound I D r) (fun _ => Sound I D) := by
  refine (object_gives ends).weaken (fun _ h => h) (fun obj r h => ?_) (fun _ _ h => h)
  exact ⟨h.elim (fun h => .inr h.1) (fun h => .inl h.1), h.sound⟩

theorem objects_makes : Ensures (Sound I D) (objects (σ := σ))
    (fun objs r => (∀ obj ∈ objs, obj.IsWellFormed) ∧ Sound I D r) (fun _ => Sound I D) :=
  fun r hr => objectsWithin_makes ends (r.weight + 1) r hr

theorem perform_sound {operation : Operation} (h : operation.PushesSound) :
    Ensures (Sound I D) (perform operation)
      (fun outcome r => (operation.ReadsObjects (fun _ => True) → outcome.IsWellFormed) ∧ Sound I D r)
      (fun _ => Sound I D) := by
  have out : ∀ {α : Type} {m : Reading σ α} {f : α → Outcome} {A : Prop}, ¬ A → KeepsSound I D m →
      Ensures (Sound I D) (m >>= fun a => Pure.pure (f a))
        (fun outcome r => (A → outcome.IsWellFormed) ∧ Sound I D r) (fun _ => Sound I D) :=
    fun hA hm => hm.bind fun _ => .pure fun _ hr => ⟨fun h => (hA h).elim, hr⟩
  have given : ∀ {m : Reading σ Obj} {A : Prop},
      Ensures (Sound I D) m (fun obj r => (obj = .endOfInput ∨ obj.IsWellFormed) ∧ Sound I D r)
        (fun _ => Sound I D) →
      Ensures (Sound I D) (m >>= fun obj => Pure.pure (Outcome.object (some obj)))
        (fun outcome r => (A → outcome.IsWellFormed) ∧ Sound I D r) (fun _ => Sound I D) :=
    fun hm => hm.bind fun _ => .pure fun _ hr => ⟨fun _ => hr.1, hr.2⟩
  cases operation with
  | byte => exact out id (byte_sound ends)
  | bytes count => exact out id (bytes_keeps (byte_sound ends) count)
  | back => exact out id (back_sound ends)
  | offset => exact out id fun _ h => h
  | seek target => exact out id (seek_sound ends target)
  | forward target => exact out id (forward_sound ends target)
  | push token => exact out id (push_sound h)
  | pop => exact out id pop_sound
  | token => exact out id (token_keeps ends)
  | tokens count =>
    apply Ensures.ite
    · exact fun _ => out id (tokens_keeps (token_keeps ends) _)
    · exact fun _ => .throw fun _ h => h
  | tokenOr fallback => exact out id ((token_keeps ends).bind fun _ => .pure fun _ h => h)
  | object => exact given (object_keeps ends)
  | objectAt target => exact given ((seek_sound ends target).bind fun _ => object_keeps ends)
  | objects => exact (objects_makes ends).bind fun _ => .pure fun _ hr => ⟨fun _ => hr.1, hr.2⟩
  | set setting => exact out id (set_sound setting)
  | tell template arguments =>
    exact out id (tell_ensures (P := Sound I D) (fun told _ h => h.told told) _ _)
  | record level template arguments =>
    exact out id (record_ensures (P := Sound I D) (fun told _ h => h.told told)
      (fun _ h => { h with }) _ _ _)
  | fail template arguments =>
    exact failWith_ensures template arguments (fun _ _ h => h) fun _ _ h => h

end Perform
end Reader

namespace Session

theorem step_sound [Cursor σ] {I D : σ → Prop} (ends : Cursor.Ends I D) (scope : Scope)
    {operation : Operation} (h : operation.PushesSound) {r : Reader σ} (hr : r.Sound I D) :
    (∀ outcome, (step scope operation r).outcome = .ok outcome →
      operation.ReadsObjects (fun _ => True) → outcome.IsWellFormed) ∧
      (step scope operation r).reader.Sound I D :=
  step_ensures (Reader.perform_sound ends h) scope hr.cleared

/-- After any operations that push back nothing but sound tokens, and go on with calls for objects, all
that comes out of these calls is well-formed. -/
theorem isWellFormed_of_readsObjects (source : Source) (offset : Int) (blockSize : Nat)
    (settings : Settings) (decrypt : Decipherment) (quiet : Bool) (scope : Scope)
    (steps calls : List (Operation × Nat))
    (hconclusive : source.IsConclusive) (hsteps : ∀ step ∈ steps, step.1.PushesSound)
    (hcalls : ∀ call ∈ calls, call.1.ReadsObjects fun _ => True) :
    let fresh : Reader Buffer := .new (.atOffset source offset blockSize) settings decrypt quiet
    let r := readerAfter (run scope steps fresh) fresh
    ∀ report ∈ run .objects calls r, ∀ outcome, report.outcome = .ok outcome →
      outcome.IsWellFormed := by
  intro fresh r
  let I : Buffer → Prop := fun b => fresh.cursor.StemsFrom b ∧ b.IsSpent
  have ends : Cursor.Ends I Buffer.IsDrained := Buffer.ends hconclusive
  have hfresh : fresh.Sound I Buffer.IsDrained :=
    ⟨⟨Buffer.stemsFrom_self _, fun hended => by cases hended⟩, fun _ hmem => (List.not_mem_nil hmem).elim, .nil,
      fun hmem => (List.not_mem_nil hmem).elim⟩
  have hr : r.Sound I Buffer.IsDrained :=
    (run_keeps (P := Reader.Sound I Buffer.IsDrained)
      (Q := fun _ => True) scope
      (fun step hs _ h => ⟨trivial, (step_sound ends scope (hsteps step hs) h).2⟩) hfresh).2
  refine (run_keeps (P := Reader.Sound I Buffer.IsDrained)
    (Q := fun report => ∀ outcome, report.outcome = .ok outcome → outcome.IsWellFormed)
    .objects (fun call hcall s h => ?_) hr).1
  have hreads := hcalls call hcall
  obtain ⟨houtcome, hafter⟩ := step_sound ends .objects hreads.pushesSound h
  exact ⟨fun outcome heq => houtcome outcome heq hreads, hafter⟩

/-- A definition, an array and a dictionary that the data cut short, a key that comes twice, a refused
read, a string that cannot be deciphered, and a bracket that is pushed back. -/
theorem isWellFormed_of_readsObjects_of_cut_data :
    let source : Source := ⟨Latin1.ascii "[1 2 R] 7 0 obj (x) <</A 1/A [/B", 0, true, 0,
      fun read _ => read % 2 + 1, fun read _ => if read = 3 then some "disk on fire" else none⟩
    let settings : Settings := ⟨true, true, true, some [], .aes⟩
    let steps : List (Operation × Nat) := [(.byte, 1), (.push (.keyword "["), 1), (.object, 2)]
    let calls : List (Operation × Nat) := [(.object, 3), (.objectAt 16, 2), (.objects, 1)]
    let fresh : Reader Buffer := .new (.atOffset source (-4) 3) settings Request.decrypt true
    let r := readerAfter (run .objects steps fresh) fresh
    source.IsConclusive ∧ (∀ step ∈ steps, step.1.PushesSound) ∧
    (∀ call ∈ calls, call.1.ReadsObjects fun _ => True) ∧
    ∀ report ∈ run .objects calls r, ∀ outcome, report.outcome = .ok outcome →
      outcome.IsWellFormed := by
  intro source settings steps calls
  have hconclusive : source.IsConclusive := fun read _ _ _ hzero => absurd hzero (Nat.succ_ne_zero _)
  have hsteps : ∀ step ∈ steps, step.1.PushesSound := by
    intro step hstep
    simp only [steps, List.mem_cons, List.not_mem_nil, or_false] at hstep
    rcases hstep with rfl | rfl | rfl
    · trivial
    · exact .inl ⟨"[", rfl⟩
    · trivial
  have hcalls : ∀ call ∈ calls, call.1.ReadsObjects fun _ => True := by
    intro call hcall
    simp only [calls, List.mem_cons, List.not_mem_nil, or_false] at hcall
    rcases hcall with rfl | rfl | rfl
    all_goals trivial
  exact ⟨hconclusive, hsteps, hcalls,
    isWellFormed_of_readsObjects source (-4) 3 settings Request.decrypt true .objects steps calls
      hconclusive hsteps hcalls⟩

end Session
end PdfSyntax
