import PdfSyntax.Proofs.Input.Blocks
import PdfSyntax.Proofs.Session.Agreement

/-!
# Sessions do not see blocks

A session over a buffer shows what it shows over a direct cursor, so neither the block size nor the
source's way of yielding bytes matters. Nor does it matter if bytes are given back by returning to the
very state before they were yielded: every byte that is given back is the one just yielded.
-/

set_option autoImplicit false

namespace PdfSyntax

/-- A cursor that gives a byte back by returning to where it was before that byte was yielded. Where no
byte was yielded last, it stays. -/
structure Rewinding (σ : Type) where
  cursor : σ
  previous : σ

namespace Rewinding
variable {σ : Type}

def start (cursor : σ) : Rewinding σ :=
  ⟨cursor, cursor⟩

variable [Cursor σ]

def next (tolerant : Bool) : EStateM Failure (Rewinding σ) (Option UInt8) := fun c =>
  match Cursor.next tolerant c.cursor with
  | .ok (some byte) cursor => .ok (some byte) ⟨cursor, c.cursor⟩
  | .ok none cursor => .ok none (start cursor)
  | .error e cursor => .error e (start cursor)

def onCursor (activity : EStateM Failure σ Unit) : EStateM Failure (Rewinding σ) Unit := fun c =>
  match activity c.cursor with
  | .ok a cursor => .ok a (start cursor)
  | .error e cursor => .error e (start cursor)

theorem left_next {tolerant : Bool} {c c' : Rewinding σ} {byte : UInt8}
    (h : next tolerant c = .ok (some byte) c') : Cursor.left c'.cursor < Cursor.left c.cursor := by
  unfold next at h
  split at h
  · next hc =>
    cases h
    exact Cursor.left_next hc
  · cases h
  · cases h

theorem left_end {tolerant : Bool} {c c' : Rewinding σ} (h : next tolerant c = .ok none c') :
    Cursor.left c'.cursor ≤ Cursor.left c.cursor := by
  unfold next at h
  split at h
  · cases h
  · next hc =>
    cases h
    exact Cursor.left_end hc
  · cases h

instance : Cursor (Rewinding σ) where
  next := next
  back c := start c.previous
  offset c := Cursor.offset c.cursor
  isEnded c := Cursor.isEnded c.cursor
  seek target := onCursor (Cursor.seek target)
  forward tolerant target := onCursor (Cursor.forward tolerant target)
  left c := Cursor.left c.cursor
  left_next := left_next
  left_end := left_end

/-- Giving back is exact for a direct cursor, so what shows it can just as well be rewound. -/
theorem simulation {R : σ → Direct → Prop} {within : Int → Prop} (sim : Simulation R within) :
    Simulation (fun (c : Rewinding σ) d => R c.cursor d) within where
  next := by
    intro tolerant c d hR
    have h := sim.next tolerant c.cursor d hR
    change SameEnd _ _ (next tolerant c) (Direct.next tolerant d)
    change SameEnd _ _ (Cursor.next tolerant c.cursor) (Direct.next tolerant d) at h
    unfold next
    cases hd : Direct.next tolerant d with
    | error e d' =>
      rw [hd] at h
      generalize Cursor.next tolerant c.cursor = x at h ⊢
      cases h with
      | error he => exact .error he
    | ok byte d' =>
      rw [hd] at h
      generalize Cursor.next tolerant c.cursor = x at h ⊢
      cases h with
      | ok hq =>
        cases byte with
        | none => exact .ok ⟨hq.1, fun h => by cases h⟩
        | some b =>
          have hback : d'.back = d := Direct.back_of_next hd
          refine .ok ⟨hq.1, fun _ => ?_⟩
          change R c.cursor d'.back
          rw [hback]
          exact hR
  offset h := sim.offset h
  isEnded h := sim.isEnded h
  left h := sim.left h
  seek := by
    intro target ht c d hR
    have h := sim.seek ht c.cursor d hR
    change SameEnd _ _ (onCursor (Cursor.seek target) c) (Cursor.seek target d)
    unfold onCursor
    generalize Cursor.seek target c.cursor = x at h ⊢
    generalize Cursor.seek target d = y at h ⊢
    cases h with
    | ok hq => exact .ok hq
    | error he => exact .error he

end Rewinding

namespace Session

def views {σ : Type} [Cursor σ] (scope : Scope) (steps : List (Operation × Nat)) (cursor : σ)
    (settings : Settings) (decrypt : Decipherment) (quiet : Bool) : List View :=
  (run scope steps (.new cursor settings decrypt quiet)).map Report.view

theorem views_buffer_eq_direct {source : Source} {offset : Int} {blockSize : Nat}
    (hsteady : source.IsSteady) (hsize : 0 < blockSize) (scope : Scope)
    {steps : List (Operation × Nat)}
    (hsteps : ∀ step ∈ steps, step.1.KeepsWithin (Medium.ofSource source offset).Reaches)
    (settings : Settings) (decrypt : Decipherment) (quiet : Bool) :
    views scope steps (Buffer.atOffset source offset blockSize) settings decrypt quiet =
      views scope steps ((Medium.ofSource source offset).cursorAt offset) settings decrypt quiet :=
  map_view_run_eq (Buffer.simulation _) scope hsteps
    (Reader.alike_new (Buffer.shows_atOffset hsteady offset hsize) settings decrypt quiet)

/-- No session sees the blocks: it shows the same over a direct cursor, over a buffer that returns to
where it was whenever a byte is given back, and over any other blocks of the same data. -/
theorem views_independent_of_blocks (source : Source) (offset : Int) (blockSize : Nat)
    (settings : Settings) (decrypt : Decipherment) (quiet : Bool) (scope : Scope)
    (steps : List (Operation × Nat)) (hsteady : source.IsSteady) (hsize : 0 < blockSize)
    (hsteps : ∀ step ∈ steps, step.1.KeepsWithin (Medium.ofSource source offset).Reaches) :
    let shown := views scope steps (Buffer.atOffset source offset blockSize) settings decrypt quiet
    shown = views scope steps ((Medium.ofSource source offset).cursorAt offset) settings decrypt quiet ∧
    shown = views scope steps (Rewinding.start (Buffer.atOffset source offset blockSize)) settings
      decrypt quiet ∧
    ∀ (other : Source) (otherSize : Nat), other.IsSteady → 0 < otherSize →
      other.data = source.data → other.position = source.position →
      other.isMovable = source.isMovable →
      shown = views scope steps (Buffer.atOffset other offset otherSize) settings decrypt quiet := by
  intro shown
  have hdirect : shown = _ :=
    views_buffer_eq_direct hsteady hsize scope hsteps settings decrypt quiet
  refine ⟨hdirect, ?_, ?_⟩
  · rw [hdirect]
    exact (map_view_run_eq (Rewinding.simulation (Buffer.simulation _)) scope hsteps
      (Reader.alike_new (c := Rewinding.start (Buffer.atOffset source offset blockSize))
        (Buffer.shows_atOffset hsteady offset hsize) settings decrypt quiet)).symm
  · intro other otherSize hother hotherSize hdata hposition hmovable
    have hmedium : Medium.ofSource other offset = Medium.ofSource source offset := by
      simp only [Medium.ofSource, hdata, hposition, hmovable]
    rw [← hmedium] at hsteps
    rw [hdirect, ← hmedium]
    exact (views_buffer_eq_direct hother hotherSize scope hsteps settings decrypt quiet).symm

/-- Blocks of three bytes from offset 4 on, of which one or two are yielded at a time. -/
theorem views_independent_of_blocks_of_short_reads :
    let source : Source := ⟨Latin1.ascii "<</A 1>>stream\r\n(\\12)", 0, true, 0,
      fun read _ => read % 2 + 1, fun _ _ => none⟩
    let steps : List (Operation × Nat) := [(.object, 2), (.seek 5, 1), (.byte, 1), (.objectAt 9, 3)]
    let settings : Settings := ⟨true, true, true, none, .rc4⟩
    source.IsSteady ∧ 0 < 3 ∧
    (∀ step ∈ steps, step.1.KeepsWithin (Medium.ofSource source 4).Reaches) ∧
    views .objects steps (Buffer.atOffset source 4 3) settings Request.decrypt false =
      views .objects steps ((Medium.ofSource source 4).cursorAt 4) settings Request.decrypt false := by
  intro source steps settings
  have hsteady : source.IsSteady := ⟨fun read _ _ => Nat.succ_pos (read % 2), fun _ _ => rfl⟩
  have hsteps : ∀ step ∈ steps, step.1.KeepsWithin (Medium.ofSource source 4).Reaches := by
    intro step hstep
    simp only [steps, List.mem_cons, List.not_mem_nil, or_false] at hstep
    rcases hstep with rfl | rfl | rfl | rfl
    · trivial
    · exact ⟨rfl, by decide⟩
    · trivial
    · exact ⟨rfl, by decide⟩
  exact ⟨hsteady, by omega, hsteps,
    (views_independent_of_blocks source 4 3 settings Request.decrypt false .objects steps hsteady
      (by omega) hsteps).1⟩

end Session
end PdfSyntax
