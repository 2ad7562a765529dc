import PdfSyntax.Proofs.Input.Forward

/-!
# What no move of a buffer changes

A buffer never changes its source but for the position and the count of reads, nor its block size, nor
what it takes for the start of the source. A seek settles all the rest except the count of reads, so it
makes any buffer a fresh one at the target. Two such buffers cannot be told apart if the source is
steady, or if it goes by other things than the count and the blocks are of one size.
-/

set_option autoImplicit false

namespace PdfSyntax

/-- Whether what a source yields or refuses does not depend on how often it was read. -/
structure Source.IsUniform (s : Source) : Prop where
  grant_eq : ∀ read read' count, s.grant read count = s.grant read' count
  refusal_eq : ∀ read read' position, s.refusal read position = s.refusal read' position

/-- A source that was read another number of times. -/
def Source.recount (s : Source) (reads : Nat) : Source :=
  { s with reads }

namespace Source.IsUniform
variable {s : Source} (h : s.IsUniform)
include h

theorem moveTo (position : Nat) : (s.moveTo position).IsUniform :=
  ⟨h.grant_eq, h.refusal_eq⟩

theorem read (count : Nat) : (s.read count).2.IsUniform := by
  unfold Source.read
  split <;> exact ⟨h.grant_eq, h.refusal_eq⟩

theorem read_recount (reads count : Nat) : (s.recount reads).read count =
    ((s.read count).1, (s.read count).2.recount (reads + 1)) := by
  have hblock : (s.recount reads).block count = s.block count := by
    simp only [Source.recount, Source.block, Source.rest, h.grant_eq reads s.reads]
  simp only [Source.read, hblock]
  simp only [Source.recount, h.refusal_eq reads s.reads]
  cases s.refusal s.reads s.position <;> rfl

end Source.IsUniform

/-- What a source always has, as a source that was never moved or read. -/
def Source.frame (s : Source) : Source :=
  { s with position := 0, reads := 0 }

theorem Source.frame_read (s : Source) (count : Nat) : (s.read count).2.frame = s.frame := by
  unfold Source.read
  split <;> rfl

namespace Buffer

/-- What a buffer always has, as a buffer that was never moved. -/
def frame (b : Buffer) : Buffer where
  source := b.source.frame
  blockSize := b.blockSize
  origin := b.origin
  before := []
  after := []
  stop := 0
  isEnded := false

/-- What moves may have made of a buffer. -/
def StemsFrom (start b : Buffer) : Prop :=
  b.frame = start.frame

theorem stemsFrom_self (b : Buffer) : StemsFrom b b :=
  rfl

theorem Over.frame {medium : Medium} {b : Buffer} (h : Over medium b) : Over medium b.frame :=
  { h with steady := ⟨h.steady.generous, h.steady.unrefused⟩, ended := fun hended => by cases hended }

theorem over_of_frame {medium : Medium} {b : Buffer} (h : Over medium b.frame)
    (hended : b.isEnded = true → b.block = [] ∧ b.source.rest = []) : Over medium b :=
  { h with steady := ⟨h.steady.generous, h.steady.unrefused⟩, ended := hended }

namespace StemsFrom
variable {start b : Buffer} (h : StemsFrom start b)
include h

theorem isOver {medium : Medium} (hstart : Over medium start)
    (hended : b.isEnded = true → b.block = [] ∧ b.source.rest = []) : Over medium b := by
  have hframe := hstart.frame
  rw [← h] at hframe
  exact over_of_frame hframe hended

/-- The source may have been moved and read, and the block may be another one. -/
theorem replaced {source : Source} (hframe : source.frame = b.source.frame)
    (before after : Bytes) (stop : Int) (isEnded : Bool) :
    StemsFrom start { b with source, before, after, stop, isEnded } := by
  rw [StemsFrom, ← h, frame, hframe]
  rfl

theorem blockSize_eq : b.blockSize = start.blockSize := by
  have hblockSize := congrArg Buffer.blockSize (show b.frame = start.frame from h)
  exact hblockSize

theorem origin_eq : b.origin = start.origin := by
  have horigin := congrArg Buffer.origin (show b.frame = start.frame from h)
  exact horigin

theorem source_eq : b.source.frame = start.source.frame := by
  have hsource := congrArg Buffer.source (show b.frame = start.frame from h)
  exact hsource

theorem data_eq : b.source.data = start.source.data := by
  have hdata := congrArg Source.data h.source_eq
  exact hdata

theorem grant_eq : b.source.grant = start.source.grant := by
  have hgrant := congrArg Source.grant h.source_eq
  exact hgrant

theorem isGenerous (hstart : start.source.IsGenerous) : b.source.IsGenerous := by
  rw [Source.IsGenerous, h.grant_eq]
  exact hstart

theorem back : StemsFrom start b.back := by
  unfold Buffer.back
  split <;> exact h

theorem take {b' : Buffer} {byte : UInt8} (ht : b.take = some (byte, b')) : StemsFrom start b' := by
  unfold Buffer.take at ht
  split at ht
  · cases ht
  · cases ht
    exact h

end StemsFrom

section Seek
variable {b : Buffer} {origin target : Int}

theorem seek_of_none (h : b.origin = none) : seek target b =
    .ok () { b with before := [], after := [], stop := target, isEnded := false } := by
  simp only [seek, h]

theorem seek_of_lt (h : b.origin = some origin) (hlt : target < origin) : seek target b =
    .error (.negativePosition (target - origin))
      { b with before := [], after := [], stop := target, isEnded := false } := by
  simp only [seek, h, if_pos hlt]

theorem seek_of_le (h : b.origin = some origin) (hle : origin ≤ target) : seek target b =
    .ok () { b with
      source := b.source.moveTo (target - origin).toNat
      before := [], after := [], stop := target, isEnded := false } := by
  simp only [seek, h, if_neg (show ¬ target < origin by omega)]

end Seek

section Moves
variable (start : Buffer)

theorem refill_stems (tolerant : Bool) : Ensures (StemsFrom start) (refill tolerant)
    (fun _ => StemsFrom start) (fun _ => StemsFrom start) := by
  intro b h
  have hframe := b.source.frame_read b.room
  by_cases hsize : b.blockSize = 0
  · simpa only [refill, if_pos hsize] using h
  · simp only [refill, if_neg hsize]
    generalize b.source.read b.room = result at hframe ⊢
    obtain ⟨yielded, source⟩ := result
    cases yielded with
    | error reason => exact h.replaced hframe ..
    | ok block =>
      cases block with
      | nil => cases tolerant <;> exact h.replaced hframe ..
      | cons byte block => exact h.replaced hframe ..

theorem next_stems (tolerant : Bool) : Ensures (StemsFrom start) (next tolerant)
    (fun _ => StemsFrom start) (fun _ => StemsFrom start) := by
  intro b h
  simp only [next]
  cases ht : b.take with
  | some taken => exact h.take ht
  | none =>
    have hrefill := refill_stems start tolerant b h
    cases hr : refill tolerant b with
    | error e b' =>
      rw [hr] at hrefill
      exact hrefill
    | ok more b' =>
      rw [hr] at hrefill
      cases more with
      | false => exact hrefill
      | true =>
        cases ht' : b'.take with
        | none => simpa only [ht'] using hrefill
        | some taken => simpa only [ht'] using StemsFrom.take hrefill ht'

theorem seek_stems (target : Int) : Ensures (StemsFrom start) (seek target)
    (fun _ => StemsFrom start) (fun _ => StemsFrom start) := by
  intro b h
  cases ho : b.origin with
  | none =>
    rw [seek_of_none ho]
    exact h.replaced rfl ..
  | some origin =>
    by_cases hlt : target < origin
    · rw [seek_of_lt ho hlt]
      exact h.replaced rfl ..
    · rw [seek_of_le ho (by omega)]
      exact h.replaced rfl ..

theorem forward_stems (tolerant : Bool) (target : Int) : Ensures (StemsFrom start)
    (forward tolerant target) (fun _ => StemsFrom start) (fun _ => StemsFrom start) :=
  forward_ensures (refill_stems start tolerant) (fun _ h => h) (fun _ h => h) target

end Moves

/-- A seek makes any buffer a fresh one at the target, but for the count of reads. -/
theorem StemsFrom.seek {source : Source} {offset target : Int} {blockSize : Nat} {b : Buffer}
    (h : StemsFrom (atOffset source offset blockSize) b)
    (ht : (Medium.ofSource source offset).Reaches target) :
    let position := (target - (Medium.ofSource source offset).origin).toNat
    Buffer.seek target b = .ok () (atOffset ((source.moveTo position).recount b.source.reads)
      target blockSize) := by
  intro position
  obtain ⟨hmovable, hle⟩ := ht
  simp only [Medium.ofSource] at hmovable hle
  have hposition : target - (position : Int) = offset - source.position := by
    simp only [position, Medium.ofSource]
    omega
  obtain ⟨⟨data, place, isMovable, reads, grant, refusal⟩, size, origin, before, after, stop,
    isEnded⟩ := b
  simp only [StemsFrom, frame, Source.frame, atOffset, if_pos hmovable, Buffer.mk.injEq,
    Source.mk.injEq, true_and, and_true] at h
  obtain ⟨⟨rfl, rfl, rfl, rfl⟩, rfl, rfl⟩ := h
  rw [seek_of_le rfl hle]
  simp only [atOffset, Source.recount, Source.moveTo, if_pos hmovable, hposition]
  rfl

def recount (b : Buffer) (reads : Nat) : Buffer :=
  { b with source := b.source.recount reads }

/-- Buffers over a uniform source that differ in the count of reads only. -/
def Recounted (b c : Buffer) : Prop :=
  b.source.IsUniform ∧ ∃ reads, c = b.recount reads

theorem Recounted.back {b c : Buffer} (h : Recounted b c) : Recounted b.back c.back := by
  obtain ⟨huniform, reads, rfl⟩ := h
  obtain ⟨source, blockSize, origin, before, after, stop, isEnded⟩ := b
  cases before with
  | nil => exact ⟨huniform, reads, rfl⟩
  | cons byte before => exact ⟨huniform, reads, rfl⟩

theorem take_recounted {b c : Buffer} (h : Recounted b c) :
    (b.take = none ∧ c.take = none) ∨
      ∃ byte b' c', b.take = some (byte, b') ∧ c.take = some (byte, c') ∧ Recounted b' c' := by
  obtain ⟨huniform, reads, rfl⟩ := h
  cases ha : b.after with
  | nil => exact .inl ⟨by simp only [Buffer.take, ha], by simp only [Buffer.take, recount, ha]⟩
  | cons byte after =>
    refine .inr ⟨byte, { b with before := byte :: b.before, after },
      { b.recount reads with before := byte :: b.before, after }, ?_, ?_, huniform, reads, rfl⟩
    · simp only [Buffer.take, ha]
    · simp only [Buffer.take, recount, ha]

theorem refill_recounted (tolerant : Bool) :
    Keep Failure Recounted (refill tolerant) (refill tolerant) := by
  rintro b c ⟨huniform, reads, rfl⟩
  by_cases hsize : b.blockSize = 0
  · have hsize' : (b.recount reads).blockSize = 0 := hsize
    simp only [refill, if_pos hsize, if_pos hsize']
    exact .error ⟨huniform, reads, rfl⟩
  · have hsize' : ¬ (b.recount reads).blockSize = 0 := hsize
    have hread : (b.recount reads).source.read (b.recount reads).room = _ :=
      huniform.read_recount reads b.room
    have hafter := huniform.read b.room
    simp only [refill, if_neg hsize, if_neg hsize', hread]
    generalize b.source.read b.room = result at hafter ⊢
    obtain ⟨yielded, source⟩ := result
    cases yielded with
    | error reason => exact .error ⟨hafter, reads + 1, rfl⟩
    | ok block =>
      cases block with
      | nil =>
        cases tolerant with
        | true => exact .ok ⟨hafter, reads + 1, rfl⟩
        | false => exact .error ⟨hafter, reads + 1, rfl⟩
      | cons byte block => exact .ok ⟨hafter, reads + 1, rfl⟩

theorem next_recounted (tolerant : Bool) : Agree Recounted (next tolerant) (next tolerant)
    (fun byte b c => Recounted b c ∧ (byte.isSome → Recounted b.back c.back))
    (fun _ => Recounted) := by
  intro b c h
  simp only [next]
  rcases take_recounted h with ⟨hb, hc⟩ | ⟨byte, b', c', hb, hc, h'⟩
  · have hrefill := refill_recounted tolerant b c h
    simp only [hb, hc]
    generalize refill tolerant b = x at hrefill ⊢
    generalize refill tolerant c = y at hrefill ⊢
    cases hrefill with
    | error he => exact .error he
    | @ok more b' c' h' =>
      cases more with
      | false => exact .ok ⟨h', fun h => by cases h⟩
      | true =>
        rcases take_recounted h' with ⟨hb', hc'⟩ | ⟨byte, b'', c'', hb', hc', h''⟩
        · simp only [hb', hc']
          exact .error h'
        · simp only [hb', hc']
          exact .ok ⟨h'', fun _ => h''.back⟩
  · simp only [hb, hc]
    exact .ok ⟨h', fun _ => h'.back⟩

theorem seek_recounted (target : Int) : Keep Failure Recounted (seek target) (seek target) := by
  rintro b c ⟨huniform, reads, rfl⟩
  rcases ho : b.origin with _ | origin
  · have ho' : (b.recount reads).origin = none := ho
    rw [seek_of_none ho, seek_of_none ho']
    exact .ok ⟨huniform, reads, rfl⟩
  · have ho' : (b.recount reads).origin = some origin := ho
    by_cases hlt : target < origin
    · rw [seek_of_lt ho hlt, seek_of_lt ho' hlt]
      exact .error ⟨huniform, reads, rfl⟩
    · rw [seek_of_le ho (by omega), seek_of_le ho' (by omega)]
      exact .ok ⟨huniform.moveTo _, reads, rfl⟩

theorem recounted_simulation (within : Int → Prop) : Simulation Recounted within where
  next := next_recounted
  offset := by
    rintro b c ⟨-, reads, rfl⟩
    rfl
  isEnded := by
    rintro b c ⟨-, reads, rfl⟩
    rfl
  left := by
    rintro b c ⟨-, reads, rfl⟩
    rfl
  seek _ := seek_recounted _

end Buffer

namespace Source

/-- Whether a source that is read in blocks of two sizes yields the same, however often it was read
before: it yields all that it has, or it does not go by the count of reads and the sizes are equal. -/
def Serves (source : Source) (size size' : Nat) : Prop :=
  source.IsSteady ∧ 0 < size ∧ 0 < size' ∨ source.IsUniform ∧ size = size'

namespace Serves
variable {source : Source} {size size' : Nat} (h : source.Serves size size')
include h

theorem moveTo (position : Nat) : (source.moveTo position).Serves size size' := by
  rcases h with ⟨hsteady, hsizes⟩ | ⟨huniform, heq⟩
  · exact .inl ⟨hsteady.moveTo position, hsizes⟩
  · exact .inr ⟨huniform.moveTo position, heq⟩

/-- Fresh buffers at one offset cannot be told apart, whatever the counts of reads. -/
theorem exists_simulation (offset : Int) :
    ∃ R, Simulation R (Medium.ofSource source offset).Reaches ∧ ∀ reads reads',
      R (Buffer.atOffset (source.recount reads) offset size)
        (Buffer.atOffset (source.recount reads') offset size') := by
  rcases h with ⟨hsteady, hsize, hsize'⟩ | ⟨huniform, rfl⟩
  · have sim := Buffer.simulation (.ofSource source offset)
    have hcount : ∀ reads, (source.recount reads).IsSteady :=
      fun _ => ⟨hsteady.generous, hsteady.unrefused⟩
    exact ⟨_, sim.meet sim, fun reads reads' => ⟨_, Buffer.shows_atOffset (hcount reads) offset hsize,
      Buffer.shows_atOffset (hcount reads') offset hsize'⟩⟩
  · refine ⟨Buffer.Recounted, Buffer.recounted_simulation _, fun reads reads' => ?_⟩
    exact ⟨⟨huniform.grant_eq, huniform.refusal_eq⟩, reads', rfl⟩

end Serves
end Source
end PdfSyntax
