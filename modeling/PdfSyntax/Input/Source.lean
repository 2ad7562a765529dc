import PdfSyntax.Byte

/-!
# Sources

A source holds fixed data and a position in it. A read yields some of the bytes at the position, never
more than asked for; how many is up to the source. A generous source yields at least one as long as
there are any; from another one it may seem that the data have ended. A source may also refuse, and
then the position stays. Only a movable source can be put at another position, which may lie beyond
the data.
-/

set_option autoImplicit false

namespace PdfSyntax

structure Source where
  data : Bytes
  position : Nat
  isMovable : Bool
  reads : Nat
  /-- How many bytes the source is willing to yield, by the number of the read and the count asked for. -/
  grant : Nat → Nat → Nat
  /-- Why a read is refused, by the number of the read and the position. -/
  refusal : Nat → Nat → Option String

namespace Source
variable (s : Source)

/-- A source at the start of its data that yields all it is asked for. -/
def ofData (data : Bytes) : Source :=
  ⟨data, 0, true, 0, fun _ count => count, fun _ _ => none⟩

def rest : Bytes :=
  s.data.drop s.position

/-- What the next read yields when asked for a number of bytes. -/
def block (count : Nat) : Bytes :=
  s.rest.take (min count (s.grant s.reads count))

def read (count : Nat) : Except String Bytes × Source :=
  match s.refusal s.reads s.position with
  | some reason => (.error reason, { s with reads := s.reads + 1 })
  | none =>
    (.ok (s.block count),
      { s with reads := s.reads + 1, position := s.position + (s.block count).length })

def moveTo (position : Nat) : Source :=
  { s with position }

/-- Whether the source is always willing to yield something. -/
def IsGenerous : Prop :=
  ∀ read count, 0 < count → 0 < s.grant read count

theorem isGenerous_ofData (data : Bytes) : (ofData data).IsGenerous :=
  fun _ _ h => h

theorem length_block_le (count : Nat) : (s.block count).length ≤ count := by
  simp only [block, List.length_take]
  omega

/-- A read of a positive number of bytes from a generous source yields nothing only at the end. -/
theorem block_eq_nil_iff {s : Source} (hs : s.IsGenerous) {count : Nat} (h : 0 < count) :
    s.block count = [] ↔ s.rest = [] := by
  have := hs s.reads count h
  simp only [block, List.take_eq_nil_iff]
  constructor
  · rintro (h' | h')
    · omega
    · exact h'
  · exact Or.inr

/-- What a read leaves is what was there without the bytes it yields. -/
theorem block_append_rest (count : Nat) :
    s.block count ++ (s.moveTo (s.position + (s.block count).length)).rest = s.rest := by
  have h : s.block count <+: s.rest := List.take_prefix _ _
  obtain ⟨t, ht⟩ := h
  have hdrop : s.rest.drop (s.block count).length = t := by rw [← ht]; simp
  simp only [moveTo, rest] at hdrop ⊢
  rw [← List.drop_drop, hdrop]
  exact ht

end Source
end PdfSyntax
