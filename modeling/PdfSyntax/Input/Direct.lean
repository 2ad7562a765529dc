import PdfSyntax.Input.Cursor

/-!
# Direct cursors

A direct cursor has all data at hand and looks each byte up by its offset. It does what a buffer does
over a generous source with the same data, without blocks.
-/

set_option autoImplicit false

namespace PdfSyntax

/-- A place in data, by its offset. -/
structure Direct where
  data : Bytes
  /-- The offset of the first byte of the data. -/
  origin : Int
  offset : Int
  /-- Whether a tolerated end was reached. -/
  isEnded : Bool

namespace Direct
variable (d : Direct)

def stop : Int :=
  d.origin + d.data.length

def byte? : Option UInt8 :=
  if d.origin ≤ d.offset then d.data[(d.offset - d.origin).toNat]? else none

/-- How many bytes there are from the place to the end of the data. -/
def left : Nat :=
  (d.stop - d.offset).toNat

/-- What becomes of the place at the end of the data. -/
def atEnd (tolerant : Bool) : Except Failure Direct :=
  if tolerant then .ok { d with isEnded := true } else .error (.unexpectedEnd d.offset)

def next (tolerant : Bool) : EStateM Failure Direct (Option UInt8) := fun d =>
  match d.byte? with
  | some byte => .ok (some byte) { d with offset := d.offset + 1 }
  | none =>
    match d.atEnd tolerant with
    | .ok d' => .ok none d'
    | .error e => .error e d

def back : Direct :=
  { d with offset := d.offset - 1 }

def seek (target : Int) : EStateM Failure Direct Unit := fun d =>
  let d' := { d with offset := target, isEnded := false }
  if target < d.origin then .error (.negativePosition (target - d.origin)) d' else .ok () d'

/-- Goes to an offset that is not behind; beyond the end of the data is the end of the data. -/
def forward (tolerant : Bool) (target : Int) : EStateM Failure Direct Unit := fun d =>
  if target < d.offset then .error (.backward d.offset target) d
  else if target ≤ max d.offset d.stop then .ok () { d with offset := target }
  else
    let d' := { d with offset := max d.offset d.stop }
    match d'.atEnd tolerant with
    | .ok d'' => .ok () d''
    | .error e => .error e d'

theorem left_next {tolerant : Bool} {d d' : Direct} {byte : UInt8}
    (h : next tolerant d = .ok (some byte) d') : d'.left < d.left := by
  simp only [next] at h
  cases hb : d.byte? with
  | none =>
    simp only [hb] at h
    cases ha : d.atEnd tolerant <;> simp [ha] at h
  | some b =>
    simp only [hb, EStateM.Result.ok.injEq, Option.some.injEq] at h
    obtain ⟨rfl, rfl⟩ := h
    simp only [byte?] at hb
    split at hb
    · have := (List.getElem?_eq_some_iff.mp hb).1
      simp only [left, stop]
      omega
    · simp at hb

theorem left_end {tolerant : Bool} {d d' : Direct} (h : next tolerant d = .ok none d') :
    d'.left ≤ d.left := by
  simp only [next] at h
  cases hb : d.byte? with
  | some b => simp [hb] at h
  | none =>
    cases tolerant with
    | false => simp [hb, atEnd] at h
    | true =>
      simp only [hb, atEnd, if_true, EStateM.Result.ok.injEq, true_and] at h
      subst h
      exact Nat.le_refl _

instance : Cursor Direct where
  next := next
  back := back
  offset := offset
  isEnded := isEnded
  seek := seek
  forward := forward
  left := left
  left_next := left_next
  left_end := left_end

end Direct
end PdfSyntax
