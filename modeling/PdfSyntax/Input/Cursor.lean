import PdfSyntax.Failure

/-!
# Cursors

A cursor stands in a sequence of bytes at an offset, which may be negative. It yields the bytes one by
one, and a byte just yielded can be given back. The end of the bytes is a failure, unless it is
tolerated: then the cursor remembers that it was reached. More bytes may yet come after it.
-/

set_option autoImplicit false

namespace PdfSyntax

class Cursor (σ : Type) where
  /-- The next byte, or nothing at a tolerated end. -/
  next (tolerant : Bool) : EStateM Failure σ (Option UInt8)
  /-- Gives the byte back that was yielded last. -/
  back : σ → σ
  /-- Where the next byte stands. -/
  offset : σ → Int
  /-- Whether a tolerated end was reached. -/
  isEnded : σ → Bool
  /-- Goes to an offset. -/
  seek (target : Int) : EStateM Failure σ Unit
  /-- Goes to an offset by reading up to it. -/
  forward (tolerant : Bool) (target : Int) : EStateM Failure σ Unit
  /-- A bound on the number of bytes still to come. -/
  left : σ → Nat
  left_next {tolerant : Bool} {c c' : σ} {b : UInt8} :
    next tolerant c = .ok (some b) c' → left c' < left c
  left_end {tolerant : Bool} {c c' : σ} : next tolerant c = .ok none c' → left c' ≤ left c

end PdfSyntax
