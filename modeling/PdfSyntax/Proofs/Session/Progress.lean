import PdfSyntax.Proofs.Cipher.StringCipher
import PdfSyntax.Proofs.Reader.Termination
import PdfSyntax.Proofs.Session.Ahead
import Mathlib.Data.Nat.Find

/-!
# Every reader comes to the end

Whoever asks a tolerant reader for objects again and again, and takes no notice of failures, comes to
the end of the input. Every call that neither fails nor yields an object yields the end; every other
one leaves less unread.
-/

set_option autoImplicit false

namespace PdfSyntax

theorem Request.decrypt_answers : Decipherment.Answers Request.decrypt where
  kind_of_isSmall := by
    intro request e href h
    unfold Request.decrypt at h
    cases hdecrypt : StringCipher.decrypt request.algorithm request.key request.ref request.data with
    | ok plain =>
      rw [hdecrypt] at h
      cases h
    | error fault =>
      have hfault := StringCipher.isInString_of_decrypt href hdecrypt
      rw [hdecrypt] at h
      cases h
      cases fault with
      | refRange _ | refused _ => cases hfault
      | _ => rfl
  ne_exhausted := by
    intro request h
    unfold Request.decrypt at h
    generalize StringCipher.decrypt _ _ _ _ = result at h
    cases result <;> cases h

variable {σ : Type} [Cursor σ]

namespace Session

/-- The reader after so many calls for an object, whatever came of each. -/
def afterObjects (r : Reader σ) : Nat → Reader σ
  | 0 => r
  | count + 1 => (step .objects .object (afterObjects r count)).reader

/-- What the call for an object reports that comes after so many others. -/
def objectCall (r : Reader σ) (count : Nat) : Report σ :=
  step .objects .object (afterObjects r count)

/-- A reader that gets on with every object, and with every failure. -/
structure Ready (InFront : σ → Bytes → Prop) (r : Reader σ) : Prop where
  inFront : ∃ bytes, InFront r.cursor bytes
  answers : r.decrypt.Answers
  tidy : r.IsTidy

section Calls
variable {InFront : σ → Bytes → Prop} {r : Reader σ}

theorem step_object_of_ok {object : Obj} {r' : Reader σ}
    (h : Reader.object r.cleared = .ok object r') : step .objects .object r =
      ⟨.ok (.object (some object)), r'.records, r'.requests, r'⟩ := by
  rw [step_of_includes rfl]
  change Report.ofResult ((Reader.object >>= fun object => Pure.pure (.object (some object)))
    r.cleared) = _
  simp only [Bind.bind, EStateM.bind, h]
  rfl

theorem step_object_of_error {e : Failure} {r' : Reader σ}
    (h : Reader.object r.cleared = .error e r') : step .objects .object r =
      ⟨.error e, r'.records, r'.requests, r'⟩ := by
  rw [step_of_includes rfl]
  change Report.ofResult ((Reader.object >>= fun object => Pure.pure (.object (some object)))
    r.cleared) = _
  simp only [Bind.bind, EStateM.bind, h]
  rfl

/-- A call yields the end of the input and leaves nothing unread, or it leaves less unread. -/
theorem step_object (supplies : Supplies InFront) (h : Ready InFront r) :
    Ready InFront (step .objects .object r).reader ∧
    (∀ e, (step .objects .object r).outcome = .error e → e.kind = .input) ∧
    (((step .objects .object r).isEnd = true ∧ (step .objects .object r).reader.unread = 0) ∨
      ((step .objects .object r).isEnd = false ∧
        (step .objects .object r).reader.unread + 1 ≤ r.unread)) := by
  have htidy : r.cleared.IsTidy :=
    ⟨h.tidy.tolerant, h.tidy.context, h.tidy.ends_last, h.tidy.left_eq⟩
  have htook := Reader.object_took supplies.wanes (r := r.cleared) h.inFront r.cleared rfl
  cases hobject : Reader.object r.cleared with
  | ok object r' =>
    rw [hobject] at htook
    rw [step_object_of_ok hobject]
    have hspent := htook.spent
    refine ⟨⟨hspent.cursor, hspent.decrypt_eq ▸ h.answers, (hspent.tidy ⟨trivial, htidy⟩).1⟩, ?_, ?_⟩
    · intro e he
      cases he
    · rcases htook with ⟨hend, -, hzero⟩ | ⟨hend, hspent⟩
      · exact .inl ⟨hend, hzero ⟨trivial, htidy⟩⟩
      · obtain ⟨-, hle⟩ := hspent.tidy ⟨trivial, htidy⟩
        exact .inr ⟨hend, hle⟩
  | error e r' =>
    rw [hobject] at htook
    rw [step_object_of_error hobject]
    have hstuck : Reader.Stuck (fun c => ∃ bytes, InFront c bytes) True r.cleared 1 e r' := htook
    obtain ⟨htidy', hle⟩ := hstuck.tidy ⟨trivial, htidy⟩
    refine ⟨⟨hstuck.cursor, hstuck.decrypt_eq ▸ h.answers, htidy'⟩, ?_, .inr ⟨rfl, hle⟩⟩
    intro e' he
    cases he
    exact hstuck.kind_eq h.answers htidy.context

theorem ready_afterObjects (supplies : Supplies InFront) (h : Ready InFront r) (count : Nat) :
    Ready InFront (afterObjects r count) := by
  induction count with
  | zero => exact h
  | succ count ih => exact (step_object supplies ih).1

end Calls

/-- What goes down until something happens, and then is nothing, makes it happen in time and for ever. -/
theorem exists_first {happens : Nat → Prop} (measure : Nat → Nat)
    (hzero : ∀ n, happens n → measure (n + 1) = 0)
    (hless : ∀ n, ¬ happens n → measure (n + 1) + 1 ≤ measure n) :
    ∃ first ≤ measure 0, ∀ n, happens n ↔ first ≤ n := by
  classical
  have hstays : ∀ n, happens n → happens (n + 1) := by
    intro n hn
    by_contra hnot
    have := hzero n hn
    have := hless (n + 1) hnot
    omega
  have hsum : ∀ n, (∀ m < n, ¬ happens m) → measure n + n ≤ measure 0 := by
    intro n
    induction n with
    | zero => exact fun _ => Nat.le_refl _
    | succ n ih =>
      intro hnot
      have := ih fun m hm => hnot m (by omega)
      have := hless n (hnot n (by omega))
      omega
  have hexists : ∃ n, happens n := by
    by_contra hnone
    have := hsum (measure 0 + 1) fun m _ hm => hnone ⟨m, hm⟩
    omega
  refine ⟨Nat.find hexists, ?_, fun n => ⟨fun hn => Nat.find_min' hexists hn, fun hle => ?_⟩⟩
  · have := hsum (Nat.find hexists) fun m hm => Nat.find_min hexists hm
    omega
  · induction n, hle using Nat.le_induction with
    | base => exact Nat.find_spec hexists
    | succ n _ ih => exact hstays n ih

theorem exists_calls {InFront : σ → Bytes → Prop} (supplies : Supplies InFront) {r : Reader σ}
    (h : Ready InFront r) :
    ∃ calls ≤ r.unread, ∀ n, (objectCall r n).isEnd = true ↔ calls ≤ n := by
  apply exists_first fun n => (afterObjects r n).unread
  · intro n hend
    rcases (step_object supplies (ready_afterObjects supplies h n)).2.2 with ⟨-, hzero⟩ | ⟨hnot, -⟩
    · exact hzero
    · exact absurd (hend.symm.trans hnot) (by decide)
  · intro n hend
    rcases (step_object supplies (ready_afterObjects supplies h n)).2.2 with ⟨hyes, -⟩ | ⟨-, hle⟩
    · exact absurd hyes hend
    · exact hle

/-- Reading an object ends in every state that a reader over a steady source can be brought to: a
higher bound on the nesting never makes a difference, and the bound is never what a reading fails for.
If the reader tolerates the end, calls for objects find fault with nothing but the input, and after at
most as many as there are bytes every call yields the end. -/
theorem objects_end (source : Source) (offset : Int) (blockSize : Nat) (settings : Settings)
    (decrypt : Decipherment) (quiet : Bool) (hsteady : source.IsSteady) (hsize : 0 < blockSize)
    (htolerant : settings.tolerant = true) (hanswers : decrypt.Answers) :
    let fresh : Reader Buffer := .new (.atOffset source offset blockSize) settings decrypt quiet
    (∀ (scope : Scope) (steps : List (Operation × Nat)),
      let r := readerAfter (run scope steps fresh) fresh
      (∀ bound, 2 * r.weight + 2 ≤ bound → Reader.objectWithin bound r = Reader.object r) ∧
      ∀ s, Reader.object r ≠ .error .exhausted s) ∧
    (∀ n e, (objectCall fresh n).outcome = .error e → e.kind = .input) ∧
    ∃ calls ≤ source.data.length, ∀ n, (objectCall fresh n).isEnd = true ↔ calls ≤ n := by
  intro fresh
  have supplies := Buffer.supplies (.ofSource source offset)
  have hover : Buffer.Over (.ofSource source offset) fresh.cursor :=
    (Buffer.shows_atOffset hsteady offset hsize).toOver
  refine ⟨fun scope steps => ?_, ?_⟩
  · intro r
    have hr : r.Over (Buffer.StemsFrom fresh.cursor) decrypt quiet :=
      readerAfter_over (Buffer.stemsFrom_invariant _) scope steps
        (Reader.over_new (Buffer.stemsFrom_self _) settings decrypt quiet)
    have hfront := (over_after offset settings decrypt quiet scope steps hsteady hsize).inFront
    have hanswers' : r.decrypt.Answers := by
      rw [hr.decrypt_eq]
      exact hanswers
    exact ⟨fun bound hbound => Reader.objectWithin_eq_object supplies hfront hbound,
      Reader.object_ne_exhausted supplies hfront hanswers'⟩
  · have hready : Ready (Buffer.InFront (.ofSource source offset)) fresh :=
      ⟨⟨_, hover.inFront⟩, hanswers, ⟨htolerant, Ref.isSmall_null, .nil, by
        rintro ⟨token, hmem, -⟩
        cases hmem⟩⟩
    refine ⟨fun n => (step_object supplies (ready_afterObjects supplies hready n)).2.1, ?_⟩
    obtain ⟨calls, hcalls, hends⟩ := exists_calls supplies hready
    refine ⟨calls, ?_, hends⟩
    have hrest : source.rest.length ≤ source.data.length := by
      simp only [Source.rest, List.length_drop]
      omega
    have hunread : fresh.unread = source.rest.length := by
      change [].length + source.rest.length + 0 = source.rest.length
      simp
    omega

/-- Mistakes, an end that is cut short, and the decipherment of the file format. -/
theorem objects_end_of_mistakes :
    let source : Source := ⟨Latin1.ascii ") 1 0 obj [ (ab) ] >> <4", 0, true, 0,
      fun read _ => read % 2 + 1, fun _ _ => none⟩
    let settings : Settings := ⟨true, true, true, some [1, 2, 3, 4, 5], .rc4⟩
    let fresh : Reader Buffer := .new (.atOffset source 4 3) settings Request.decrypt false
    source.IsSteady ∧ 0 < 3 ∧ settings.tolerant = true ∧ Decipherment.Answers Request.decrypt ∧
    ∃ calls ≤ source.data.length, ∀ n, (objectCall fresh n).isEnd = true ↔ calls ≤ n := by
  intro source settings fresh
  have hsteady : source.IsSteady := ⟨fun read _ _ => Nat.succ_pos (read % 2), fun _ _ => rfl⟩
  exact ⟨hsteady, by omega, rfl, Request.decrypt_answers,
    (objects_end source 4 3 settings Request.decrypt false hsteady (by omega) rfl
      Request.decrypt_answers).2.2⟩

end Session
end PdfSyntax
