import PdfSyntax.Proofs.Reader.Account
import PdfSyntax.Proofs.Reader.Termination
import PdfSyntax.Proofs.Session.Context

/-!
# What reading leaves as it was

However deep inside definitions, arrays and dictionaries a reading fails, and whatever for, afterwards the
same object is at hand as before, and the reader is set up as before. If it fails because a definition is
not ended where its body is, then the token that stands there is the next one.
-/

set_option autoImplicit false

namespace PdfSyntax

theorem Keep.ensures {ε σ α : Type} {P : σ → Prop} {m : EStateM ε σ α} (h : Keep ε (Fixed P) m m) :
    Ensures P m (fun _ => P) (fun _ => P) := by
  intro s hs
  have hend := h s s ⟨rfl, hs⟩
  generalize m s = result at hend ⊢
  cases hend with
  | ok hq => exact hq.2
  | error he => exact he.2

namespace Reader

section Settings
variable {σ : Type} [Cursor σ] {I : σ → Prop} {settings : Settings}

/-- A reader with its cursor as it should be, and with these settings. -/
structure IsSet (I : σ → Prop) (settings : Settings) (r : Reader σ) : Prop where
  cursor : I r.cursor
  settings_eq : r.settings = settings

theorem isSet_likeness : Likeness (Fixed I) (Fixed (IsSet I settings)) where
  cursor h := ⟨by rw [h.1], h.2.cursor⟩
  withCursor := by
    rintro r s c d ⟨rfl, hr⟩ ⟨rfl, hc⟩
    exact ⟨rfl, hc, hr.settings_eq⟩
  pending h := by rw [h.1]
  withPending := by
    rintro r s pending ⟨rfl, hr⟩
    exact ⟨rfl, hr.cursor, hr.settings_eq⟩
  switches h := by rw [h.1]; exact Settings.sameSwitches_self _
  context h := by rw [h.1]
  record _ :=
    (record_ensures (fun _ _ h => ⟨h.cursor, h.settings_eq⟩) (fun _ h => ⟨h.cursor, h.settings_eq⟩)
      _ _ _).keep
  withContext := by
    rintro r s context ⟨rfl, hr⟩
    exact ⟨rfl, hr.cursor, hr.settings_eq⟩
  decipher data := (decipher_ensures (fun _ h => ⟨h.cursor, h.settings_eq⟩) data).keep

end Settings

/-- What reading leaves as it was. -/
structure Restored (r s : Reader Buffer) : Prop where
  context_eq : s.context = r.context
  settings_eq : s.settings = r.settings
  blockSize_eq : s.cursor.blockSize = r.cursor.blockSize
  origin_eq : s.cursor.origin = r.cursor.origin

theorem restored_of_keeps {r : Reader Buffer} {m : Reading Buffer Obj} (hcontext : KeepsContext m)
    (hset : ∀ settings, Keep Failure (Fixed (IsSet (Buffer.StemsFrom r.cursor) settings)) m m) :
    Leaves (Restored r) (m r) := by
  have hboth := (hcontext r.context).and (hset r.settings).ensures r ⟨rfl, Buffer.stemsFrom_self _, rfl⟩
  have hrestored : ∀ s : Reader Buffer, s.context = r.context ∧
      IsSet (Buffer.StemsFrom r.cursor) r.settings s → Restored r s := by
    rintro s ⟨hcontext, hstems, hsettings⟩
    have hframe : s.cursor.frame = r.cursor.frame := hstems
    have horigin := congrArg Buffer.origin hframe
    exact ⟨hcontext, hsettings, hstems.blockSize_eq, horigin⟩
  generalize m r = result at hboth ⊢
  cases result with
  | ok a s => exact hrestored s hboth
  | error e s => exact hrestored s hboth

/-- How a reader has come to a token that does not end a definition where its body is: by tokens before
the definition, by those that begin it, and by those of its body. It is left with this token as the next
one, and behind it is what was behind it. The bound for the body does not matter if there are blocks to
be read at all. -/
def LeavesUnended (r : Reader Buffer) (ref : Ref) (left : Reader Buffer) : Prop :=
  ∃ before inner spent body after next rest,
    Uses r (before ++ ref.heading) inner ∧ inner.context = ref ∧
    (∃ bound, objectWithin bound inner = .ok body after) ∧
    (0 < r.cursor.blockSize → object inner = .ok body after) ∧
    Uses inner spent after ∧ body.isStream = false ∧
    token after = .ok next rest ∧ next.isKeyword "endobj" = false ∧
    token left = .ok next { rest with context := r.context } ∧
    Uses r (before ++ ref.heading ++ spent ++ [next]) rest

theorem Unended.leavesUnended {r left : Reader Buffer} {ref : Ref} (h : Unended r ref left)
    (hcontext : left.context = r.context) : LeavesUnended r ref left := by
  obtain ⟨before, inner, spent, body, after, next, rest, huses, hinner, ⟨bound, hbody⟩, hspent, hstream,
    hnext, hend, hleft⟩ := h
  refine ⟨before, inner, spent, body, after, next, rest, huses, hinner, ⟨bound, hbody⟩, fun hsize => ?_,
    hspent, hstream, hnext, hend, ?_, (huses.trans hspent).taken hnext⟩
  · obtain ⟨_, hfeeds, -⟩ := huses.balance
    have hstems := hfeeds.keeps (Buffer.stemsFrom_invariant r.cursor) (Buffer.stemsFrom_self _)
    have hsize' : 0 < inner.cursor.blockSize := hstems.blockSize_eq ▸ hsize
    have hobject := objectWithin_eq_of_wanes Buffer.wanes (r := inner) hsize'
      (Nat.le_max_right bound (2 * inner.weight + 2))
    rw [← hobject]
    exact (extends_of_le (Nat.le_max_left bound _)).1 hbody
  · have hpending : left.pending = next :: rest.pending := by rw [hleft]
    rw [token_of_pending hpending, ← hcontext]
    conv_lhs => rw [hleft]

/-- Going to an offset is refused for other reasons. -/
theorem seek_apart (target : Int) (r : Reader Buffer) : Ensures (· = r) (seek target)
    (fun _ start => start.context = r.context ∧ start.decrypt = r.decrypt)
    (fun e _ => e.unended? = none) := by
  rintro s rfl
  have hread : seek target s = onCursor (Buffer.seek target) { s with pending := [] } := rfl
  rw [hread]
  simp only [onCursor]
  cases horigin : s.cursor.origin with
  | none =>
    rw [Buffer.seek_of_none horigin]
    exact ⟨rfl, rfl⟩
  | some origin =>
    by_cases hlt : target < origin
    · rw [Buffer.seek_of_lt horigin hlt]
      rfl
    · rw [Buffer.seek_of_le horigin (Int.not_lt.mp hlt)]
      exact ⟨rfl, rfl⟩

/-- Taking a token and reading an object, also at an offset, leave the same object at hand and the reader
set up as before, whether they come to a value or fail, whatever for. A failure for a definition that is
not ended is that of a decipherment, or there is such a definition: the token after its body is the next
one then, and so on. -/
theorem reading_restores (r : Reader Buffer) (target : Int) :
    (∀ reading ∈ [token, object, objectAt target], Leaves (Restored r) (reading r)) ∧
    (∀ ref place left, object r = .error (.malformed (.missingEnd ref) place) left →
      (∃ request, r.decrypt request = .error (.malformed (.missingEnd ref) place)) ∨
        LeavesUnended r ref left) ∧
    (∀ ref place left, objectAt target r = .error (.malformed (.missingEnd ref) place) left →
      (∃ request, r.decrypt request = .error (.malformed (.missingEnd ref) place)) ∨
        ∃ start, seek target r = .ok () start ∧ start.context = r.context ∧
          LeavesUnended start ref left) := by
  have hcontext : ∀ {start left : Reader Buffer} {ref place},
      object start = .error (.malformed (.missingEnd ref) place) left → left.context = start.context := by
    intro start left ref place h
    have hkeeps := KeepsContext.object start.context start rfl
    rw [h] at hkeeps
    exact hkeeps
  have hobject : ∀ {start left : Reader Buffer} {ref place},
      object start = .error (.malformed (.missingEnd ref) place) left →
      (∃ request, start.decrypt request = .error (.malformed (.missingEnd ref) place)) ∨
        LeavesUnended start ref left := by
    intro start left ref place h
    have haccounts := object_accounts Buffer.indifferent start start rfl
    rw [h] at haccounts
    exact (haccounts ref rfl).imp_right fun hunended => hunended.leavesUnended (hcontext h)
  have hsim : Simulation (Fixed (Buffer.StemsFrom r.cursor)) fun _ => True :=
    (Buffer.stemsFrom_invariant r.cursor).law.simulation
  refine ⟨?_, fun ref place left h => hobject h, fun ref place left h => ?_⟩
  · intro reading hreading
    simp only [List.mem_cons, List.not_mem_nil, or_false] at hreading
    rcases hreading with rfl | rfl | rfl
    · exact restored_of_keeps .token fun _ => isSet_likeness.token_keep hsim
    · exact restored_of_keeps .object fun _ => isSet_likeness.object_keep hsim
    · exact restored_of_keeps ((KeepsContext.seek target).bind fun _ => .object) fun _ =>
        (isSet_likeness.seek_keep hsim trivial).bind fun _ => isSet_likeness.object_keep hsim
  · simp only [objectAt, Bind.bind, EStateM.bind] at h
    have hapart := seek_apart target r r rfl
    cases hseek : seek target r with
    | error e s =>
      rw [hseek] at h hapart
      cases h
      cases hapart
    | ok _ start =>
      rw [hseek] at h hapart
      obtain ⟨hstart, hdecrypt⟩ := hapart
      rw [← hdecrypt]
      exact (hobject h).imp_right fun hleaves => ⟨start, rfl, hstart, hleaves⟩

/-- In an array a definition that is not ended, since two integers stand behind its body. They were taken
and pushed back for the integer that is the body. -/
theorem reading_restores_of_integers :
    let r := File.reader (Latin1.ascii "[1 5 0 obj 42 6 7]") 3 .lenient
    0 < r.cursor.blockSize ∧ ∃ place left,
      object r = .error (.malformed (.missingEnd ⟨5, 0⟩) place) left ∧ left.context = r.context ∧
      LeavesUnended r ⟨5, 0⟩ left ∧ ∃ tokens, (take 2).run' left = some tokens ∧
        tokens.map (Obj.natural? 10) = [some 6, some 7] := by
  intro r
  obtain ⟨hrestores, hunended, -⟩ := reading_restores r 0
  have hobject := hrestores object (by simp)
  have hcause : (match object r with | .error e _ => e.unended? | .ok _ _ => none) = some ⟨5, 0⟩ := by
    decide +kernel
  have htokens : (match object r with
      | .error _ left => ((take 2).run' left).map fun tokens => tokens.map (Obj.natural? 10)
      | .ok _ _ => none) = some [some 6, some 7] := by
    decide +kernel
  cases hresult : object r with
  | ok _ _ =>
    rw [hresult] at hcause
    cases hcause
  | error e left =>
    rw [hresult] at hcause htokens hobject
    obtain ⟨place, rfl⟩ := Failure.eq_of_unended? hcause
    obtain ⟨tokens, htake, htexts⟩ := Option.map_eq_some_iff.mp htokens
    refine ⟨by decide, place, left, rfl, hobject.context_eq, ?_, tokens, htake, htexts⟩
    refine (hunended _ _ _ hresult).resolve_left ?_
    rintro ⟨request, hforged⟩
    have hforged : request.decrypt = .error (.malformed (.missingEnd ⟨5, 0⟩) place) := hforged
    unfold Request.decrypt at hforged
    generalize StringCipher.decrypt request.algorithm request.key request.ref request.data = x at hforged
    cases x <;> cases hforged

end Reader
end PdfSyntax
