import PdfSyntax.Proofs.Lexer.Spacing
import PdfSyntax.Proofs.Reader.Termination
import PdfSyntax.Proofs.Session.Ahead

/-!
# Readers in front of the same words

Two readers that are in front of the same words take the same tokens, whatever gaps are between the words
here and there. They are at different places meanwhile, so messages and failures may tell different
places; and they go on to the payload of a stream differently, so neither looks for streams. All that
reads objects then comes to the same, but for places.
-/

set_option autoImplicit false

namespace PdfSyntax

/-- A failure without the place it tells. -/
def Failure.unplaced : Failure → Failure
  | .malformed fault _ => .malformed fault 0
  | .unexpectedEnd _ => .unexpectedEnd 0
  | .unreadable _ reason => .unreadable 0 reason
  | .backward _ _ => .backward 0 0
  | e => e

/-- Messages that differ in the places they tell, if at all. -/
structure Record.Similar (a b : Record) : Prop where
  level_eq : a.level = b.level
  located : ∃ text here there, a.text = PdfSyntax.located text here ∧ b.text = PdfSyntax.located text there

namespace Reader
open Lexer (Approaches IsWord RunsOut)

section Unplaced
variable {σ τ α β : Type}

/-- An activity that keeps to itself where it fails. -/
def unplaced (m : Reading σ α) : Reading σ α := fun r =>
  match m r with
  | .ok a r' => .ok a r'
  | .error e r' => .error e.unplaced r'

theorem unplaced_of_ok {m : Reading σ α} {r r' : Reader σ} {a : α} (h : m r = .ok a r') :
    unplaced m r = .ok a r' := by
  simp only [unplaced, h]

theorem unplaced_of_error {m : Reading σ α} {r r' : Reader σ} {e : Failure} (h : m r = .error e r') :
    unplaced m r = .error e.unplaced r' := by
  simp only [unplaced, h]

theorem unplaced_congr {m n : Reading σ α} {r : Reader σ} (h : m r = n r) :
    unplaced m r = unplaced n r := by
  simp only [unplaced, h]

theorem unplaced_bind (m : Reading σ α) (f : α → Reading σ β) :
    unplaced (m >>= f) = unplaced m >>= fun a => unplaced (f a) := by
  funext r
  simp only [unplaced, Bind.bind, EStateM.bind]
  cases m r <;> rfl

theorem unplaced_within (ref : Ref) (m : Reading σ α) :
    unplaced (within ref m) = within ref (unplaced m) := by
  funext r
  simp only [unplaced, within]
  cases m { r with context := ref } <;> rfl

theorem unplaced_keep {L : Reader σ → Reader τ → Prop} {m : Reading σ α} {n : Reading τ α}
    (h : Keep Failure L m n) : Keep Failure L (unplaced m) (unplaced n) := by
  intro r s hrs
  have hend := h r s hrs
  simp only [unplaced]
  generalize m r = x at hend ⊢
  generalize n s = y at hend ⊢
  cases hend with
  | ok hL => exact .ok hL
  | error hL => exact .error hL

end Unplaced

section Words
variable {medium : Medium} {r : Reader Buffer} {words : List Bytes} {tokens : List Obj}
variable (hp : r.pending = []) (hover : Buffer.Over medium r.cursor)
variable (hahead : Approaches words r.cursor.ahead)
include hp hover hahead

theorem token_of_words (hwords : List.Forall₂ IsWord words tokens)
    (h : ¬ RunsOut r.settings.tolerant words) : ∃ b,
    token r = .ok (tokens.headD .endOfInput) { r with cursor := b } ∧ Buffer.Over medium b ∧
      Approaches words.tail b.ahead := by
  obtain ⟨rest, hrest, hscan⟩ := hahead.scan_eq hwords h
  obtain ⟨_, b, hadvances, hread⟩ := token_advances hp hover
  rw [hscan] at hread
  obtain ⟨hb, htoken, -⟩ := hread
  exact ⟨b, htoken, hadvances.toOver, by rwa [hb]⟩

theorem token_of_no_words (h : RunsOut r.settings.tolerant words) : ∃ b,
    token r = .error (.unexpectedEnd b.offset) { r with cursor := b } ∧ Buffer.Over medium b ∧
      Approaches [] b.ahead := by
  obtain ⟨b, htoken, hover', hb⟩ := token_runs_out hp hover (hahead.scan_eq_none h)
  refine ⟨b, htoken, hover', ?_⟩
  rw [hb]
  exact Lexer.Spaced.nil.approaches

end Words

/-- Readers over buffers that are in front of the same words and do not look for streams. -/
structure Respaced (medium medium' : Medium) (r s : Reader Buffer) : Prop where
  isOver : Buffer.Over medium r.cursor
  isOver' : Buffer.Over medium' s.cursor
  words : ∃ words tokens, List.Forall₂ IsWord words tokens ∧ Approaches words r.cursor.ahead ∧
    Approaches words s.cursor.ahead
  streams : r.settings.streams = false
  same : ∃ cursor records, s = { r with cursor, records }
  records : List.Forall₂ Record.Similar r.records s.records

namespace Respaced
variable {medium medium' : Medium} {r s : Reader Buffer}

theorem settings_eq (h : Respaced medium medium' r s) : r.settings = s.settings := by
  obtain ⟨_, _, rfl⟩ := h.same
  rfl

theorem context_eq (h : Respaced medium medium' r s) : r.context = s.context := by
  obtain ⟨_, _, rfl⟩ := h.same
  rfl

theorem decrypt_eq (h : Respaced medium medium' r s) : r.decrypt = s.decrypt := by
  obtain ⟨_, _, rfl⟩ := h.same
  rfl

theorem requests_eq (h : Respaced medium medium' r s) : r.requests = s.requests := by
  obtain ⟨_, _, rfl⟩ := h.same
  rfl

theorem withContext (context : Ref) (h : Respaced medium medium' r s) :
    Respaced medium medium' { r with context } { s with context } := by
  obtain ⟨_, _, rfl⟩ := h.same
  exact { h with same := ⟨_, _, rfl⟩ }

theorem asking (request : Request) (h : Respaced medium medium' r s) :
    Respaced medium medium' (r.asking request) (s.asking request) := by
  obtain ⟨_, _, rfl⟩ := h.same
  exact { h with same := ⟨_, _, rfl⟩ }

theorem withCursors {b b' : Buffer} (h : Respaced medium medium' r s) (isOver : Buffer.Over medium b)
    (isOver' : Buffer.Over medium' b') (words : ∃ words tokens, List.Forall₂ IsWord words tokens ∧
      Approaches words b.ahead ∧ Approaches words b'.ahead) :
    Respaced medium medium' { r with cursor := b } { s with cursor := b' } := by
  obtain ⟨_, _, rfl⟩ := h.same
  exact { h with isOver, isOver', words, same := ⟨_, _, rfl⟩ }

theorem cleared (h : Respaced medium medium' r s) : Respaced medium medium' r.cleared s.cleared := by
  obtain ⟨_, _, rfl⟩ := h.same
  exact { h with same := ⟨_, _, rfl⟩, records := .nil }

end Respaced

section Moves
variable (medium medium' : Medium)

theorem push_respaced (token : Obj) :
    Keep Failure (Respaced medium medium') (push token) (push token) := by
  intro r s h
  obtain ⟨_, _, rfl⟩ := h.same
  exact .ok { h with same := ⟨_, _, rfl⟩ }

/-- What is pushed back is the same, and so is the next word. Where the words run out, both fail. -/
theorem token_respaced :
    Keep Failure (Respaced medium medium') (unplaced token) (unplaced token) := by
  intro r s h
  obtain ⟨cursor, records, rfl⟩ := h.same
  by_cases hp : r.pending = []
  · obtain ⟨words, tokens, hwords, hahead, hahead'⟩ := h.words
    by_cases hrunsOut : RunsOut r.settings.tolerant words
    · obtain ⟨b, hr, hover, hb⟩ := token_of_no_words hp h.isOver hahead hrunsOut
      obtain ⟨b', hs, hover', hb'⟩ := token_of_no_words (r := { r with cursor, records }) hp h.isOver'
        hahead' hrunsOut
      rw [unplaced_of_error hr, unplaced_of_error hs]
      exact .error (h.withCursors hover hover' ⟨[], [], .nil, hb, hb'⟩)
    · obtain ⟨b, hr, hover, hb⟩ := token_of_words hp h.isOver hahead hwords hrunsOut
      obtain ⟨b', hs, hover', hb'⟩ := token_of_words (r := { r with cursor, records }) hp h.isOver'
        hahead' hwords hrunsOut
      have htail := List.forall₂_drop 1 hwords
      rw [List.drop_one, List.drop_one] at htail
      rw [unplaced_of_ok hr, unplaced_of_ok hs]
      exact .ok (h.withCursors hover hover' ⟨words.tail, tokens.tail, htail, hb, hb'⟩)
  · obtain ⟨next, pending, hp⟩ := List.exists_cons_of_ne_nil hp
    have hr := token_of_pending hp
    have hs := token_of_pending (r := { r with cursor, records }) hp
    rw [unplaced_of_ok hr, unplaced_of_ok hs]
    exact .ok { h with same := ⟨_, _, rfl⟩ }

theorem record_respaced (level : Level) (message text : String) :
    Keep Failure (Respaced medium medium') (record level message (.ok text))
      (record level message (.ok text)) := by
  intro r s h
  obtain ⟨cursor, records, rfl⟩ := h.same
  rw [record_eq, record_eq]
  by_cases hknows : r.knows message = true
  · have hknows' : ({ r with cursor, records } : Reader Buffer).knows message = true := hknows
    rw [recorded_of_knows hknows, recorded_of_knows hknows']
    exact .ok h
  · have hknows' : ¬ ({ r with cursor, records } : Reader Buffer).knows message = true := hknows
    rw [recorded, if_neg hknows, recorded, if_neg hknows']
    exact .ok { h with
      same := ⟨_, _, rfl⟩
      records := List.rel_append h.records (.cons ⟨rfl, text, _, _, rfl, rfl⟩ .nil) }

/-- Reading comes to the same but for places. -/
theorem congruence_respaced : ObjectCongruence fun _ m n =>
    Keep Failure (Respaced medium medium') (unplaced m) (unplaced n) where
  pure _ := .pure fun _ _ h => h
  bind hm hf := by
    rw [unplaced_bind, unplaced_bind]
    exact hm.bind hf
  settings h r s hrs := by
    have hsettings := hrs.settings_eq
    exact h r.settings s.settings (by rw [hsettings]) (by rw [hsettings]) r s hrs
  push token := unplaced_keep (push_respaced medium medium' token)
  token := token_respaced medium medium'
  fail fault r s h := by
    rw [unplaced_of_error (fail_apply fault r), unplaced_of_error (fail_apply fault s)]
    exact .error h
  record _ := unplaced_keep (record_respaced medium medium' _ _ _)
  dictOrStream entries r s h := by
    have hstreams := h.streams
    have hstreams' : s.settings.streams = false := h.settings_eq ▸ hstreams
    have hplain : ∀ t : Reader Buffer, t.settings.streams = false →
        dictOrStream entries t = .ok (.dict entries) t := by
      intro t ht
      simp only [dictOrStream, getSettings, Bind.bind, EStateM.bind, ht, Bool.false_eq_true, if_false]
      rfl
    rw [unplaced_of_ok (hplain r hstreams), unplaced_of_ok (hplain s hstreams')]
    exact .ok h
  exhausted := unplaced_keep (.throw fun _ _ h => h)
  decipher data := unplaced_keep (decipher_keep_of_same Respaced.settings_eq Respaced.context_eq
    Respaced.decrypt_eq Respaced.asking data)
  within ref h := by
    rw [unplaced_within, unplaced_within]
    exact within_keep_of_same Respaced.context_eq Respaced.withContext ref h

/-- The readers weigh what is left differently, but a bound that covers both can stand for theirs. -/
theorem object_respaced :
    Keep Failure (Respaced medium medium') (unplaced object) (unplaced object) := by
  intro r s h
  have hr := objectWithin_eq_object (Buffer.supplies medium) h.isOver.inFront
    (Nat.le_max_left (2 * r.weight + 2) (2 * s.weight + 2))
  have hs := objectWithin_eq_object (Buffer.supplies medium') h.isOver'.inFront
    (Nat.le_max_right (2 * r.weight + 2) (2 * s.weight + 2))
  rw [← unplaced_congr hr, ← unplaced_congr hs]
  exact (congruence_respaced medium medium').objectWithin _ r s h

end Moves
end Reader
end PdfSyntax
