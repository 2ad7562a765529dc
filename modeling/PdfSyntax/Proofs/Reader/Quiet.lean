import PdfSyntax.Proofs.Reader.Likeness
import PdfSyntax.Proofs.Reader.Token

/-!
# Quiet readers

A quiet reader does what another one does, and leaves out of its records those whose message it has told
before. The message is what a text was made of: it does not hold the arguments, nor the place, nor the
level. Of the texts that reading makes by itself the message can be told by how they start.
-/

set_option autoImplicit false

namespace PdfSyntax

open Reader (cutShortMessage valuelessMessage loneReturnMessage)

/-- Of records with their messages those whose message is neither known nor that of an earlier one. -/
def untold (known : List String) : List (String × Record) → List Record
  | [] => []
  | (message, record) :: rest =>
    if message ∈ known then untold known rest else record :: untold (message :: known) rest

section Untold
variable {known known' : List String} {xs ys : List (String × Record)}

theorem untold_congr (h : ∀ message, message ∈ known ↔ message ∈ known') :
    untold known xs = untold known' xs := by
  induction xs generalizing known known' with
  | nil => rfl
  | cons x xs ih =>
    have hcons : ∀ message, message ∈ x.1 :: known ↔ message ∈ x.1 :: known' := by
      intro message
      rw [List.mem_cons, List.mem_cons, h message]
    by_cases hx : x.1 ∈ known
    · rw [untold, untold, if_pos hx, if_pos ((h x.1).mp hx), ih h]
    · rw [untold, untold, if_neg hx, if_neg fun hx' => hx ((h x.1).mpr hx'), ih hcons]

/-- What comes later is told with what was told before in mind. -/
theorem untold_append
    (h : ∀ message, message ∈ known' ↔ message ∈ xs.map Prod.fst ∨ message ∈ known) :
    untold known (xs ++ ys) = untold known xs ++ untold known' ys := by
  induction xs generalizing known with
  | nil =>
    refine untold_congr fun message => ?_
    rw [h message]
    simp
  | cons x xs ih =>
    rw [List.cons_append]
    by_cases hx : x.1 ∈ known
    · rw [untold, untold, if_pos hx, if_pos hx]
      refine ih fun message => ?_
      rw [h message, List.map_cons, List.mem_cons, or_assoc]
      refine ⟨?_, .inr⟩
      rintro (rfl | hmem)
      · exact .inr hx
      · exact hmem
    · rw [untold, untold, if_neg hx, if_neg hx, List.cons_append]
      congr 1
      refine ih fun message => ?_
      rw [h message, List.map_cons, List.mem_cons, List.mem_cons]
      exact or_assoc.trans or_left_comm

/-- One more record is left out if its message is known or that of an earlier one. -/
theorem untold_records_snoc (message : Record → String) (records : List Record) (made : Record) :
    untold known ((records ++ [made]).map fun record => (message record, record)) =
      if message made ∈ records.map message ∨ message made ∈ known then
        untold known (records.map fun record => (message record, record))
      else untold known (records.map fun record => (message record, record)) ++ [made] := by
  have hmessages : (records.map fun record => (message record, record)).map Prod.fst =
      records.map message := List.map_map ..
  rw [List.map_append, List.map_singleton, untold_append fun _ => List.mem_append, untold, hmessages]
  by_cases h : message made ∈ records.map message ∨ message made ∈ known
  · rw [if_pos (List.mem_append.mpr h), if_pos h, untold, List.append_nil]
  · rw [if_neg fun hmem => h (List.mem_append.mp hmem), if_neg h, untold]

theorem mem_messages_snoc (message : Record → String) (records : List Record) (made : Record) (m : String) :
    m ∈ (records ++ [made]).map message ∨ m ∈ known ↔
      m = message made ∨ m ∈ records.map message ∨ m ∈ known := by
  rw [List.map_append, List.mem_append, List.map_singleton, List.mem_singleton, or_right_comm]
  exact or_comm

end Untold

/-- The messages of which reading makes records by itself. -/
def ownMessages : List String :=
  [cutShortMessage, valuelessMessage, loneReturnMessage]

/-- What a template starts with, up to its first field. -/
def stem (template : String) : List Char :=
  template.toList.takeWhile (· != '%')

/-- The message of which reading has made a record: the one with whose stem the text starts. -/
def Record.message (record : Record) : String :=
  (ownMessages.find? fun message => (stem message).isPrefixOf record.text.toList).getD ""

/-- Whether the text of a record is what a template makes of some arguments, at some place. -/
def Record.IsMadeOf (record : Record) (template : String) : Prop :=
  ∃ arguments text offset, Reader.render template arguments = .ok text ∧
    record.text = located text offset

namespace Reader

theorem message_of_start {record : Record} {message : String} (start rest : List Char)
    (htext : record.text.toList = start ++ rest)
    (h : ownMessages.find? (fun message => (stem message).isPrefixOf (start ++ rest)) = some message) :
    record.message = message := by
  rw [Record.message, htext, h, Option.getD_some]

/-- The texts that reading makes start differently. -/
theorem message_of_isSaid {level : Level} {message text : String} (h : IsSaid level message text)
    (offset : Int) : (Record.mk level (located text offset)).message = message := by
  have htext : (Record.mk level (located text offset)).text.toList =
      text.toList ++ (" (offset=" ++ decimal offset ++ ")").toList := by
    simp only [located, String.toList_append, List.append_assoc]
  cases h with
  | cutShort => exact message_of_start _ _ htext rfl
  | valueless name =>
    rw [String.toList_append, String.toList_append, List.append_assoc, List.append_assoc] at htext
    exact message_of_start _ _ htext rfl
  | loneReturn => exact message_of_start _ _ htext rfl

theorem exists_render_of_isSaid {level : Level} {message text : String}
    (h : IsSaid level message text) : ∃ arguments, render message arguments = .ok text := by
  cases h with
  | cutShort => exact ⟨[], rfl⟩
  | valueless name => exact ⟨[.name name], render_valueless name⟩
  | loneReturn => exact ⟨[], rfl⟩

variable {σ : Type}

/-- The second reader is quiet and has told all known messages and all of which the first one, which is
not quiet, has made its records. It is as the first one, but for the records that it has left out. -/
def Quieter (message : Record → String) (known : List String) (r s : Reader σ) : Prop :=
  r.told = none ∧ (∀ record ∈ r.records, record.IsMadeOf (message record)) ∧
    ∃ told, (∀ m, m ∈ told ↔ m ∈ r.records.map message ∨ m ∈ known) ∧
      s = { r with
        told := some told
        records := untold known (r.records.map fun record => (message record, record)) }

section Quieter
variable [Cursor σ] {message : Record → String} {known : List String}

theorem record_quieter {level : Level} {template text : String} {arguments : List Obj}
    (h : ∀ offset, message ⟨level, located text offset⟩ = template)
    (hrender : render template arguments = .ok text) :
    Keep Failure (Quieter (σ := σ) message known) (record level template (.ok text))
      (record level template (.ok text)) := by
  rintro r s ⟨hloud, hmade, told, hmem, hs⟩
  have hlabel : message ⟨level, located text (Cursor.offset r.cursor)⟩ = template := h _
  have hmade' : ∀ made ∈ r.records ++ [⟨level, located text (Cursor.offset r.cursor)⟩],
      made.IsMadeOf (message made) := by
    intro made hmem
    rcases List.mem_append.mp hmem with hmem | hmem
    · exact hmade made hmem
    · obtain rfl := List.mem_singleton.mp hmem
      exact ⟨arguments, text, _, hlabel.symm ▸ hrender, rfl⟩
  have hnews : ¬ r.knows template = true := by
    rw [knows, hloud]
    exact Bool.false_ne_true
  have hknows : s.knows template = true ↔ template ∈ told := by
    rw [hs]
    exact List.contains_iff_mem
  rw [record_eq, record_eq]
  apply SameEnd.ok
  rw [recorded, if_neg hnews, hloud]
  by_cases hknown : template ∈ told
  · rw [recorded_of_knows (hknows.mpr hknown)]
    refine ⟨rfl, hmade', told, fun m => ?_, ?_⟩
    · rw [mem_messages_snoc, hlabel, ← hmem m]
      exact ⟨.inr, fun hcases => hcases.elim (fun hm => hm ▸ hknown) id⟩
    · rw [untold_records_snoc, hlabel, if_pos ((hmem template).mp hknown)]
      exact hs
  · rw [recorded, if_neg fun hcontains => hknown (hknows.mp hcontains)]
    refine ⟨rfl, hmade', template :: told, fun m => ?_, ?_⟩
    · rw [mem_messages_snoc, hlabel, ← hmem m, List.mem_cons]
    · rw [untold_records_snoc, hlabel, if_neg fun hcases => hknown ((hmem template).mpr hcases), hs]
      rfl

theorem quieter_likeness (known : List String) :
    Likeness (σ := σ) Eq (Quieter Record.message known) where
  cursor := by
    rintro r s ⟨-, -, told, -, rfl⟩
    rfl
  withCursor := by
    rintro r s c d ⟨hloud, hmade, told, hmem, rfl⟩ rfl
    exact ⟨hloud, hmade, told, hmem, rfl⟩
  pending := by
    rintro r s ⟨-, -, told, -, rfl⟩
    rfl
  withPending := by
    rintro r s pending ⟨hloud, hmade, told, hmem, rfl⟩
    exact ⟨hloud, hmade, told, hmem, rfl⟩
  switches := by
    rintro r s ⟨-, -, told, -, rfl⟩
    exact r.settings.sameSwitches_self
  context := by
    rintro r s ⟨-, -, told, -, rfl⟩
    rfl
  record h := by
    obtain ⟨arguments, hrender⟩ := exists_render_of_isSaid h
    exact record_quieter (message_of_isSaid h) hrender
  withContext := by
    rintro r s context ⟨hloud, hmade, told, hmem, rfl⟩
    exact ⟨hloud, hmade, told, hmem, rfl⟩
  decipher := by
    apply decipher_keep_of_same
    · rintro r s ⟨-, -, told, -, rfl⟩
      rfl
    · rintro r s ⟨-, -, told, -, rfl⟩
      rfl
    · rintro r s ⟨-, -, told, -, rfl⟩
      rfl
    · rintro r s request ⟨hloud, hmade, told, hmem, rfl⟩
      exact ⟨hloud, hmade, told, hmem, rfl⟩

end Quieter
end Reader
end PdfSyntax
