import PdfSyntax.Proofs.Activity
import PdfSyntax.Reader.Object

/-!
# Messages that can be made

A template shows its arguments if there is one for each of its fields, of a kind that its letter shows.
The templates of which reading makes messages by itself are such, so that no message stands in the way of
the failure or the record that it is for.
-/

set_option autoImplicit false

namespace PdfSyntax

namespace Template

/-- Whether a field takes no argument but its own, and asks for no more digits than there are. -/
def Field.isSimple (field : Field) : Bool :=
  match field.width, field.precision with
  | .none, .none => true
  | .given width, .none => width < widthLimit
  | _, _ => false

/-- Whether a letter shows an argument of this kind. -/
def isShown : Char → Obj → Bool
  | 's', _ | 'r', _ | 'd', .int _ | 'o', .int _ => true
  | _, _ => false

/-- Whether the arguments are just what the parts of a template show. -/
def fits : List Part → List Obj → Bool
  | [], [] => true
  | .char _ :: rest, arguments => fits rest arguments
  | .field field letter :: rest, argument :: arguments =>
    field.isSimple && isShown letter argument && fits rest arguments
  | _, _ => false

section Fields
variable {field : Field} {letter : Char} {argument : Obj} {arguments : List Obj}

theorem exists_layout_of_isSimple (h : field.isSimple = true) (arguments : List Obj) :
    ∃ layout, field.layout arguments = .ok (layout, arguments) ∧ layout.precision = none := by
  obtain ⟨flags, width, precision⟩ := field
  unfold Field.isSimple at h
  split at h
  · next hwidth hprecision =>
    cases hwidth
    cases hprecision
    exact ⟨_, rfl, rfl⟩
  · next n hwidth hprecision =>
    cases hwidth
    cases hprecision
    have hlimit : n < widthLimit := of_decide_eq_true h
    have hwidth : (Size.given n).take widthLimit arguments = .ok (some (n : Int), arguments) :=
      if_pos hlimit
    exact ⟨_, by rw [Field.layout, hwidth]; rfl, rfl⟩
  · cases h

theorem exists_whole {layout : Layout} (h : layout.precision = none) (base : Nat) (mark : List Char)
    (n : Int) : ∃ text, layout.whole base mark n = .ok text := by
  unfold Layout.whole
  rw [h]
  exact ⟨_, rfl⟩

theorem exists_convert_of_isShown {layout : Layout} (hlayout : layout.precision = none)
    (h : isShown letter argument = true) : ∃ text, convert layout letter argument = .ok text := by
  unfold isShown at h
  split at h
  · exact ⟨_, rfl⟩
  · exact ⟨_, rfl⟩
  · exact exists_whole hlayout 10 _ _
  · exact exists_whole hlayout 8 _ _
  · cases h

theorem fillParts_field {layout : Layout} {text : List Char} {rest : List Part}
    (hlayout : field.layout (argument :: arguments) = .ok (layout, argument :: arguments))
    (htext : convert layout letter argument = .ok text) :
    fillParts (.field field letter :: rest) (argument :: arguments) =
      (fillParts rest arguments).map (text ++ ·) := by
  rw [fillParts, hlayout]
  simp only [bind, Except.bind, htext]
  cases fillParts rest arguments <;> rfl

end Fields

theorem exists_fillParts_of_fits {parts : List Part} {arguments : List Obj}
    (h : fits parts arguments = true) : ∃ text, fillParts parts arguments = .ok text := by
  induction parts generalizing arguments with
  | nil =>
    cases arguments with
    | nil => exact ⟨[], rfl⟩
    | cons _ _ => cases h
  | cons part rest ih =>
    cases part with
    | char c =>
      obtain ⟨text, htext⟩ := ih h
      exact ⟨c :: text, by rw [fillParts, htext]; rfl⟩
    | field field letter =>
      cases arguments with
      | nil => cases h
      | cons argument arguments =>
        simp only [fits, Bool.and_eq_true] at h
        obtain ⟨⟨hsimple, hshown⟩, hrest⟩ := h
        obtain ⟨layout, hlayout, hprecision⟩ := exists_layout_of_isSimple hsimple (argument :: arguments)
        obtain ⟨shown, hconvert⟩ := exists_convert_of_isShown hprecision hshown
        obtain ⟨text, htext⟩ := ih hrest
        exact ⟨shown ++ text, by rw [fillParts_field hlayout hconvert, htext]; rfl⟩
    | named => cases h
    | cut field => cases h

theorem fillParts_chars (cs : List Char) (parts : List Part) (arguments : List Obj) :
    fillParts (cs.map .char ++ parts) arguments = (fillParts parts arguments).map (cs ++ ·) := by
  induction cs with
  | nil =>
    rw [List.map_nil, List.nil_append]
    cases fillParts parts arguments <;> rfl
  | cons c cs ih =>
    rw [List.map_cons, List.cons_append, fillParts, ih]
    cases fillParts parts arguments <;> rfl

end Template

/-- Every fault has a message. -/
theorem Fault.exists_message (fault : Fault) : ∃ text, fault.message = .ok text := by
  by_cases hempty : fault.arguments.isEmpty = true
  · exact ⟨_, if_pos hempty⟩
  · have hfits : Template.fits (Template.parts none fault.template.toList) fault.arguments = true := by
      cases fault <;> first | exact absurd rfl hempty | (simp only [template]; rfl)
    obtain ⟨text, htext⟩ := Template.exists_fillParts_of_fits hfits
    refine ⟨String.ofList text, ?_⟩
    rw [message, Template.render, if_neg hempty, htext]
    rfl

namespace Reader
variable {σ α : Type}

theorem render_valueless (name : String) : render valuelessMessage [.name name] =
    .ok ("dictionary key /" ++ name ++ " has no value") := by
  have hparts : Template.parts none valuelessMessage.toList =
      "dictionary key /".toList.map .char ++
        (.field {} 's' :: (" has no value".toList.map .char ++ [])) := rfl
  have hlayout : Template.Field.layout {} [Obj.name name] = .ok (⟨{}, 0, none⟩, [Obj.name name]) := rfl
  have hfield : Template.convert ⟨{}, 0, none⟩ 's' (.name name) = .ok name.toList := by
    simp [Template.convert, Template.Layout.text, Template.Layout.fill, Obj.plain]
  have htext : "dictionary key /" ++ name ++ " has no value" = String.ofList
      ("dictionary key /".toList ++ (name.toList ++ (" has no value".toList ++ []))) := by
    simp only [String.ofList_append, String.ofList_toList, String.append_assoc, List.append_nil]
  rw [render, Template.render, hparts, Template.fillParts_chars,
    Template.fillParts_field hlayout hfield, Template.fillParts_chars]
  rw [htext]
  rfl

variable [Cursor σ]

/-- To fail is to tell the place, as the message can always be made. -/
theorem fail_eq (fault : Fault) :
    fail (σ := σ) (α := α) fault = (do throw (.malformed fault (← place))) := by
  obtain ⟨text, htext⟩ := fault.exists_message
  rw [fail, htext]
  rfl

theorem fail_apply (fault : Fault) (r : Reader σ) : fail (α := α) fault r =
    .error (.malformed fault (Cursor.offset r.cursor)) r := by
  rw [fail_eq]
  rfl

section Ensured
variable {P : Reader σ → Prop} {Q : α → Reader σ → Prop} {E : Failure → Reader σ → Prop}

theorem fail_ensures {fault : Fault}
    (h : ∀ r, P r → E (.malformed fault (Cursor.offset r.cursor)) r) : Ensures P (fail fault) Q E := by
  intro r hr
  rw [fail_apply]
  exact h r hr

/-- A caller's own mistake is told, unless its message cannot be made. -/
theorem failWith_ensures (template : String) (arguments : List Obj)
    (htemplate : ∀ fault r, P r → E (.template fault) r)
    (hcustom : ∀ text r, P r → E (.custom text (Cursor.offset r.cursor)) r) :
    Ensures P (failWith template arguments) Q E := by
  intro r hr
  simp only [failWith, render]
  cases Template.render template arguments with
  | ok text => exact hcustom text r hr
  | error fault => exact htemplate fault r hr

end Ensured

end Reader
end PdfSyntax
