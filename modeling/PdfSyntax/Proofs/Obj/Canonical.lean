import Mathlib.Data.List.Nodup
import PdfSyntax.Proofs.Obj.Parts

/-!
# The order of insertion does not show

Entries with different names have just one sorted order, in which the names increase strictly. So objects
that differ only in the order in which entries were inserted, at any depth, are written alike, or fail
for the same reason. In what is written each dictionary shows its entries one by one in that order.
-/

set_option autoImplicit false

namespace PdfSyntax

open Latin1 (ascii)

def codePoints (text : String) : List Nat :=
  text.toList.map Char.toNat

theorem codePoints_lt {s t : String} (h : s < t) : codePoints s < codePoints t :=
  List.map_lt (fun _ _ hlt => hlt) (String.lt_iff.mp h)

section Sorting
variable {α : Type} {entries entries' : List (String × α)}

theorem sortEntries_sorted (entries : List (String × α)) :
    (sortEntries entries).Pairwise fun a b => a.1 ≤ b.1 := by
  have hsorted : (sortEntries entries).Pairwise fun a b => decide (a.1 ≤ b.1) = true := by
    refine List.pairwise_mergeSort (fun a b c hab hbc => ?_) (fun a b => ?_) entries
    · exact decide_eq_true (String.le_trans (of_decide_eq_true hab) (of_decide_eq_true hbc))
    · simpa using String.le_total a.1 b.1
  exact hsorted.imp of_decide_eq_true

/-- Different names increase strictly. -/
theorem sortEntries_increasing (h : (entries.map Prod.fst).Nodup) :
    (sortEntries entries).Pairwise fun a b => codePoints a.1 < codePoints b.1 := by
  have hdistinct : (sortEntries entries).Pairwise fun a b => a.1 ≠ b.1 :=
    List.pairwise_map.mp (((sortEntries_perm entries).map Prod.fst).nodup_iff.mpr h)
  apply ((sortEntries_sorted entries).and hdistinct).imp
  rintro a b ⟨hle, hne⟩
  exact codePoints_lt (Std.lt_of_le_of_ne hle hne)

/-- Entries with different names are sorted alike, in whatever order they come. -/
theorem sortEntries_congr (hperm : entries.Perm entries') (h : (entries.map Prod.fst).Nodup) :
    sortEntries entries = sortEntries entries' := by
  apply List.Perm.eq_of_pairwise _ (sortEntries_sorted entries) (sortEntries_sorted entries')
  · exact (sortEntries_perm entries).trans (hperm.trans (sortEntries_perm entries').symm)
  · intro a b ha hb hab hba
    have ha' := (sortEntries_perm entries).mem_iff.mp ha
    have hb' := hperm.mem_iff.mpr ((sortEntries_perm entries').mem_iff.mp hb)
    exact List.inj_on_of_nodup_map h ha' hb' (String.le_antisymm hab hba)

end Sorting

section Writing
variable {α β ε : Type} {f : α → Except ε β} {items : List α} {written : List β}

/-- If a whole list goes through, so does each element, and what it yields is among the rest. -/
theorem mem_of_mapM (h : items.mapM f = .ok written) {item : α} (hitem : item ∈ items) :
    ∃ part ∈ written, f item = .ok part := by
  induction items generalizing written with
  | nil => exact absurd hitem List.not_mem_nil
  | cons first rest ih =>
    rw [List.mapM_cons] at h
    cases hfirst : f first with
    | error e => rw [hfirst] at h; cases h
    | ok part =>
      cases hrest : rest.mapM f with
      | error e => rw [hfirst, hrest] at h; cases h
      | ok parts =>
        rw [hfirst, hrest] at h
        cases h
        rcases List.mem_cons.mp hitem with rfl | hitem
        · exact ⟨part, List.mem_cons_self, hfirst⟩
        · obtain ⟨other, hother, hwritten⟩ := ih hrest hitem
          exact ⟨other, List.mem_cons_of_mem part hother, hwritten⟩

theorem infix_intercalate {sep part : List α} {parts : List (List α)} (h : part ∈ parts) :
    part <:+: sep.intercalate parts := by
  induction parts with
  | nil => exact absurd h List.not_mem_nil
  | cons first rest ih =>
    cases rest with
    | nil =>
      obtain rfl := List.mem_singleton.mp h
      exact List.intercalate_singleton.symm ▸ List.infix_refl part
    | cons second rest =>
      rw [List.intercalate_cons_cons]
      rcases List.mem_cons.mp h with rfl | h
      · rw [List.append_assoc]
        exact (List.prefix_append _ _).isInfix
      · exact (ih h).trans (List.suffix_append _ _).isInfix

end Writing

namespace Obj

/-- Equality up to the order in which the entries of dictionaries were inserted, at any depth and in the
headers of streams as well. Two such dictionaries have the same names; a row is a name with its value in
the one and its value in the other. -/
inductive Reordered : Obj → Obj → Prop where
  | refl (obj : Obj) : Reordered obj obj
  | array {pairs : List (Obj × Obj)} : (∀ pair ∈ pairs, Reordered pair.1 pair.2) →
    Reordered (.array (pairs.map Prod.fst)) (.array (pairs.map Prod.snd))
  | dict {entries entries' : Dict} {rows : List (String × Obj × Obj)} :
    entries.Perm (rows.map fun row => (row.1, row.2.1)) →
    entries'.Perm (rows.map fun row => (row.1, row.2.2)) →
    (∀ row ∈ rows, Reordered row.2.1 row.2.2) → Reordered (.dict entries) (.dict entries')
  | defn {body body' : Obj} (owner : Ref) : Reordered body body' →
    Reordered (.defn owner body) (.defn owner body')
  | stream {header header' : Obj} (owner : Ref) (offset : Int) : Reordered header header' →
    Reordered (.stream header owner offset) (.stream header' owner offset)

/-- Whether the names of an object are different, if it is a dictionary. -/
def distinct : Obj → Bool
  | .dict entries => decide (entries.map Prod.fst).Nodup
  | _ => true

/-- Whether no dictionary in an object has two entries with one name. -/
def IsDistinct (obj : Obj) : Prop :=
  ∀ part ∈ obj.parts, part.distinct = true

instance (obj : Obj) : Decidable obj.IsDistinct :=
  inferInstanceAs (Decidable (∀ part ∈ obj.parts, part.distinct = true))

section Format
variable {entries entries' : Dict}

theorem IsDistinct.nodup {whole : Obj} (h : whole.IsDistinct) (hpart : .dict entries ∈ whole.parts) :
    (entries.map Prod.fst).Nodup :=
  of_decide_eq_true (h _ hpart)

/-- As a header a dictionary is written like any other. -/
theorem formatHeader_dict (entries : Dict) :
    (Obj.dict entries).formatHeader = (Obj.dict entries).format :=
  rfl

theorem formatDict_congr {rows : List (String × Obj × Obj)} (h : (entries.map Prod.fst).Nodup)
    (hperm : entries.Perm (rows.map fun row => (row.1, row.2.1)))
    (hperm' : entries'.Perm (rows.map fun row => (row.1, row.2.2)))
    (hrows : ∀ row ∈ rows, row.2.1.format = row.2.2.format) :
    (Obj.dict entries).format = (Obj.dict entries').format := by
  have hwritten : rows.map (fun row => (row.1, row.2.1.format)) =
      rows.map fun row => (row.1, row.2.2.format) := by
    apply List.map_congr_left
    intro row hrow
    rw [hrows row hrow]
  have hformatted := hperm.map fun entry => (entry.1, entry.2.format)
  have hformatted' := hperm'.map fun entry => (entry.1, entry.2.format)
  rw [List.map_map] at hformatted hformatted'
  rw [format, format, formatEntries_eq_map, formatEntries_eq_map, formatDict, formatDict,
    sortEntries_congr (hformatted.trans (.trans (.of_eq hwritten) hformatted'.symm))]
  rw [List.map_map]
  exact h

/-- Objects that differ only in the order of insertion are written alike, as headers too. -/
theorem Reordered.format_eq {a b : Obj} (h : a.Reordered b) (hdistinct : a.IsDistinct) :
    a.format = b.format ∧ a.formatHeader = b.formatHeader := by
  induction h with
  | refl obj => exact ⟨rfl, rfl⟩
  | @array pairs _ ih =>
    have hitems : (pairs.map Prod.fst).map format = (pairs.map Prod.snd).map format := by
      rw [List.map_map, List.map_map]
      apply List.map_congr_left
      intro pair hpair
      refine (ih pair hpair fun part hpart => hdistinct part ?_).1
      exact mem_parts_array.mpr (.inr ⟨pair.1, List.mem_map_of_mem hpair, hpart⟩)
    refine ⟨?_, rfl⟩
    rw [format, format, formatItems_eq_map, formatItems_eq_map, hitems]
  | @dict entries entries' rows hperm hperm' _ ih =>
    have hrows : ∀ row ∈ rows, row.2.1.format = row.2.2.format := by
      intro row hrow
      refine (ih row hrow fun part hpart => hdistinct part ?_).1
      have hentry : (row.1, row.2.1) ∈ entries :=
        hperm.mem_iff.mpr (List.mem_map_of_mem (f := fun row => (row.1, row.2.1)) hrow)
      exact mem_parts_dict.mpr (.inr ⟨_, hentry, hpart⟩)
    have hformat := formatDict_congr (hdistinct.nodup (self_mem_parts _)) hperm hperm' hrows
    exact ⟨hformat, by rw [formatHeader_dict, formatHeader_dict, hformat]⟩
  | defn owner _ ih =>
    refine ⟨?_, rfl⟩
    rw [format, format, (ih fun part hpart => hdistinct part (mem_parts_defn.mpr (.inr hpart))).1]
  | stream owner offset _ ih =>
    have hheader :=
      (ih fun part hpart => hdistinct part (mem_parts_stream.mpr (.inr hpart))).2
    exact ⟨by rw [format, format, hheader], by rw [formatHeader, formatHeader, hheader]⟩

/-- What holds of an object if it holds of those it is made of holds of every object. -/
theorem induction_on_parts {P : Obj → Prop} (simple : ∀ obj, obj.parts = [obj] → P obj)
    (array : ∀ items, (∀ item ∈ items, P item) → P (.array items))
    (dict : ∀ entries : Dict, (∀ entry ∈ entries, P entry.2) → P (.dict entries))
    (defn : ∀ owner body, P body → P (.defn owner body))
    (stream : ∀ header owner offset, P header → P (.stream header owner offset)) : ∀ obj, P obj :=
  @Obj.rec P (fun items => ∀ item ∈ items, P item) (fun entries => ∀ entry ∈ entries, P entry.2)
    (fun entry => P entry.2) (simple _ rfl) (fun _ => simple _ rfl) (fun _ => simple _ rfl)
    (fun _ => simple _ rfl) (fun _ => simple _ rfl) (fun _ => simple _ rfl) (fun _ => simple _ rfl)
    (fun _ => simple _ rfl) (fun _ => simple _ rfl) array dict (fun _ => simple _ rfl) defn stream
    (simple _ rfl) nofun (fun _ _ hitem hrest => List.forall_mem_cons.mpr ⟨hitem, hrest⟩) nofun
    (fun _ _ hentry hrest => List.forall_mem_cons.mpr ⟨hentry, hrest⟩) (fun _ _ hvalue => hvalue)

/-- What is written of an array shows all its items. -/
theorem infix_of_format_array {items : List Obj} {item : Obj} {text : Bytes}
    (h : (Obj.array items).format = .ok text) (hitem : item ∈ items) :
    ∃ inner, item.format = .ok inner ∧ inner <:+: text := by
  rw [format, formatItems_eq_map, List.mapM_map, Function.id_comp] at h
  cases hitems : items.mapM format with
  | error e => rw [hitems] at h; cases h
  | ok parts =>
    rw [hitems] at h
    cases h
    obtain ⟨inner, hinner, hformat⟩ := mem_of_mapM hitems hitem
    exact ⟨inner, hformat, (infix_intercalate hinner).trans (List.infix_append ..)⟩

/-- What is written of a dictionary shows all its values. -/
theorem infix_of_format_dict {entry : String × Obj} {text : Bytes}
    (h : (Obj.dict entries).format = .ok text) (hentry : entry ∈ entries) :
    ∃ inner, entry.2.format = .ok inner ∧ inner <:+: text := by
  rw [format_dict] at h
  cases hentries : (sortEntries entries).mapM writeEntry with
  | error e => rw [hentries] at h; cases h
  | ok parts =>
    rw [hentries] at h
    cases h
    obtain ⟨written, hwritten, hwrite⟩ :=
      mem_of_mapM hentries ((sortEntries_perm entries).mem_iff.mpr hentry)
    cases hvalue : entry.2.format with
    | error e => rw [writeEntry_of_error hvalue] at hwrite; cases hwrite
    | ok inner =>
      rw [writeEntry_of_ok hvalue] at hwrite
      cases hwrite
      have hinner : inner <:+: entryBytes entry.1 inner :=
        ((List.suffix_cons ..).trans (List.suffix_append ..)).isInfix
      exact ⟨inner, rfl,
        hinner.trans ((List.infix_of_mem_flatten hwritten).trans (List.infix_append ..))⟩

/-- Whether what is written, if anything is, shows a part as it is written by itself. -/
def Shows (part : Obj) (written : Except Failure Bytes) : Prop :=
  ∀ text, written = .ok text → ∃ inner, part.format = .ok inner ∧ inner <:+: text

theorem shows_format (part : Obj) : part.Shows part.format :=
  fun text h => ⟨text, h, List.infix_refl text⟩

theorem Shows.wrap {part : Obj} {written : Except Failure Bytes} {wrap : Bytes → Bytes}
    (h : part.Shows written) (hwrap : ∀ text, text <:+: wrap text) :
    part.Shows (do return wrap (← written)) := by
  intro text htext
  cases written with
  | error e => cases htext
  | ok within =>
    cases htext
    obtain ⟨inner, hinner, hwithin⟩ := h within rfl
    exact ⟨inner, hinner, hwithin.trans (hwrap within)⟩

/-- Each dictionary in an object stands in what is written of the object. -/
theorem dict_shows (obj : Obj) : .dict entries ∈ obj.parts →
    (Obj.dict entries).Shows obj.format ∧ (Obj.dict entries).Shows obj.formatHeader := by
  induction obj using induction_on_parts with
  | simple obj hparts =>
    intro hpart
    rw [hparts] at hpart
    rw [← List.mem_singleton.mp hpart]
    exact ⟨shows_format _, shows_format _⟩
  | array items ih =>
    intro hpart
    obtain ⟨item, hitem, hpart⟩ := (mem_parts_array.mp hpart).resolve_left nofun
    refine ⟨fun text htext => ?_, nofun⟩
    obtain ⟨shown, hshown, hinfix⟩ := infix_of_format_array htext hitem
    obtain ⟨inner, hinner, hwithin⟩ := (ih item hitem hpart).1 shown hshown
    exact ⟨inner, hinner, hwithin.trans hinfix⟩
  | dict others ih =>
    intro hpart
    suffices h : (Obj.dict entries).Shows (Obj.dict others).format from ⟨h, h⟩
    rcases mem_parts_dict.mp hpart with heq | ⟨entry, hentry, hpart⟩
    · rw [heq]
      exact shows_format _
    · intro text htext
      obtain ⟨shown, hshown, hinfix⟩ := infix_of_format_dict htext hentry
      obtain ⟨inner, hinner, hwithin⟩ := (ih entry hentry hpart).1 shown hshown
      exact ⟨inner, hinner, hwithin.trans hinfix⟩
  | defn owner body ih =>
    intro hpart
    have hbody := (ih ((mem_parts_defn.mp hpart).resolve_left nofun)).1
    exact ⟨hbody.wrap fun text => List.infix_append .., nofun⟩
  | stream header owner offset ih =>
    intro hpart
    have hheader := (ih ((mem_parts_stream.mp hpart).resolve_left nofun)).2
    exact ⟨hheader.wrap fun text => (List.prefix_append ..).isInfix, hheader⟩

end Format

/-- Objects that differ only in the order in which entries were inserted are written alike, or fail for
the same reason. Each dictionary in them is written by itself, wherever it stands, and shows each of its
entries once, in the strictly increasing order of the characters of the names, whatever the values; if
one of the values cannot be written, the first one in this order tells why. -/
theorem format_canonical {a b : Obj} (h : a.Reordered b) (hdistinct : a.IsDistinct) :
    a.format = b.format ∧ ∀ entries, .dict entries ∈ a.parts →
      ∃ sorted : Dict, sorted.Perm entries ∧
        (sorted.Pairwise fun x y => codePoints x.1 < codePoints y.1) ∧
        (Obj.dict entries).format = (sorted.mapM writeEntry).map
          (fun parts => ascii "<<" ++ parts.flatten ++ ascii " >>") ∧
        ∀ text, a.format = .ok text → ∃ inner, (Obj.dict entries).format = .ok inner ∧
          inner <:+: text := by
  refine ⟨(h.format_eq hdistinct).1, fun entries hpart => ?_⟩
  exact ⟨sortEntries entries, sortEntries_perm entries,
    sortEntries_increasing (hdistinct.nodup hpart), format_dict entries, (dict_shows a hpart).1⟩

/-- The header of a stream, with two orders of insertion at both depths. -/
theorem format_canonical_of_header :
    let inner : Dict := [("B", .null), ("A", .array [.int 1, .real ⟨0x7ff0000000000000⟩])]
    let a : Obj := .stream (.dict [("é", .bool true), ("$", .dict inner)]) ⟨7, 0⟩ 40
    let b : Obj := .stream (.dict [("$", .dict inner.reverse), ("é", .bool true)]) ⟨7, 0⟩ 40
    a.Reordered b ∧ a.IsDistinct ∧ a.format = b.format ∧
      ∃ sorted : Dict, sorted.Perm inner ∧
        sorted.Pairwise fun x y => codePoints x.1 < codePoints y.1 := by
  intro inner a b
  have hinner : (Obj.dict inner).Reordered (.dict inner.reverse) := by
    refine @Reordered.dict _ _ (inner.map fun entry => (entry.1, entry.2, entry.2)) ?_ ?_ ?_
    · exact .refl _
    · exact List.reverse_perm inner
    · intro row hrow
      obtain ⟨entry, -, rfl⟩ := List.mem_map.mp hrow
      exact .refl _
  have hheader : a.Reordered b := by
    refine .stream ⟨7, 0⟩ 40 (@Reordered.dict _ _
      [("é", .bool true, .bool true), ("$", .dict inner, .dict inner.reverse)] ?_ ?_ ?_)
    · exact .refl _
    · exact .swap ..
    · intro row hrow
      simp only [List.mem_cons, List.not_mem_nil, or_false] at hrow
      rcases hrow with rfl | rfl
      · exact .refl _
      · exact hinner
  have hdistinct : a.IsDistinct := by decide
  obtain ⟨hformat, hdicts⟩ := format_canonical hheader hdistinct
  obtain ⟨sorted, hperm, hincreasing, -⟩ := hdicts inner (by simp [a])
  exact ⟨hheader, hdistinct, hformat, sorted, hperm, hincreasing⟩

end Obj
end PdfSyntax
