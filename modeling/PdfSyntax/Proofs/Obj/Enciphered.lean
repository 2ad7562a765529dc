import PdfSyntax.Proofs.Obj.Decipher
import PdfSyntax.Proofs.Obj.Rendering
import Mathlib.Data.List.Forall2

/-!
# Objects with their strings enciphered

An object is enciphered by enciphering each of its strings for the innermost definition around it, each
in any of the ways in which that can be done. Strings outside of any definition stay. What undoes the
enciphering of strings undoes that of objects, and it does not matter in which order the entries of
dictionaries are.
-/

set_option autoImplicit false

namespace PdfSyntax

/-- Whether an object may be enciphered as another one, when it is part of some object. The relation
given tells what strings may be enciphered as. -/
inductive Obj.Enciphers (Seals : Ref → Bytes → Bytes → Prop) : Ref → Obj → Obj → Prop where
  | null {context : Ref} : Enciphers Seals context .null .null
  | bool {context : Ref} (b : Bool) : Enciphers Seals context (.bool b) (.bool b)
  | int {context : Ref} (n : Int) : Enciphers Seals context (.int n) (.int n)
  | real {context : Ref} (x : Binary64) : Enciphers Seals context (.real x) (.real x)
  | name {context : Ref} (text : String) : Enciphers Seals context (.name text) (.name text)
  | ref {context : Ref} (r : Ref) : Enciphers Seals context (.ref r) (.ref r)
  | outside {context : Ref} (s : Bytes) : context.id = 0 → Enciphers Seals context (.str s) (.str s)
  | str {context : Ref} {s t : Bytes} : context.id ≠ 0 → Seals context s t →
    Enciphers Seals context (.str s) (.str t)
  | array {context : Ref} {items items' : List Obj} : items.length = items'.length →
    (∀ pair ∈ items.zip items', Enciphers Seals context pair.1 pair.2) →
    Enciphers Seals context (.array items) (.array items')
  | dict {context : Ref} {entries entries' : Dict} : entries.map Prod.fst = entries'.map Prod.fst →
    (∀ pair ∈ (entries.map Prod.snd).zip (entries'.map Prod.snd),
      Enciphers Seals context pair.1 pair.2) →
    Enciphers Seals context (.dict entries) (.dict entries')
  | defn {context r : Ref} {body body' : Obj} : Enciphers Seals r body body' →
    Enciphers Seals context (.defn r body) (.defn r body')

section Lists
variable {α β : Type} {R : α → β → Prop} {as : List α} {bs : List β}

theorem forall₂_of_zip (hlength : as.length = bs.length) (h : ∀ pair ∈ as.zip bs, R pair.1 pair.2) :
    List.Forall₂ R as bs :=
  List.forall₂_iff_zip.mpr ⟨hlength, fun hmem => h _ hmem⟩

theorem exists_mem_of_forall₂ (h : List.Forall₂ R as bs) {b : β} (hb : b ∈ bs) : ∃ a ∈ as, R a b := by
  induction h with
  | nil => cases hb
  | cons hab _ ih =>
    rcases List.mem_cons.mp hb with rfl | hb
    · exact ⟨_, List.mem_cons_self, hab⟩
    · obtain ⟨a, ha, hab⟩ := ih hb
      exact ⟨a, List.mem_cons_of_mem _ ha, hab⟩

theorem length_values_eq {entries entries' : List (String × α)}
    (h : entries.map Prod.fst = entries'.map Prod.fst) :
    (entries.map Prod.snd).length = (entries'.map Prod.snd).length := by
  have hlength := congrArg List.length h
  simp only [List.length_map] at hlength ⊢
  exact hlength

end Lists

namespace Obj

section Members
variable {context : Ref} {string : PlacedString}

theorem mem_stringsAll {items : List Obj} :
    string ∈ stringsAll context items ↔ ∃ item ∈ items, string ∈ item.strings context := by
  induction items with
  | nil => simp [stringsAll]
  | cons item items ih => simp [stringsAll, ih]

theorem mem_stringsEntries {entries : Dict} :
    string ∈ stringsEntries context entries ↔
      ∃ value ∈ entries.map Prod.snd, string ∈ value.strings context := by
  induction entries with
  | nil => simp [stringsEntries]
  | cons entry entries ih => simp [stringsEntries, ih]

theorem decipherEntries_eq_map (cipher : Ref → Bytes → Bytes) (context : Ref) (entries : Dict) :
    decipherEntries cipher context entries =
      entries.map fun entry => (entry.1, entry.2.decipher cipher context) := by
  induction entries with
  | nil => rfl
  | cons entry entries ih => rw [decipherEntries, ih, List.map_cons]

end Members

section Same
variable {obj obj' : Obj} {context : Ref}

/-- Deciphering does not look at the order of entries. -/
theorem Same.decipher (hwritable : obj.Writable) (h : obj.Same obj') (cipher : Ref → Bytes → Bytes)
    (context : Ref) : (obj.decipher cipher context).Same (obj'.decipher cipher context) := by
  induction hwritable generalizing obj' context with
  | @array items _ ih =>
    cases h with
    | refl => exact .refl _
    | @array _ items' hitems =>
      have hboth := (List.forall₂_and_left _ _).mpr
        ⟨fun item hitem => fun item' (hsame : item.Same item') => ih item hitem hsame context, hitems⟩
      rw [Obj.decipher, Obj.decipher, decipherAll_eq_map, decipherAll_eq_map]
      apply Same.array
      rw [List.forall₂_map_left_iff, List.forall₂_map_right_iff]
      exact hboth.imp fun item item' h => h.1 item' h.2
  | @dict entries _ _ _ ih =>
    cases h with
    | refl => exact .refl _
    | @dict _ reordered entries' hperm hkeys hvalues =>
      have hih : ∀ value ∈ reordered.map Prod.snd, ∀ value', value.Same value' →
          (value.decipher cipher context).Same (value'.decipher cipher context) := by
        intro value hvalue value' hsame
        obtain ⟨entry, hentry, rfl⟩ := List.mem_map.mp hvalue
        exact ih entry (hperm.mem_iff.mpr hentry) hsame context
      have hboth := (List.forall₂_and_left _ _).mpr ⟨hih, hvalues⟩
      rw [Obj.decipher, Obj.decipher, decipherEntries_eq_map, decipherEntries_eq_map]
      refine .dict (hperm.map _) ?_ ?_
      · rw [List.map_map, List.map_map]
        exact hkeys
      · have hvalue : ∀ entries : Dict,
            (entries.map fun entry => (entry.1, entry.2.decipher cipher context)).map Prod.snd =
              (entries.map Prod.snd).map fun value => value.decipher cipher context := by
          intro entries
          rw [List.map_map, List.map_map]
          rfl
        rw [hvalue, hvalue, List.forall₂_map_left_iff, List.forall₂_map_right_iff]
        exact hboth.imp fun value value' h => h.1 value' h.2
  | defn _ _ ih =>
    cases h with
    | refl => exact .refl _
    | defn hbody => exact .defn (ih hbody _)
  | _ =>
    cases h
    exact .refl _

theorem Same.strings (hwritable : obj.Writable) (h : obj.Same obj') {string : PlacedString}
    (hmem : string ∈ obj'.strings context) : string ∈ obj.strings context := by
  induction hwritable generalizing obj' context with
  | @array items _ ih =>
    cases h with
    | refl => exact hmem
    | @array _ items' hitems =>
      obtain ⟨item', hitem', hmem⟩ := mem_stringsAll.mp hmem
      obtain ⟨item, hitem, hsame⟩ := exists_mem_of_forall₂ hitems hitem'
      exact mem_stringsAll.mpr ⟨item, hitem, ih item hitem hsame hmem⟩
  | @dict entries _ _ _ ih =>
    cases h with
    | refl => exact hmem
    | @dict _ reordered entries' hperm hkeys hvalues =>
      obtain ⟨value', hvalue', hmem⟩ := mem_stringsEntries.mp hmem
      obtain ⟨value, hvalue, hsame⟩ := exists_mem_of_forall₂ hvalues hvalue'
      obtain ⟨entry, hentry, rfl⟩ := List.mem_map.mp hvalue
      have hentry := hperm.mem_iff.mpr hentry
      exact mem_stringsEntries.mpr
        ⟨entry.2, List.mem_map_of_mem hentry, ih entry hentry hsame hmem⟩
  | defn _ _ ih =>
    cases h with
    | refl => exact hmem
    | defn hbody => exact ih hbody hmem
  | _ =>
    cases h
    exact hmem

end Same

namespace Enciphers
variable {Seals : Ref → Bytes → Bytes → Prop} {context : Ref} {obj secret : Obj}

/-- Any string can stand in a file, and nothing else changes. -/
theorem writable (h : Enciphers Seals context obj secret) (hwritable : obj.Writable) :
    secret.Writable := by
  induction h with
  | outside s _ => exact .str s
  | str _ _ => exact .str _
  | array hlength _ ih =>
    cases hwritable with
    | array hwritable =>
      refine .array fun item' hitem' => ?_
      have hpairs := forall₂_of_zip (R := fun a b => a.Writable → b.Writable) hlength ih
      obtain ⟨item, hitem, hpair⟩ := exists_mem_of_forall₂ hpairs hitem'
      exact hpair (hwritable item hitem)
  | @dict context entries entries' hkeys _ ih =>
    cases hwritable with
    | dict hlatin hwritable hnodup =>
      have hpairs := forall₂_of_zip (R := fun a b => a.Writable → b.Writable)
        (length_values_eq hkeys) ih
      refine .dict ?_ ?_ (hkeys ▸ hnodup)
      · intro entry' hentry'
        have hkey : entry'.1 ∈ entries.map Prod.fst := hkeys ▸ List.mem_map_of_mem hentry'
        obtain ⟨entry, hentry, heq⟩ := List.mem_map.mp hkey
        exact heq ▸ hlatin entry hentry
      · intro entry' hentry'
        obtain ⟨value, hvalue, hpair⟩ := exists_mem_of_forall₂ hpairs (List.mem_map_of_mem hentry')
        obtain ⟨entry, hentry, rfl⟩ := List.mem_map.mp hvalue
        exact hpair (hwritable entry hentry)
  | defn _ ih =>
    cases hwritable with
    | defn hsmall hbody => exact .defn hsmall (ih hbody)
  | _ => exact hwritable

theorem seals (h : Enciphers Seals context obj secret) {string : PlacedString}
    (hmem : string ∈ secret.strings context) (hid : string.context.id ≠ 0) :
    ∃ plain, Seals string.context plain string.data := by
  induction h with
  | outside s houtside =>
    rw [List.mem_singleton.mp hmem] at hid
    exact absurd houtside hid
  | @str context s t _ hseals =>
    rw [List.mem_singleton.mp hmem]
    exact ⟨s, hseals⟩
  | @array context _ _ hlength _ ih =>
    obtain ⟨item', hitem', hmem⟩ := mem_stringsAll.mp hmem
    have hpairs := forall₂_of_zip (R := fun _ b => string ∈ b.strings context → ∃ plain,
      Seals string.context plain string.data) hlength ih
    obtain ⟨item, -, hpair⟩ := exists_mem_of_forall₂ hpairs hitem'
    exact hpair hmem
  | @dict context _ _ hkeys _ ih =>
    obtain ⟨value', hvalue', hmem⟩ := mem_stringsEntries.mp hmem
    have hpairs := forall₂_of_zip (R := fun _ b => string ∈ b.strings context → ∃ plain,
      Seals string.context plain string.data) (length_values_eq hkeys) ih
    obtain ⟨value, -, hpair⟩ := exists_mem_of_forall₂ hpairs hvalue'
    exact hpair hmem
  | defn _ ih => exact ih hmem
  | _ => cases hmem

/-- What undoes the enciphering of strings undoes that of an object. -/
theorem decipher_eq (h : Enciphers Seals context obj secret) {cipher : Ref → Bytes → Bytes}
    (hcipher : ∀ context s t, Seals context s t → cipher context t = s) :
    secret.decipher cipher context = obj := by
  induction h with
  | outside s houtside => rw [Obj.decipher, Ref.decipher, if_pos houtside]
  | str hinside hseals =>
    rw [Obj.decipher, Ref.decipher, if_neg hinside, hcipher _ _ _ hseals]
  | @array context items items' hlength _ ih =>
    have hpairs := forall₂_of_zip (R := fun a b => b.decipher cipher context = a) hlength ih
    have hitemsEq : items'.map (Obj.decipher cipher context) = items := by
      rw [← List.forall₂_eq_eq_eq, List.forall₂_map_left_iff]
      exact hpairs.flip
    rw [Obj.decipher, decipherAll_eq_map, hitemsEq]
  | @dict context entries entries' hkeys _ ih =>
    have hpairs := forall₂_of_zip (R := fun a b => b.decipher cipher context = a)
      (length_values_eq hkeys) ih
    have hvaluesEq : (entries'.map Prod.snd).map (fun value => value.decipher cipher context) =
        entries.map Prod.snd := by
      rw [← List.forall₂_eq_eq_eq, List.forall₂_map_left_iff]
      exact hpairs.flip
    have hentries : entries'.map (fun entry => (entry.1, entry.2.decipher cipher context)) = entries := by
      rw [← List.zip_unzip entries, List.unzip_eq_map]
      apply List.zip_of_prod
      · rw [hkeys, List.map_map]
        rfl
      · rw [← hvaluesEq, List.map_map, List.map_map]
        rfl
    rw [Obj.decipher, decipherEntries_eq_map, hentries]
  | defn _ ih => rw [Obj.decipher, ih]
  | _ => rfl

end Enciphers
end Obj
end PdfSyntax
