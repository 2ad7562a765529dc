import PdfSyntax.Proofs.Obj.Form

/-!
# Parts of objects

An object is made of its parts, at any depth. A well-formed object without a stream in it can be written
as long as all reals in it are finite. Writing stops at the first real that is not.
-/

set_option autoImplicit false

namespace PdfSyntax

open Latin1 (ascii)

section Writing
variable {α β ε : Type} {f : α → Except ε β} {Expected : ε → Prop} {items : List α}

/-- A list of which some elements fail, all in an expected way, fails in such a way. -/
theorem mapM_error_of_mem (h : ∀ a ∈ items, (∃ b, f a = .ok b) ∨ ∃ e, Expected e ∧ f a = .error e)
    (hfails : ∃ a ∈ items, ∃ e, f a = .error e) : ∃ e, Expected e ∧ items.mapM f = .error e := by
  induction items with
  | nil =>
    obtain ⟨a, hmem, -⟩ := hfails
    exact absurd hmem List.not_mem_nil
  | cons a items ih =>
    rcases h a List.mem_cons_self with ⟨b, hok⟩ | ⟨e, he, herror⟩
    · have hrest : ∃ other ∈ items, ∃ e, f other = .error e := by
        obtain ⟨other, hmem, e, herror⟩ := hfails
        rcases List.mem_cons.mp hmem with rfl | hmem
        · rw [hok] at herror
          cases herror
        · exact ⟨other, hmem, e, herror⟩
      obtain ⟨e, he, herror⟩ := ih (fun other hmem => h other (List.mem_cons_of_mem a hmem)) hrest
      refine ⟨e, he, ?_⟩
      rw [List.mapM_cons, hok, herror]
      rfl
    · refine ⟨e, he, ?_⟩
      rw [List.mapM_cons, herror]
      rfl

end Writing

namespace Obj

mutual

/-- What an object is made of, at any depth, itself included. -/
def parts : Obj → List Obj
  | .array items => .array items :: partsAll items
  | .dict entries => .dict entries :: partsEntries entries
  | .defn owner body => .defn owner body :: body.parts
  | .stream header owner offset => .stream header owner offset :: header.parts
  | obj => [obj]

def partsAll : List Obj → List Obj
  | [] => []
  | item :: rest => item.parts ++ partsAll rest

def partsEntries : List (String × Obj) → List Obj
  | [] => []
  | (_, value) :: rest => value.parts ++ partsEntries rest

end

section Parts
variable {part body : Obj} {items : List Obj} {entries : Dict} {owner : Ref}

theorem mem_partsAll : part ∈ partsAll items ↔ ∃ item ∈ items, part ∈ item.parts := by
  induction items with
  | nil => simp [partsAll]
  | cons item items ih => simp [partsAll, ih]

theorem mem_partsEntries : part ∈ partsEntries entries ↔ ∃ entry ∈ entries, part ∈ entry.2.parts := by
  induction entries with
  | nil => simp [partsEntries]
  | cons entry entries ih => simp [partsEntries, ih]

@[simp] theorem mem_parts_array :
    part ∈ (Obj.array items).parts ↔ part = .array items ∨ ∃ item ∈ items, part ∈ item.parts := by
  rw [parts, List.mem_cons, mem_partsAll]

@[simp] theorem mem_parts_dict :
    part ∈ (Obj.dict entries).parts ↔ part = .dict entries ∨ ∃ entry ∈ entries, part ∈ entry.2.parts := by
  rw [parts, List.mem_cons, mem_partsEntries]

@[simp] theorem mem_parts_defn :
    part ∈ (Obj.defn owner body).parts ↔ part = .defn owner body ∨ part ∈ body.parts := by
  rw [parts, List.mem_cons]

@[simp] theorem mem_parts_stream {offset : Int} : part ∈ (Obj.stream body owner offset).parts ↔
    part = .stream body owner offset ∨ part ∈ body.parts := by
  rw [parts, List.mem_cons]

theorem self_mem_parts (obj : Obj) : obj ∈ obj.parts := by
  cases obj <;> simp [parts]

end Parts

/-- Whether there is no stream in an object. -/
def IsStreamless (obj : Obj) : Prop :=
  ∀ part ∈ obj.parts, part.isStream = false

/-- Whether an object is finite, if it is a real. -/
def finite : Obj → Bool
  | .real x => x.isFinite
  | _ => true

/-- Whether all reals in an object are finite. -/
def IsFinite (obj : Obj) : Prop :=
  ∀ part ∈ obj.parts, part.finite = true

instance (obj : Obj) : Decidable obj.IsStreamless :=
  inferInstanceAs (Decidable (∀ part ∈ obj.parts, part.isStream = false))

instance (obj : Obj) : Decidable obj.IsFinite :=
  inferInstanceAs (Decidable (∀ part ∈ obj.parts, part.finite = true))

/-- What is in the way of writing an object: a real in it that is not finite. -/
def Unwritable (obj : Obj) (e : Failure) : Prop :=
  ∃ x, .real x ∈ obj.parts ∧ x.isFinite = false ∧ e = .notFinite x

theorem Unwritable.of_part {obj whole : Obj} {e : Failure} (h : obj.Unwritable e)
    (hparts : ∀ part ∈ obj.parts, part ∈ whole.parts) : whole.Unwritable e := by
  obtain ⟨x, hx, hinfinite, rfl⟩ := h
  exact ⟨x, hparts _ hx, hinfinite, rfl⟩

/-- What holds of everything that can be written holds of all its parts. -/
theorem Writable.of_mem_parts {obj part : Obj} (h : obj.Writable) (hpart : part ∈ obj.parts) :
    part.Writable := by
  induction h with
  | array hitems ih =>
    rcases mem_parts_array.mp hpart with rfl | ⟨item, hmem, hpart⟩
    · exact .array hitems
    · exact ih item hmem hpart
  | dict hlatin hvalues hnodup ih =>
    rcases mem_parts_dict.mp hpart with rfl | ⟨entry, hmem, hpart⟩
    · exact .dict hlatin hvalues hnodup
    · exact ih entry hmem hpart
  | defn hsmall hbody ih =>
    rcases mem_parts_defn.mp hpart with rfl | hpart
    · exact .defn hsmall hbody
    · exact ih hpart
  | null => rw [List.mem_singleton.mp hpart]; exact .null
  | bool b => rw [List.mem_singleton.mp hpart]; exact .bool b
  | int h => rw [List.mem_singleton.mp hpart]; exact .int h
  | real h => rw [List.mem_singleton.mp hpart]; exact .real h
  | str bytes => rw [List.mem_singleton.mp hpart]; exact .str bytes
  | name h => rw [List.mem_singleton.mp hpart]; exact .name h
  | ref h => rw [List.mem_singleton.mp hpart]; exact .ref h

theorem Writable.isStreamless {obj : Obj} (h : obj.Writable) : obj.IsStreamless := by
  intro part hpart
  cases h.of_mem_parts hpart <;> rfl

theorem Writable.isFinite {obj : Obj} (h : obj.Writable) : obj.IsFinite := by
  intro part hpart
  cases h.of_mem_parts hpart with
  | real hfinite => exact hfinite
  | _ => rfl

theorem Writable.exists_format {obj : Obj} (h : obj.Writable) : ∃ text, obj.format = .ok text := by
  obtain ⟨text, -, -, -, hformat, -⟩ := h.isRendered
  exact ⟨text, hformat⟩

/-- A real that is not finite has no text. -/
theorem format_real_of_infinite {x : Binary64} (h : x.isFinite = false) :
    (Obj.real x).format = .error (.notFinite x) := by
  have htext : x.positional? = none := by
    rw [Binary64.positional?, if_neg (by simp [h])]
  rw [format, htext]

section Parts
variable {α : Type} {members : List α} {value : α → Obj} {whole : Obj}

/-- Either all members of a whole can be written, or some cannot for a real that is a part of the
whole. -/
theorem writable_all_or
    (hparts : ∀ member ∈ members, ∀ part ∈ (value member).parts, part ∈ whole.parts)
    (h : ∀ member ∈ members, (value member).Writable ∨
      ∃ e, (value member).Unwritable e ∧ (value member).format = .error e) :
    (∀ member ∈ members, (value member).Writable) ∨
      (∀ member ∈ members, (∃ text, (value member).format = .ok text) ∨
        ∃ e, whole.Unwritable e ∧ (value member).format = .error e) ∧
      ∃ member ∈ members, ∃ e, (value member).format = .error e := by
  by_cases hall : ∀ member ∈ members, (value member).Writable
  · exact .inl hall
  · right
    constructor
    · intro member hmem
      rcases h member hmem with hwritable | ⟨e, he, herror⟩
      · exact .inl hwritable.exists_format
      · exact .inr ⟨e, he.of_part (hparts member hmem), herror⟩
    · obtain ⟨member, hmem, hwritable⟩ : ∃ member ∈ members, ¬ (value member).Writable := by
        simpa using hall
      obtain ⟨e, -, herror⟩ := (h member hmem).resolve_left hwritable
      exact ⟨member, hmem, e, herror⟩

end Parts

section Entries
variable {entries : Dict} {entry : String × Obj} {text : Bytes} {e : Failure}

/-- What an entry is written as, if its value can be written. -/
def writeEntry (entry : String × Obj) : Except Failure Bytes :=
  entry.2.format.map (entryBytes entry.1)

/-- A dictionary is written entry by entry, as long as the values can be written. -/
theorem format_dict (entries : Dict) : (Obj.dict entries).format =
    ((sortEntries entries).mapM writeEntry).map
      fun parts => ascii "<<" ++ parts.flatten ++ ascii " >>" := by
  have hwrite : writeEntry = fun entry => do
      return 0x20 :: ascii (Name.encode entry.1) ++ 0x20 :: (← entry.2.format) := by
    funext entry
    rw [writeEntry]
    cases entry.2.format <;> rfl
  have hwrap : ∀ written : Except Failure (List Bytes),
      (do return ascii "<<" ++ (← written).flatten ++ ascii " >>") =
        written.map fun parts => ascii "<<" ++ parts.flatten ++ ascii " >>" := by
    intro written
    cases written <;> rfl
  rw [format, formatEntries_eq_map, formatDict, sortEntries_map, List.mapM_map, hwrite]
  exact hwrap _

theorem writeEntry_of_ok (h : entry.2.format = .ok text) :
    writeEntry entry = .ok (entryBytes entry.1 text) := by
  rw [writeEntry, h]
  rfl

theorem writeEntry_of_error (h : entry.2.format = .error e) : writeEntry entry = .error e := by
  rw [writeEntry, h]
  rfl

/-- The values are written in the order of the names, but which of them fails does not matter. -/
theorem format_dict_of_error {Expected : Failure → Prop}
    (h : ∀ entry ∈ entries, (∃ text, entry.2.format = .ok text) ∨
      ∃ e, Expected e ∧ entry.2.format = .error e)
    (hfails : ∃ entry ∈ entries, ∃ e, entry.2.format = .error e) :
    ∃ e, Expected e ∧ (Obj.dict entries).format = .error e := by
  have hperm := sortEntries_perm entries
  have hwritten : ∀ entry ∈ sortEntries entries, (∃ part, writeEntry entry = .ok part) ∨
      ∃ e, Expected e ∧ writeEntry entry = .error e := by
    intro entry hmem
    rcases h entry (hperm.mem_iff.mp hmem) with ⟨text, hok⟩ | ⟨e, he, herror⟩
    · exact .inl ⟨_, writeEntry_of_ok hok⟩
    · exact .inr ⟨e, he, writeEntry_of_error herror⟩
  have hunwritten : ∃ entry ∈ sortEntries entries, ∃ e, writeEntry entry = .error e := by
    obtain ⟨entry, hmem, e, herror⟩ := hfails
    exact ⟨entry, hperm.mem_iff.mpr hmem, e, writeEntry_of_error herror⟩
  obtain ⟨e, he, herror⟩ := mapM_error_of_mem hwritten hunwritten
  refine ⟨e, he, ?_⟩
  rw [format_dict, herror]
  rfl

end Entries

/-- A well-formed object without streams can be written, or a real in it is in the way. -/
theorem IsWellFormed.writable_or {obj : Obj} (h : obj.IsWellFormed) (hstream : obj.IsStreamless) :
    obj.Writable ∨ ∃ e, obj.Unwritable e ∧ obj.format = .error e := by
  induction h with
  | null => exact .inl .null
  | bool value => exact .inl (.bool value)
  | int h => exact .inl (.int h)
  | real value =>
    cases hfinite : value.isFinite with
    | true => exact .inl (.real hfinite)
    | false =>
      exact .inr ⟨_, ⟨value, self_mem_parts _, hfinite, rfl⟩, format_real_of_infinite hfinite⟩
  | str bytes => exact .inl (.str bytes)
  | name h => exact .inl (.name h)
  | @array items _ ih =>
    have hparts : ∀ item ∈ items, ∀ part ∈ (id item).parts, part ∈ (Obj.array items).parts :=
      fun item hmem part hpart => mem_parts_array.mpr (.inr ⟨item, hmem, hpart⟩)
    have hitems : ∀ item ∈ items, (id item).Writable ∨
        ∃ e, (id item).Unwritable e ∧ (id item).format = .error e :=
      fun item hmem => ih item hmem fun part hpart => hstream part (hparts item hmem part hpart)
    rcases writable_all_or hparts hitems with hall | ⟨hwritten, hfails⟩
    · exact .inl (.array hall)
    · obtain ⟨e, he, herror⟩ : ∃ e, (Obj.array items).Unwritable e ∧ items.mapM format = .error e :=
        mapM_error_of_mem hwritten hfails
      refine .inr ⟨e, he, ?_⟩
      rw [format, formatItems_eq_map, List.mapM_map, Function.id_comp, herror]
      rfl
  | @dict entries hlatin hnodup _ ih =>
    have hparts : ∀ entry ∈ entries, ∀ part ∈ (Prod.snd entry).parts, part ∈ (Obj.dict entries).parts :=
      fun entry hmem part hpart => mem_parts_dict.mpr (.inr ⟨entry, hmem, hpart⟩)
    have hentries : ∀ entry ∈ entries, (Prod.snd entry).Writable ∨
        ∃ e, (Prod.snd entry).Unwritable e ∧ (Prod.snd entry).format = .error e :=
      fun entry hmem => ih entry hmem fun part hpart => hstream part (hparts entry hmem part hpart)
    rcases writable_all_or hparts hentries with hall | ⟨hwritten, hfails⟩
    · exact .inl (.dict hlatin hall hnodup)
    · exact .inr (format_dict_of_error hwritten hfails)
  | ref h => exact .inl (.ref h)
  | @defn r body h _ ih =>
    have hparts : ∀ part ∈ body.parts, part ∈ (Obj.defn r body).parts :=
      fun part hpart => mem_parts_defn.mpr (.inr hpart)
    rcases ih fun part hpart => hstream part (hparts part hpart) with hbody | ⟨e, he, herror⟩
    · exact .inl (.defn h hbody)
    · refine .inr ⟨e, he.of_part hparts, ?_⟩
      rw [format, herror]
      rfl
  | stream owner offset _ _ => cases hstream _ (self_mem_parts _)

/-- Of the well-formed objects exactly those can be written in which there is neither a stream nor a real
that is not finite. -/
theorem IsWellFormed.writable_iff {obj : Obj} (h : obj.IsWellFormed) :
    obj.Writable ↔ obj.IsStreamless ∧ obj.IsFinite := by
  constructor
  · exact fun hwritable => ⟨hwritable.isStreamless, hwritable.isFinite⟩
  · rintro ⟨hstream, hfinite⟩
    rcases h.writable_or hstream with hwritable | ⟨e, ⟨x, hx, hinfinite, -⟩, -⟩
    · exact hwritable
    · exact absurd ((hfinite _ hx).symm.trans hinfinite) (by decide)

end Obj
end PdfSyntax
