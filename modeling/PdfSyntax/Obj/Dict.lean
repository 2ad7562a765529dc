import PdfSyntax.Failure

/-!
# Dictionaries

A dictionary is a list of entries, each a name and a value, and no name has two entries. An entry keeps
the place of its first insertion. Keys come from outside as objects: only a name can be stored under,
but an entry is found by the text of its key, whatever kind of text that is. A key that can change cannot
even be looked for; it is refused before anything is done.
-/

set_option autoImplicit false

namespace PdfSyntax

section Entries
variable {α : Type}

/-- Puts a value under a name: in the place of the value that is there, or else at the end. -/
def insertEntry (name : String) (value : α) : List (String × α) → List (String × α)
  | [] => [(name, value)]
  | (n, v) :: rest => if n = name then (n, value) :: rest else (n, v) :: insertEntry name value rest

/-- The entries with names in increasing order of their characters. -/
def sortEntries (entries : List (String × α)) : List (String × α) :=
  entries.mergeSort fun a b => decide (a.1 ≤ b.1)

theorem lookup_insertEntry (name : String) (value : α) (entries : List (String × α)) (n : String) :
    (insertEntry name value entries).lookup n =
      if n = name then some value else entries.lookup n := by
  induction entries with
  | nil =>
    by_cases h : n = name <;> simp [insertEntry, h]
  | cons entry rest ih =>
    obtain ⟨m, v⟩ := entry
    by_cases hm : m = name
    · subst hm
      by_cases h : n = m
      · simp [insertEntry, h]
      · have hb : (n == m) = false := by simpa using h
        simp [insertEntry, List.lookup_cons, h, hb]
    · simp only [insertEntry, hm, if_false, List.lookup_cons, ih]
      by_cases h : n = m
      · simp [h, hm]
      · have hb : (n == m) = false := by simpa using h
        simp [hb]

theorem keys_insertEntry (name : String) (value : α) (entries : List (String × α)) :
    (insertEntry name value entries).map Prod.fst =
      if name ∈ entries.map Prod.fst then entries.map Prod.fst
      else entries.map Prod.fst ++ [name] := by
  induction entries with
  | nil => rfl
  | cons entry rest ih =>
    obtain ⟨m, v⟩ := entry
    by_cases hm : m = name
    · simp [insertEntry, hm]
    · have hm' : ¬ name = m := fun h => hm h.symm
      simp only [insertEntry, hm, if_false, List.map_cons, ih, List.mem_cons, hm', false_or]
      split <;> simp

theorem insertEntry_of_not_mem {name : String} {entries : List (String × α)}
    (h : name ∉ entries.map Prod.fst) (value : α) :
    insertEntry name value entries = entries ++ [(name, value)] := by
  induction entries with
  | nil => rfl
  | cons entry rest ih =>
    obtain ⟨m, v⟩ := entry
    simp only [List.map_cons, List.mem_cons, not_or] at h
    have hm : ¬ m = name := fun hm => h.1 hm.symm
    simp only [insertEntry, hm, if_false, ih h.2, List.cons_append]

/-- Sorting looks at the names only. -/
theorem sortEntries_map {β : Type} (f : α → β) (entries : List (String × α)) :
    sortEntries (entries.map fun entry => (entry.1, f entry.2)) =
      (sortEntries entries).map fun entry => (entry.1, f entry.2) := by
  unfold sortEntries
  rw [List.map_mergeSort]
  intro a _ b _
  rfl

theorem sortEntries_perm (entries : List (String × α)) : (sortEntries entries).Perm entries :=
  List.mergeSort_perm entries _

end Entries

abbrev Dict := List (String × Obj)

/-- A change to a dictionary; what was changed before a failure stays changed. -/
abbrev Dict.Change := EStateM Failure Dict

namespace Dict

def find? (key : Obj) (d : Dict) : Option Obj :=
  key.text?.bind fun t => List.lookup t d

/-- The value under a key, or null. -/
def get (key : Obj) (d : Dict) : Except Failure Obj :=
  if key.isHashable then .ok ((find? key d).getD .null) else .error (.unhashable key)

/-- Puts a value under a key, which must be a name. -/
def assign (key value : Obj) : Change Unit :=
  match key with
  | .name n => modify (insertEntry n value)
  | _ => throw (.keyNotName key)

def sameKey (a b : Obj) : Bool :=
  a.text?.isSome && a.text? == b.text?

/-- Adds a pair to pairs; a value under the same key gives way, but the key that is there stays. -/
def mergePair (pairs : List (Obj × Obj)) (key value : Obj) : List (Obj × Obj) :=
  match pairs with
  | [] => [(key, value)]
  | (k, v) :: rest => if sameKey k key then (k, value) :: rest else (k, v) :: mergePair rest key value

/-- Pairs with different keys: each key at its first place, with its last value. -/
def merge (pairs : List (Obj × Obj)) : List (Obj × Obj) :=
  pairs.foldl (fun merged pair => mergePair merged pair.1 pair.2) []

def checkKey (key : Obj) : Change Unit :=
  if key.isHashable then return else throw (.unhashable key)

/-- Merges pairs, which looks for every key, and then puts the values under their keys, one after
another. -/
def update (pairs : List (Obj × Obj)) : Change Unit := do
  pairs.forM fun pair => checkKey pair.1
  (merge pairs).forM fun pair => assign pair.1 pair.2

/-- The value under a key, after putting the given one there if there is none. -/
def setDefault (key fallback : Obj) : Change Obj := do
  checkKey key
  match find? key (← MonadState.get) with
  | some value => return value
  | none =>
    assign key fallback
    return fallback

/-- Among named values, what stands for the dictionary itself. -/
def ownName : String :=
  "self"

def checkNames (named : List (String × Obj)) : Change Unit :=
  if named.any fun entry => entry.1 == ownName then throw (.reservedName ownName) else return

/-- Puts the values of pairs and of named values under their keys. A name counts as a plain text. -/
def updateNamed (pairs : List (Obj × Obj)) (named : List (String × Obj)) : Change Unit := do
  checkNames named
  update (pairs ++ named.map fun entry => (.text entry.1, entry.2))

/-- A dictionary of pairs, and then of named values. -/
def construct (pairs : List (Obj × Obj)) (named : List (String × Obj)) : Change Unit := do
  checkNames named
  update pairs
  named.forM fun entry => assign (.name entry.1) entry.2

/-- The value under a name, or null. Names that start with two underscores are reserved. -/
def field (name : String) (d : Dict) : Except Failure Obj :=
  if name.startsWith "__" then .error (.noAttribute name) else get (.name name) d

/-- A dictionary with the same entries. -/
def copy (d : Dict) : Dict :=
  d.foldl (fun built entry => insertEntry entry.1 entry.2 built) []

end Dict

end PdfSyntax
