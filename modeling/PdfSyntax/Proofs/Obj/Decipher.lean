import PdfSyntax.Obj.Dict

/-!
# Objects with their strings deciphered

The strings of an object, at any depth, are part of the innermost definition around them. A cipher makes
of an object number and a string another string; deciphering an object replaces each of its strings by
what the cipher makes of it, and strings outside of any definition stay. Names, the keys of dictionaries
among them, are no strings.
-/

set_option autoImplicit false

namespace PdfSyntax

/-- A string with the object that it is part of. -/
structure PlacedString where
  context : Ref
  data : Bytes
deriving DecidableEq

mutual

/-- The strings of an object that is part of another one. -/
def Obj.strings (context : Ref) : Obj → List PlacedString
  | .str data => [⟨context, data⟩]
  | .array items => Obj.stringsAll context items
  | .dict entries => Obj.stringsEntries context entries
  | .defn owner body => Obj.strings owner body
  | .stream header _ _ => Obj.strings context header
  | _ => []

def Obj.stringsAll (context : Ref) : List Obj → List PlacedString
  | [] => []
  | obj :: rest => Obj.strings context obj ++ Obj.stringsAll context rest

def Obj.stringsEntries (context : Ref) : List (String × Obj) → List PlacedString
  | [] => []
  | (_, value) :: rest => Obj.strings context value ++ Obj.stringsEntries context rest

end

variable (cipher : Ref → Bytes → Bytes)

/-- A string of an object; one outside of any object stays. -/
def Ref.decipher (context : Ref) (data : Bytes) : Bytes :=
  if context.id = 0 then data else cipher context data

mutual

/-- The object with its strings deciphered, when it is part of another one. -/
def Obj.decipher (context : Ref) : Obj → Obj
  | .str data => .str (context.decipher cipher data)
  | .array items => .array (Obj.decipherAll context items)
  | .dict entries => .dict (Obj.decipherEntries context entries)
  | .defn owner body => .defn owner (Obj.decipher owner body)
  | .stream header owner offset => .stream (Obj.decipher context header) owner offset
  | obj => obj

def Obj.decipherAll (context : Ref) : List Obj → List Obj
  | [] => []
  | obj :: rest => Obj.decipher context obj :: Obj.decipherAll context rest

def Obj.decipherEntries (context : Ref) : List (String × Obj) → List (String × Obj)
  | [] => []
  | (key, value) :: rest =>
    (key, Obj.decipher context value) :: Obj.decipherEntries context rest

end

namespace Obj

theorem decipherAll_eq_map (context : Ref) (items : List Obj) :
    decipherAll cipher context items = items.map (decipher cipher context) := by
  induction items with
  | nil => rfl
  | cons obj rest ih => rw [decipherAll, ih, List.map_cons]

theorem decipherAll_reverse (context : Ref) (items : List Obj) :
    (decipherAll cipher context items).reverse = decipherAll cipher context items.reverse := by
  rw [decipherAll_eq_map, decipherAll_eq_map, List.map_reverse]

/-- An entry is put where its name stands, whatever the values are. -/
theorem decipherEntries_insertEntry (context : Ref) (name : String) (value : Obj) (entries : Dict) :
    decipherEntries cipher context (insertEntry name value entries) =
      insertEntry name (decipher cipher context value) (decipherEntries cipher context entries) := by
  induction entries with
  | nil => rfl
  | cons entry rest ih =>
    obtain ⟨n, v⟩ := entry
    by_cases h : n = name
    · simp only [insertEntry, decipherEntries, h, if_true]
    · simp only [insertEntry, decipherEntries, h, if_false, ih]

theorem isEnd_decipher (context : Ref) (obj : Obj) :
    (decipher cipher context obj).isEnd = obj.isEnd := by
  cases obj <;> rfl

theorem isStream_decipher (context : Ref) (obj : Obj) :
    (decipher cipher context obj).isStream = obj.isStream := by
  cases obj <;> rfl

end Obj
end PdfSyntax
