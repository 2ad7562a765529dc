import Mathlib.Data.List.Forall2
import Mathlib.Data.List.Nodup
import PdfSyntax.Obj.Dict

/-!
# Dictionaries are ordered maps

An ordered map is a list of different names with a value for each. What is done to a dictionary is told
again for ordered maps: pairs are merged by the text of their keys all at once, and of the merged pairs
those before the first key that is no name are stored. Where a key cannot even be looked for, nothing
is. Whatever is done, a dictionary lists the entries of the ordered map that has undergone the same.
-/

set_option autoImplicit false

namespace PdfSyntax

/-- Puts one value after another under its name. -/
def insertAll {α : Type} (entries d : List (String × α)) : List (String × α) :=
  entries.foldl (fun d entry => insertEntry entry.1 entry.2 d) d

/-- Different names in the order in which they came, and a value for each of them. -/
structure OrderedMap (α : Type) where
  names : List String
  find : String → Option α
  nodup : names.Nodup
  isSome_find : ∀ name, (find name).isSome = true ↔ name ∈ names

namespace OrderedMap
variable {α : Type}

def empty : OrderedMap α where
  names := []
  find _ := none
  nodup := List.nodup_nil
  isSome_find := by simp

def entries (m : OrderedMap α) : List (String × α) :=
  m.names.filterMap fun name => (m.find name).map (name, ·)

/-- Changes the value of a name, which keeps its place; a new name comes last. -/
def put (name : String) (value : α) (m : OrderedMap α) : OrderedMap α where
  names := if name ∈ m.names then m.names else m.names ++ [name]
  find := Function.update m.find name (some value)
  nodup := by
    split
    · exact m.nodup
    · rename_i hnew
      refine List.nodup_append.mpr ⟨m.nodup, List.nodup_singleton name, ?_⟩
      intro n hn o ho
      rw [List.mem_singleton.mp ho]
      rintro rfl
      exact hnew hn
  isSome_find n := by
    by_cases hn : n = name
    · subst hn
      rw [Function.update_self]
      split <;> simp_all
    · rw [Function.update_of_ne hn, m.isSome_find]
      split <;> simp [hn]

def putAll (entries : List (String × α)) (m : OrderedMap α) : OrderedMap α :=
  entries.foldl (fun m entry => m.put entry.1 entry.2) m

/-- Whether a list has the entries of a map, in their order. -/
structure Lists (m : OrderedMap α) (d : List (String × α)) : Prop where
  names_eq : d.map Prod.fst = m.names
  find_eq : ∀ name, d.lookup name = m.find name

theorem lists_empty : (empty : OrderedMap α).Lists [] :=
  ⟨rfl, fun _ => rfl⟩

variable {m : OrderedMap α} {d : List (String × α)}

theorem Lists.nodup (h : m.Lists d) : (d.map Prod.fst).Nodup :=
  h.names_eq ▸ m.nodup

theorem Lists.put (h : m.Lists d) (name : String) (value : α) :
    (m.put name value).Lists (insertEntry name value d) where
  names_eq := by
    rw [keys_insertEntry, h.names_eq]
    rfl
  find_eq n := by
    rw [lookup_insertEntry, h.find_eq]
    exact (Function.update_apply m.find name (some value) n).symm

theorem Lists.putAll (h : m.Lists d) (entries : List (String × α)) :
    (m.putAll entries).Lists (insertAll entries d) := by
  induction entries generalizing m d with
  | nil => exact h
  | cons entry rest ih => exact ih (h.put entry.1 entry.2)

/-- Entries with different names are found again by their names. -/
theorem filterMap_lookup (h : (d.map Prod.fst).Nodup) :
    (d.map Prod.fst).filterMap (fun name => (d.lookup name).map (name, ·)) = d := by
  induction d with
  | nil => rfl
  | cons entry rest ih =>
    obtain ⟨name, value⟩ := entry
    obtain ⟨hnew, hrest⟩ := List.nodup_cons.mp h
    have hlater : ∀ n ∈ rest.map Prod.fst,
        (List.lookup n ((name, value) :: rest)).map (n, ·) = (rest.lookup n).map (n, ·) := by
      intro n hn
      have hne : (n == name) = false := beq_eq_false_iff_ne.mpr fun h => hnew (h ▸ hn)
      rw [List.lookup_cons, hne]
    rw [List.map_cons, List.filterMap_cons_some (b := (name, value)) (by simp),
      List.filterMap_congr hlater, ih hrest]

theorem Lists.eq_entries (h : m.Lists d) : d = m.entries := by
  rw [entries, ← h.names_eq, ← funext h.find_eq]
  exact (filterMap_lookup h.nodup).symm

end OrderedMap

namespace Dict

/-! Pairs are merged one by one, or all at once. -/
section Merge

def withKey (key : Obj) (pairs : List (Obj × Obj)) : List (Obj × Obj) :=
  pairs.filter fun pair => sameKey key pair.1

def withoutKey (key : Obj) (pairs : List (Obj × Obj)) : List (Obj × Obj) :=
  pairs.filter fun pair => !sameKey key pair.1

theorem length_withoutKey_le (key : Obj) (pairs : List (Obj × Obj)) :
    (withoutKey key pairs).length ≤ pairs.length :=
  List.length_filter_le ..

/-- Pairs with different keys: of the pairs with one text the first key, at its place, with the last
value. -/
def mergedByText : List (Obj × Obj) → List (Obj × Obj)
  | [] => []
  | (key, value) :: rest =>
    (key, ((withKey key rest).getLastD (key, value)).2) :: mergedByText (withoutKey key rest)
termination_by pairs => pairs.length
decreasing_by exact Nat.lt_succ_of_le (length_withoutKey_le key rest)

/-- The first of the merged pairs takes up all values under its text, and the others go past it. -/
theorem foldl_mergePair_cons (key value : Obj) (merged pairs : List (Obj × Obj)) :
    pairs.foldl (fun merged pair => mergePair merged pair.1 pair.2) ((key, value) :: merged) =
      (key, ((withKey key pairs).getLastD (key, value)).2) ::
        (withoutKey key pairs).foldl (fun merged pair => mergePair merged pair.1 pair.2) merged := by
  induction pairs generalizing value merged with
  | nil => rfl
  | cons pair rest ih =>
    obtain ⟨k, v⟩ := pair
    cases hsame : sameKey key k with
    | true =>
      have hlast : (((k, v) :: withKey key rest).getLastD (key, value)).2 =
          ((withKey key rest).getLastD (key, v)).2 := by
        cases withKey key rest <;> rfl
      have hwith : withKey key ((k, v) :: rest) = (k, v) :: withKey key rest :=
        List.filter_cons_of_pos hsame
      have hwithout : withoutKey key ((k, v) :: rest) = withoutKey key rest :=
        List.filter_cons_of_neg (by rw [hsame]; decide)
      rw [List.foldl_cons, mergePair, if_pos hsame, ih, hwith, hwithout, hlast]
    | false =>
      have hwith : withKey key ((k, v) :: rest) = withKey key rest :=
        List.filter_cons_of_neg (by rw [hsame]; decide)
      have hwithout : withoutKey key ((k, v) :: rest) = (k, v) :: withoutKey key rest :=
        List.filter_cons_of_pos (by rw [hsame]; rfl)
      rw [List.foldl_cons, mergePair, if_neg (by rw [hsame]; decide), ih, hwith, hwithout,
        List.foldl_cons]

theorem merge_eq (pairs : List (Obj × Obj)) : merge pairs = mergedByText pairs := by
  induction pairs using mergedByText.induct with
  | case1 => rw [mergedByText]; rfl
  | case2 key value rest ih =>
    rw [mergedByText, ← ih]
    exact foldl_mergePair_cons key value [] rest

end Merge

/-! Of pairs with different keys those are stored that come before the first key that is no name. -/
section Store

def stored : List (Obj × Obj) → List (String × Obj)
  | (.name n, value) :: rest => (n, value) :: stored rest
  | _ => []

/-- Storing pairs fails at the first key that is no name, if there is one. -/
def verdict : List (Obj × Obj) → Except Failure Unit
  | [] => .ok ()
  | (.name _, _) :: rest => verdict rest
  | (key, _) :: _ => .error (.keyNotName key)

/-- The first key that cannot be looked for. -/
def unhashable? (pairs : List (Obj × Obj)) : Option Obj :=
  (pairs.map Prod.fst).find? fun key => !key.isHashable

/-- What a change comes to, and the dictionary that it leaves. -/
def Change.report {α : Type} (change : Change α) (d : Dict) : Except Failure α × Dict :=
  match change d with
  | .ok a d' => (.ok a, d')
  | .error e d' => (.error e, d')

theorem report_forM_assign (pairs : List (Obj × Obj)) (d : Dict) :
    Change.report (pairs.forM fun pair => assign pair.1 pair.2) d =
      (verdict pairs, insertAll (stored pairs) d) := by
  induction pairs generalizing d with
  | nil => rfl
  | cons pair rest ih =>
    obtain ⟨key, value⟩ := pair
    cases key with
    | name n => exact ih (insertEntry n value d)
    | _ => rfl

/-- What is asked for with a key that cannot be looked for does not begin. -/
theorem report_checkKey {α : Type} (key : Obj) (change : Change α) (d : Dict) :
    Change.report (do checkKey key; change) d =
      if key.isHashable then change.report d else (.error (.unhashable key), d) := by
  cases hkey : key.isHashable with
  | true =>
    rw [checkKey, if_pos hkey]
    rfl
  | false =>
    rw [checkKey, if_neg (by rw [hkey]; decide)]
    rfl

theorem report_checkKeys {α : Type} (pairs : List (Obj × Obj)) (change : Change α) (d : Dict) :
    Change.report (do pairs.forM fun pair => checkKey pair.1; change) d =
      match unhashable? pairs with
      | some key => (.error (.unhashable key), d)
      | none => change.report d := by
  induction pairs with
  | nil => rfl
  | cons pair rest ih =>
    have hfirst : (do (pair :: rest).forM fun pair => checkKey pair.1; change : Change α) =
        (do checkKey pair.1; do rest.forM fun pair => checkKey pair.1; change) :=
      bind_assoc (checkKey pair.1) (fun _ => rest.forM fun pair => checkKey pair.1) fun _ => change
    rw [hfirst, report_checkKey, ih]
    cases hkey : pair.1.isHashable with
    | true =>
      have hrest : unhashable? (pair :: rest) = unhashable? rest :=
        List.find?_cons_of_neg (by rw [hkey]; decide)
      rw [hrest]
      rfl
    | false =>
      have hpair : unhashable? (pair :: rest) = some pair.1 :=
        List.find?_cons_of_pos (by rw [hkey]; rfl)
      rw [hpair]
      rfl

/-- Named values are all stored. -/
theorem forM_assign_named (named : List (String × Obj)) (d : Dict) :
    (named.forM fun entry => assign (.name entry.1) entry.2 : Change Unit) d =
      .ok () (insertAll named d) := by
  induction named generalizing d with
  | nil => rfl
  | cons entry rest ih => exact ih (insertEntry entry.1 entry.2 d)

/-- What is asked for with a reserved name does not begin. -/
theorem report_checkNames {α : Type} (named : List (String × Obj)) (change : Change α) (d : Dict) :
    Change.report (do checkNames named; change) d =
      if ownName ∈ named.map Prod.fst then (.error (.reservedName ownName), d)
      else change.report d := by
  have hany : (named.any fun entry => entry.1 == ownName) = true ↔ ownName ∈ named.map Prod.fst := by
    simp only [List.any_eq_true, beq_iff_eq, List.mem_map]
  by_cases h : ownName ∈ named.map Prod.fst
  · rw [if_pos h, checkNames, if_pos (hany.mpr h)]
    rfl
  · rw [if_neg h, checkNames, if_neg (fun hown => h (hany.mp hown))]
    rfl

theorem report_bind {α β : Type} (first : Change α) (next : α → Change β) (d : Dict) :
    Change.report (first >>= next) d =
      match first.report d with
      | (.ok a, d') => (next a).report d'
      | (.error e, d') => (.error e, d') := by
  simp only [Change.report, Bind.bind, EStateM.bind]
  cases first d <;> rfl

theorem report_then {α β : Type} (change : Change α) (b : β) (d : Dict) :
    Change.report (do let _ ← change; return b) d =
      ((change.report d).1.map fun _ => b, (change.report d).2) := by
  rw [report_bind]
  obtain ⟨outcome, d'⟩ := change.report d
  cases outcome <;> rfl

end Store

/-- What can be done to a dictionary from outside. -/
inductive Call where
  | construct (pairs : List (Obj × Obj)) (named : List (String × Obj))
  | assign (key value : Obj)
  | update (pairs : List (Obj × Obj)) (named : List (String × Obj))
  | setDefault (key fallback : Obj)
  | copy

/-- A dictionary that is constructed, or copied, takes the place of the one at hand. If it cannot be
constructed there is none, and the one at hand stays. -/
def Call.change : Call → Change Obj
  | .construct pairs named => fun d =>
    match Dict.construct pairs named [] with
    | .ok _ built => .ok (.dict built) built
    | .error e _ => .error e d
  | .assign key value => do
    Dict.assign key value
    return .null
  | .update pairs named => do
    updateNamed pairs named
    return .null
  | .setDefault key fallback => Dict.setDefault key fallback
  | .copy => fun d => .ok (.dict (Dict.copy d)) (Dict.copy d)

theorem report_setDefault (key fallback : Obj) (d : Dict) :
    (Dict.setDefault key fallback).report d =
      if key.isHashable then
        match find? key d with
        | some value => (.ok value, d)
        | none =>
          (((Dict.assign key fallback).report d).1.map fun _ => fallback,
            ((Dict.assign key fallback).report d).2)
      else (.error (.unhashable key), d) := by
  rw [← report_then, Dict.setDefault, report_checkKey]
  congr 1
  change Change.report (match find? key d with
    | some value => return value
    | none => do
      Dict.assign key fallback
      return fallback) d = _
  split <;> rfl

/-- What is constructed takes up first the pairs and then the named values. -/
theorem report_construct (pairs : List (Obj × Obj)) (named : List (String × Obj)) (d : Dict) :
    (Call.construct pairs named).change.report d =
      if ownName ∈ named.map Prod.fst then (.error (.reservedName ownName), d)
      else
        match (Dict.update pairs).report [] with
        | (.ok _, built) => (.ok (.dict (insertAll named built)), insertAll named built)
        | (.error e, _) => (.error e, d) := by
  have hfresh : (Call.construct pairs named).change.report d =
      match (Dict.construct pairs named).report [] with
      | (.ok _, built) => (.ok (.dict built), built)
      | (.error e, _) => (.error e, d) := by
    simp only [Call.change, Change.report]
    cases Dict.construct pairs named [] <;> rfl
  rw [hfresh, Dict.construct, report_checkNames]
  by_cases hreserved : ownName ∈ named.map Prod.fst
  · rw [if_pos hreserved, if_pos hreserved]
  · rw [if_neg hreserved, if_neg hreserved, report_bind]
    obtain ⟨outcome, built⟩ := (Dict.update pairs).report []
    cases outcome with
    | ok _ => simp only [Change.report, forM_assign_named]
    | error e => rfl

/-- What each of some calls comes to, with the dictionary after it. -/
def run : List Call → Dict → List (Except Failure Obj × Dict)
  | [], _ => []
  | call :: rest, d =>
    let report := Change.report call.change d
    report :: run rest report.2

end Dict

namespace OrderedMap
open Dict (Call mergedByText ownName stored unhashable? verdict)

/-- Only names have values. -/
def assign (m : OrderedMap Obj) (key value : Obj) : Except Failure Unit × OrderedMap Obj :=
  match key with
  | .name name => (.ok (), m.put name value)
  | key => (.error (.keyNotName key), m)

/-- Of the merged pairs those before the first key that is no name get their values, unless there is a
key that cannot be looked for. -/
def update (m : OrderedMap Obj) (pairs : List (Obj × Obj)) : Except Failure Unit × OrderedMap Obj :=
  match unhashable? pairs with
  | some key => (.error (.unhashable key), m)
  | none => (verdict (mergedByText pairs), m.putAll (stored (mergedByText pairs)))

/-- What a call comes to for an ordered map. -/
def perform (m : OrderedMap Obj) : Call → Except Failure Obj × OrderedMap Obj
  | .construct pairs named =>
    if ownName ∈ named.map Prod.fst then (.error (.reservedName ownName), m)
    else
      match empty.update pairs with
      | (.ok _, built) => (.ok (.dict (built.putAll named).entries), built.putAll named)
      | (.error e, _) => (.error e, m)
  | .assign key value => ((m.assign key value).1.map fun _ => .null, (m.assign key value).2)
  | .update pairs named =>
    if ownName ∈ named.map Prod.fst then (.error (.reservedName ownName), m)
    else
      let updated := m.update (pairs ++ named.map fun entry => (.text entry.1, entry.2))
      (updated.1.map fun _ => .null, updated.2)
  | .setDefault key fallback =>
    if key.isHashable then
      match key.text?.bind m.find with
      | some value => (.ok value, m)
      | none => ((m.assign key fallback).1.map fun _ => fallback, (m.assign key fallback).2)
    else (.error (.unhashable key), m)
  | .copy => (.ok (.dict m.entries), m)

def run : List Call → OrderedMap Obj → List (Except Failure Obj × OrderedMap Obj)
  | [], _ => []
  | call :: rest, m => m.perform call :: run rest (m.perform call).2

end OrderedMap

namespace Dict
open OrderedMap (Lists)
variable {m : OrderedMap Obj} {d : Dict}

theorem copy_of_lists (h : m.Lists d) : copy d = d := by
  have hfresh : ∀ (built rest : Dict), ((built ++ rest).map Prod.fst).Nodup →
      insertAll rest built = built ++ rest := by
    intro built rest hdistinct
    induction rest generalizing built with
    | nil => exact (List.append_nil built).symm
    | cons entry rest ih =>
      have hnew : entry.1 ∉ built.map Prod.fst := by
        rw [List.map_append, List.map_cons] at hdistinct
        exact fun hmem => (List.nodup_append.mp hdistinct).2.2 _ hmem _ List.mem_cons_self rfl
      rw [insertAll, List.foldl_cons, insertEntry_of_not_mem hnew, ← insertAll, ih, List.append_assoc]
      · rfl
      · rwa [List.append_assoc]
  exact hfresh [] d h.nodup

theorem report_assign (h : m.Lists d) (key value : Obj) :
    ((assign key value).report d).1 = (m.assign key value).1 ∧
      (m.assign key value).2.Lists ((assign key value).report d).2 := by
  cases key with
  | name n => exact ⟨rfl, h.put n value⟩
  | _ => exact ⟨rfl, h⟩

theorem report_update (h : m.Lists d) (pairs : List (Obj × Obj)) :
    ((update pairs).report d).1 = (m.update pairs).1 ∧
      (m.update pairs).2.Lists ((update pairs).report d).2 := by
  rw [update, report_checkKeys, merge_eq, report_forM_assign, OrderedMap.update]
  split
  · exact ⟨rfl, h⟩
  · exact ⟨rfl, h.putAll _⟩

/-- A call comes to the same for a dictionary as for the ordered map of its entries, and it leaves the
entries of what it leaves there. -/
theorem report_call (h : m.Lists d) (call : Call) :
    (call.change.report d).1 = (m.perform call).1 ∧ (m.perform call).2.Lists (call.change.report d).2 := by
  cases call with
  | assign key value =>
    obtain ⟨houtcome, hlists⟩ := report_assign h key value
    rw [Call.change, report_then, OrderedMap.perform, houtcome]
    exact ⟨rfl, hlists⟩
  | copy =>
    have hcopy := copy_of_lists h
    refine ⟨?_, ?_⟩
    · change Except.ok (Obj.dict (Dict.copy d)) = .ok (.dict m.entries)
      rw [hcopy, ← h.eq_entries]
    · change m.Lists (Dict.copy d)
      rwa [hcopy]
  | setDefault key fallback =>
    have hfind : find? key d = key.text?.bind m.find :=
      congrArg key.text?.bind (funext h.find_eq)
    obtain ⟨houtcome, hlists⟩ := report_assign h key fallback
    rw [Call.change, report_setDefault, OrderedMap.perform, hfind]
    split
    · split
      · exact ⟨rfl, h⟩
      · rw [houtcome]
        exact ⟨rfl, hlists⟩
    · exact ⟨rfl, h⟩
  | update pairs named =>
    obtain ⟨houtcome, hlists⟩ :=
      report_update h (pairs ++ named.map fun entry => (.text entry.1, entry.2))
    rw [Call.change, report_then, updateNamed, report_checkNames, OrderedMap.perform]
    split
    · exact ⟨rfl, h⟩
    · rw [houtcome]
      exact ⟨rfl, hlists⟩
  | construct pairs named =>
    rw [report_construct, OrderedMap.perform]
    split
    · exact ⟨rfl, h⟩
    · obtain ⟨houtcome, hlists⟩ := report_update OrderedMap.lists_empty pairs
      generalize (update pairs).report [] = built at houtcome hlists ⊢
      generalize OrderedMap.empty.update pairs = expected at houtcome hlists ⊢
      obtain ⟨outcome, built⟩ := built
      obtain ⟨expected, mapped⟩ := expected
      obtain rfl : outcome = expected := houtcome
      cases outcome with
      | ok _ =>
        have hbuilt := hlists.putAll named
        exact ⟨congrArg (Except.ok ∘ Obj.dict) hbuilt.eq_entries, hbuilt⟩
      | error e => exact ⟨rfl, h⟩

/-- Call by call, the dictionary and the ordered map go on alike. -/
theorem run_lists (h : m.Lists d) (calls : List Call) :
    List.Forall₂ (fun report expected => report.1 = expected.1 ∧ expected.2.Lists report.2)
      (run calls d) (m.run calls) := by
  induction calls generalizing m d with
  | nil => exact .nil
  | cons call rest ih =>
    have hcall := report_call h call
    exact .cons hcall (ih hcall.2)

/-- Whatever is done to an empty dictionary, each call fails or succeeds as it does for the ordered map,
with the same failure or the same result, and leaves just its entries. So no name ever has two entries,
and a copy is the same as the dictionary. -/
theorem run_eq_entries (calls : List Call) :
    run calls [] =
      ((OrderedMap.empty.run calls).map fun expected => (expected.1, expected.2.entries)) ∧
    ∀ report ∈ run calls [], (report.2.map Prod.fst).Nodup ∧ copy report.2 = report.2 := by
  have hrun := run_lists OrderedMap.lists_empty calls
  generalize run calls [] = reports at hrun
  generalize OrderedMap.empty.run calls = expecteds at hrun
  induction hrun with
  | nil => exact ⟨rfl, nofun⟩
  | @cons report expected reports expecteds hcall _ ih =>
    have hreport : report = (expected.1, expected.2.entries) :=
      Prod.ext hcall.1 hcall.2.eq_entries
    refine ⟨by rw [List.map_cons, ← ih.1, ← hreport], ?_⟩
    exact List.forall_mem_cons.mpr ⟨⟨hcall.2.nodup, copy_of_lists hcall.2⟩, ih.2⟩

/-- A key that cannot be looked for is refused in another way than one that is only no name, and before
the pairs in front of it are stored. -/
theorem unhashable_key_refused :
    (Call.setDefault (.array []) (.int 1)).change.report [] = (.error (.unhashable (.array [])), []) ∧
    (Call.update [(.name "A", .int 1), (.array [], .int 2)] []).change.report [] =
      (.error (.unhashable (.array [])), []) ∧
    stored (mergedByText [(.name "A", .int 1), (.array [], .int 2)]) = [("A", .int 1)] ∧
    (Failure.unhashable (.array [])).kind ≠ .input := by
  refine ⟨rfl, rfl, ?_, by decide⟩
  rw [← merge_eq]
  rfl

/-- A name may be followed by a plain text with its characters; where the text comes first, storing ends
there. -/
example :
    run [.update [(.name "A", .int 1), (.text "A", .int 2)] [],
      .update [(.name "B", .null), (.text "A", .int 3), (.name "A", .int 4)] []] [] =
    [(.ok .null, [("A", .int 2)]),
      (.error (.keyNotName (.text "A")), [("A", .int 2), ("B", .null)])] :=
  rfl

end Dict
end PdfSyntax
