import PdfSyntax.Proofs.Obj.Rendering

/-!
# Well-formed objects

A well-formed object is made of simple objects within their ranges, of arrays, of dictionaries in which
no name has two entries, of references, of definitions and of streams whose header is a dictionary.
Neither a keyword nor the end of the input is anywhere inside. Whatever the lexer makes of bytes is a
keyword or well-formed.
-/

set_option autoImplicit false

namespace PdfSyntax

theorem Name.isLatin_decode (bytes : Bytes) : Name.IsLatin (Latin1.decode bytes) := by
  intro c hc
  rw [Latin1.decode, String.toList_ofList] at hc
  obtain ⟨b, -, rfl⟩ := List.mem_map.mp hc
  rw [Latin1.toNat_char]
  exact b.toNat_lt

theorem mem_insertEntry {α : Type} {name : String} {value : α} {entries : List (String × α)}
    {entry : String × α} (h : entry ∈ insertEntry name value entries) :
    entry = (name, value) ∨ entry ∈ entries := by
  induction entries with
  | nil => exact .inl (List.mem_singleton.mp h)
  | cons first rest ih =>
    obtain ⟨n, v⟩ := first
    rw [insertEntry] at h
    split at h
    · next heq =>
      rcases List.mem_cons.mp h with rfl | h
      · exact .inl (by rw [heq])
      · exact .inr (List.mem_cons_of_mem _ h)
    · rcases List.mem_cons.mp h with rfl | h
      · exact .inr List.mem_cons_self
      · exact (ih h).imp_right (List.mem_cons_of_mem _)

namespace Obj

inductive IsWellFormed : Obj → Prop where
  | null : IsWellFormed .null
  | bool (value : Bool) : IsWellFormed (.bool value)
  | int {n : Int} : Word.isInt64 n = true → IsWellFormed (.int n)
  | real (value : Binary64) : IsWellFormed (.real value)
  | str (bytes : Bytes) : IsWellFormed (.str bytes)
  | name {text : String} : Name.IsLatin text → IsWellFormed (.name text)
  | array {items : List Obj} : (∀ item ∈ items, IsWellFormed item) → IsWellFormed (.array items)
  | dict {entries : Dict} : (∀ entry ∈ entries, Name.IsLatin entry.1) → (entries.map Prod.fst).Nodup →
    (∀ entry ∈ entries, IsWellFormed entry.2) → IsWellFormed (.dict entries)
  | ref {ref : Ref} : ref.IsSmall → IsWellFormed (.ref ref)
  | defn {ref : Ref} {body : Obj} : ref.IsSmall → IsWellFormed body → IsWellFormed (.defn ref body)
  | stream {entries : Dict} (owner : Ref) (offset : Int) : IsWellFormed (.dict entries) →
    IsWellFormed (.stream (.dict entries) owner offset)

/-- Whether an object can be the beginning of one: a keyword or a well-formed object. -/
def IsSound (token : Obj) : Prop :=
  (∃ text, token = .keyword text) ∨ token.IsWellFormed

theorem IsWellFormed.ne_end {obj : Obj} (h : obj.IsWellFormed) : obj ≠ .endOfInput := by
  rintro rfl
  cases h

theorem IsSound.ne_end {token : Obj} (h : token.IsSound) : token ≠ .endOfInput := by
  rcases h with ⟨text, rfl⟩ | h
  · exact Obj.noConfusion
  · exact h.ne_end

theorem isWellFormed_dict_nil : IsWellFormed (.dict []) :=
  .dict (fun _ h => (List.not_mem_nil h).elim) .nil (fun _ h => (List.not_mem_nil h).elim)

/-- A value under a name comes in the place of the one that is there, so no name gets two entries. -/
theorem IsWellFormed.insertEntry {entries : Dict} {name : String} {value : Obj}
    (h : IsWellFormed (.dict entries)) (hname : Name.IsLatin name) (hvalue : value.IsWellFormed) :
    IsWellFormed (.dict (insertEntry name value entries)) := by
  cases h with
  | dict hlatin hnodup hvalues =>
    refine .dict (fun entry hentry => ?_) ?_ (fun entry hentry => ?_)
    · rcases mem_insertEntry hentry with rfl | hentry
      · exact hname
      · exact hlatin entry hentry
    · rw [keys_insertEntry]
      split
      · exact hnodup
      · next hnew =>
        refine List.nodup_append.mpr ⟨hnodup, List.pairwise_singleton _ name, ?_⟩
        rintro key hkey _ hmem rfl
        rw [List.mem_singleton.mp hmem] at hkey
        exact hnew hkey
    · rcases mem_insertEntry hentry with rfl | hentry
      · exact hvalue
      · exact hvalues entry hentry

end Obj

theorem Word.isInt64_of_read {word : Bytes} {n : Int} (h : Word.read word = .int n) :
    Word.isInt64 n = true := by
  simp only [Word.read, Word.readUnsigned] at h
  repeat' split at h
  all_goals cases h
  all_goals assumption

theorem Lexer.IsMade.isSound {token : Obj} (h : IsMade token) : token.IsSound := by
  cases h with
  | @word word _ h =>
    unfold Verdict.ofWord at h
    cases hread : Word.read word with
    | int n =>
      rw [hread] at h
      cases h
      exact .inr (.int (Word.isInt64_of_read hread))
    | bool b =>
      rw [hread] at h
      cases h
      exact .inr (.bool b)
    | real x =>
      rw [hread] at h
      cases h
      exact .inr (.real x)
    | keyword =>
      rw [hread] at h
      cases h
      exact .inl ⟨_, rfl⟩
    | _ =>
      rw [hread] at h
      cases h
  | keyword text => exact .inl ⟨text, rfl⟩
  | str bytes => exact .inr (.str bytes)
  | name bytes => exact .inr (.name (Name.isLatin_decode bytes))

end PdfSyntax
