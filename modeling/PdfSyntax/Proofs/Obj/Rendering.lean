import PdfSyntax.Obj.Format
import PdfSyntax.Proofs.Lexer.Written
import PdfSyntax.Proofs.Reader.Grammar

/-!
# Written objects are read back

An object is rendered by bytes that spell tokens and by tokens that the grammar reads as the object,
whatever comes after both. Rendering is closed under every way in which objects are built, and so all
objects that can stand in a file are rendered by what they are written as. The entries of a dictionary
come back in the order in which they are written.
-/

set_option autoImplicit false

namespace PdfSyntax

open Latin1 (ascii)
open Lexer (Spells Terminated Yields)

def Name.IsLatin (name : String) : Prop :=
  ∀ c ∈ name.toList, c.toNat < 256

namespace Obj

/-- The objects that can stand in a file, streams apart. -/
inductive Writable : Obj → Prop where
  | null : Writable .null
  | bool (b : Bool) : Writable (.bool b)
  | int {n : Int} : Word.isInt64 n = true → Writable (.int n)
  | real {x : Binary64} : x.isFinite = true → Writable (.real x)
  | str (s : Bytes) : Writable (.str s)
  | name {name : String} : Name.IsLatin name → Writable (.name name)
  | ref {r : Ref} : r.IsSmall → Writable (.ref r)
  | array {items : List Obj} : (∀ item ∈ items, Writable item) → Writable (.array items)
  | dict {entries : Dict} : (∀ entry ∈ entries, Name.IsLatin entry.1) →
    (∀ entry ∈ entries, Writable entry.2) → (entries.map Prod.fst).Nodup → Writable (.dict entries)
  | defn {r : Ref} {body : Obj} : r.IsSmall → Writable body → Writable (.defn r body)

/-- Equality up to the order of the entries of dictionaries. -/
inductive Same : Obj → Obj → Prop where
  | refl (obj : Obj) : Same obj obj
  | array {items items' : List Obj} : List.Forall₂ Same items items' → Same (.array items) (.array items')
  | dict {entries reordered entries' : Dict} : entries.Perm reordered →
    reordered.map Prod.fst = entries'.map Prod.fst →
    List.Forall₂ Same (reordered.map Prod.snd) (entries'.map Prod.snd) →
    Same (.dict entries) (.dict entries')
  | defn {r : Ref} {body body' : Obj} : Same body body' → Same (.defn r body) (.defn r body')

end Obj

/-- Whether an integer in front of tokens would stay a bare integer, and so would one in front of that. -/
structure Clear (tokens : List Obj) : Prop where
  head_plain : ∀ token ∈ tokens.head?, token.isKeyword "R" = false ∧ token.isKeyword "obj" = false
  suffix_eq : ∀ id, Grammar.suffix true id tokens = .nothing

section Clear
variable {first : Obj} {tokens : List Obj}

theorem clear_nil : Clear [] :=
  ⟨fun _ h => (nomatch h), fun _ => rfl⟩

theorem clear_of_ne_int (hint : ∀ n, first ≠ .int n)
    (hplain : first.isKeyword "R" = false ∧ first.isKeyword "obj" = false) : Clear (first :: tokens) where
  head_plain token ht := by
    obtain rfl := Option.some.inj ht
    exact hplain
  suffix_eq id := by
    unfold Grammar.suffix
    split
    · next heq => exact absurd (List.cons.inj heq).1 (hint _)
    · rfl

theorem clear_int {n : Int}
    (h : ∀ token ∈ tokens.head?, token.isKeyword "R" = false ∧ token.isKeyword "obj" = false) :
    Clear (.int n :: tokens) where
  head_plain token ht := by
    obtain rfl := Option.some.inj ht
    exact ⟨rfl, rfl⟩
  suffix_eq id := by
    cases tokens with
    | nil => rfl
    | cons third tokens =>
      obtain ⟨hreference, hdefinition⟩ := h third rfl
      simp only [Grammar.suffix, hreference, hdefinition, Bool.false_eq_true, if_false, ite_self]

end Clear

structure Grammar.Parsed.Gives {limit : Nat} (p : Grammar.Parsed limit) (obj : Obj)
    (rest : List Obj) : Prop where
  outcome_eq : p.outcome = .ok obj
  dropped_eq : p.dropped = []
  rest_eq : p.rest = rest

section Gives
open Grammar
variable {limit limit' : Nat} {obj first : Obj} {tokens rest : List Obj}

theorem gives_iff {p : Parsed limit} :
    p.Gives obj rest ↔ ∃ h, p = ⟨.ok obj, [], rest, h⟩ := by
  constructor
  · obtain ⟨outcome, dropped, rest', h⟩ := p
    intro hcases
    rcases hcases with ⟨rfl, rfl, rfl⟩
    exact ⟨h, rfl⟩
  · intro hcases
    rcases hcases with ⟨h, rfl⟩
    exact ⟨rfl, rfl, rfl⟩

theorem Grammar.Parsed.Gives.after {p : Parsed limit} (h : p.Gives obj rest) (hle : limit ≤ limit') :
    (p.after [] hle).Gives obj rest :=
  ⟨h.outcome_eq, h.dropped_eq, h.rest_eq⟩

theorem definitionFrom_gives (r : Ref)
    (h : (objectFrom true first tokens).Gives obj (.keyword "endobj" :: rest)) :
    (definitionFrom true r (first :: tokens)).Gives (.defn r obj) rest := by
  obtain ⟨hle, hparsed⟩ := gives_iff.mp h
  rw [definitionFrom, hparsed]
  exact ⟨rfl, rfl, rfl⟩

theorem arrayFrom_gives {items : List Obj} {array : Obj} {after : List Obj}
    (hclose : first.isKeyword "]" = false) (h : (objectFrom true first tokens).Gives obj rest)
    (hrest : (arrayFrom true (obj :: items) rest).Gives array after) :
    (arrayFrom true items (first :: tokens)).Gives array after := by
  obtain ⟨hle, hparsed⟩ := gives_iff.mp h
  rw [arrayFrom, hparsed]
  simp only [hclose, Bool.false_eq_true, if_false]
  exact hrest.after _

theorem dictFrom_gives {entries : Dict} {key : String} {dict : Obj} {after : List Obj}
    (h : (objectFrom true first tokens).Gives obj rest)
    (hrest : (dictFrom true (insertEntry key obj entries) rest).Gives dict after) :
    (dictFrom true entries (.name key :: first :: tokens)).Gives dict after := by
  obtain ⟨hle, hparsed⟩ := gives_iff.mp h
  have hclose : (Obj.name key).isKeyword ">>" = false := rfl
  rw [dictFrom.eq_def]
  simp only [hclose, Bool.false_eq_true, if_false, hparsed]
  exact hrest.after _

end Gives

/-- Bytes and the tokens they spell, which the grammar reads as an object, whatever follows. -/
structure Renders (bytes : Bytes) (first : Obj) (more : List Obj) (obj : Obj) : Prop where
  spells : ∀ {rest tokens}, Terminated rest → Spells False rest tokens →
    Spells False (bytes ++ rest) (first :: more ++ tokens)
  gives : ∀ {tokens}, Clear tokens →
    (Grammar.objectFrom true first (more ++ tokens)).Gives obj tokens
  clear : ∀ {tokens}, Clear tokens → Clear (first :: more ++ tokens)
  ne_close : first.isKeyword "]" = false
  ne_stream : ∀ token ∈ first :: more, token.isKeyword "stream" = false

/-- Several objects that are rendered, of each of which something is known besides. -/
inductive RendersAll (Known : Obj → List Obj → Obj → Prop) :
    List Bytes → List Obj → List Obj → Prop where
  | nil : RendersAll Known [] [] []
  | cons {bytes : Bytes} {first : Obj} {more : List Obj} {obj : Obj} {parts : List Bytes}
    {tokens objs : List Obj} : Renders bytes first more obj → Known first more obj →
    RendersAll Known parts tokens objs →
    RendersAll Known (bytes :: parts) (first :: more ++ tokens) (obj :: objs)

/-- Parts one after another, with white bytes in between. -/
inductive Joined : List Bytes → Bytes → Prop where
  | nil : Joined [] []
  | single (part : Bytes) : Joined [part] part
  | cons {part next text space : Bytes} {parts : List Bytes} : space ≠ [] →
    (∀ b ∈ space, Byte.isWhite b = true) → Joined (next :: parts) text →
    Joined (part :: next :: parts) (part ++ space ++ text)

namespace RendersAll
variable {Known : Obj → List Obj → Obj → Prop} {parts : List Bytes} {tokens objs : List Obj}

theorem clear (h : RendersAll Known parts tokens objs) {after : List Obj} (hafter : Clear after) :
    Clear (tokens ++ after) := by
  induction h with
  | nil => exact hafter
  | cons hrenders _ _ ih =>
    rw [List.append_assoc]
    exact hrenders.clear ih

theorem ne_stream (h : RendersAll Known parts tokens objs) :
    ∀ token ∈ tokens, token.isKeyword "stream" = false := by
  induction h with
  | nil => exact fun _ ht => (nomatch ht)
  | cons hrenders _ _ ih =>
    intro token ht
    rcases List.mem_append.mp ht with ht | ht
    · exact hrenders.ne_stream token ht
    · exact ih token ht

theorem spells (h : RendersAll Known parts tokens objs) {text rest : Bytes} {after : List Obj}
    (hjoined : Joined parts text) (hrest : Terminated rest) (hspells : Spells False rest after) :
    Spells False (text ++ rest) (tokens ++ after) := by
  induction h generalizing text with
  | nil =>
    cases hjoined
    exact hspells
  | @cons bytes first more obj parts tokens objs hrenders _ hall ih =>
    rw [List.append_assoc]
    cases hjoined with
    | single =>
      cases hall
      exact hrenders.spells hrest hspells
    | @cons _ next text space parts hne hwhite hjoined =>
      rw [List.append_assoc, List.append_assoc]
      have hspace : Terminated (space ++ (text ++ rest)) := by
        cases space with
        | nil => exact absurd rfl hne
        | cons b space => exact .of_white (hwhite b (List.mem_cons_self ..))
      exact hrenders.spells hspace ((ih hjoined).gap hwhite)

end RendersAll

section Simple
variable {bytes : Bytes} {token : Obj}

theorem isKeyword_eq_false (h : ∀ text, token ≠ .keyword text) (text : String) :
    token.isKeyword text = false := by
  cases token with
  | keyword w => exact absurd rfl (h w)
  | _ => rfl

theorem renders_simple (h : Yields bytes token) (hend : token.isEnd = false)
    (hkeyword : ∀ text, token ≠ .keyword text) (hint : ∀ n, token ≠ .int n) :
    Renders bytes token [] token where
  spells hrest hspells := h.spells hend hrest hspells
  gives {tokens} _ := by
    rw [List.nil_append, Grammar.objectFrom_simple hkeyword hint]
    exact ⟨rfl, rfl, rfl⟩
  clear _ := clear_of_ne_int hint ⟨isKeyword_eq_false hkeyword _, isKeyword_eq_false hkeyword _⟩
  ne_close := isKeyword_eq_false hkeyword _
  ne_stream := by
    intro other hother
    obtain rfl := List.mem_singleton.mp hother
    exact isKeyword_eq_false hkeyword _

theorem yields_bool (b : Bool) : Yields (ascii (if b then "true" else "false")) (.bool b) := by
  cases b <;> exact Lexer.yields_word (List.cons_ne_nil _ _) (List.all_eq_true.mp rfl) rfl

theorem renders_null : Renders (ascii "null") (.keyword "null") [] .null where
  spells hrest hspells := by
    have hword : Yields (ascii "null") (.keyword "null") :=
      Lexer.yields_word (List.cons_ne_nil _ _) (List.all_eq_true.mp rfl) rfl
    exact hword.spells rfl hrest hspells
  gives {tokens} _ := by
    rw [List.nil_append, Grammar.objectFrom]
    exact ⟨rfl, rfl, rfl⟩
  clear _ := clear_of_ne_int (by simp) ⟨rfl, rfl⟩
  ne_close := rfl
  ne_stream := by
    intro token ht
    obtain rfl := List.mem_singleton.mp ht
    rfl

theorem renders_int {n : Int} (h : Word.isInt64 n = true) :
    Renders (ascii (decimal n)) (.int n) [] (.int n) where
  spells hrest hspells := (Lexer.yields_decimal h).spells rfl hrest hspells
  gives {tokens} hclear := by
    rw [List.nil_append, Grammar.objectFrom, hclear.suffix_eq n]
    exact ⟨rfl, rfl, rfl⟩
  clear hclear := clear_int hclear.head_plain
  ne_close := rfl
  ne_stream := by
    intro token ht
    obtain rfl := List.mem_singleton.mp ht
    rfl

end Simple

section Numbers
variable {r : Ref} {rest : Bytes} {tokens : List Obj}

theorem Ref.IsSmall.isInt64 (h : r.IsSmall) :
    Word.isInt64 r.id = true ∧ Word.isInt64 r.gen = true := by
  obtain ⟨hid, hid', hgen, hgen'⟩ := h
  simp only [Ref.idLimit] at hid'
  simp only [Ref.genLimit] at hgen'
  simp only [Word.isInt64, decide_eq_true_eq]
  omega

theorem spells_formatRef (h : r.IsSmall) (hrest : Terminated rest) (hspells : Spells False rest tokens) :
    Spells False (formatRef r ++ rest) (.int r.id :: .int r.gen :: tokens) := by
  have hgen := (Lexer.yields_decimal h.isInt64.2).spells rfl hrest hspells
  have hspace : Terminated (0x20 :: (ascii (decimal r.gen) ++ rest)) := .of_white rfl
  have hid := (Lexer.yields_decimal h.isInt64.1).spells rfl hspace (hgen.white rfl)
  have hbytes : formatRef r ++ rest = ascii (decimal r.id) ++ 0x20 :: (ascii (decimal r.gen) ++ rest) := by
    rw [formatRef, Latin1.ascii_append, Latin1.ascii_append, List.append_assoc, List.append_assoc]
    rfl
  rw [hbytes]
  exact hid

theorem suffix_of_isSmall (h : r.IsSmall) (third : Obj) :
    Grammar.suffix true r.id (.int r.gen :: third :: tokens) =
      if third.isKeyword "R" then .reference r
      else if third.isKeyword "obj" then .definition r
      else .nothing := by
  obtain ⟨hid, hid', hgen, hgen'⟩ := h
  simp only [Grammar.suffix, hid, hid', hgen, hgen', and_self, if_true]

theorem renders_ref (h : r.IsSmall) :
    Renders (formatRef r ++ ascii " R") (.int r.id) [.int r.gen, .keyword "R"] (.ref r) where
  spells {rest tokens} hrest hspells := by
    have hword : Yields (ascii "R") (.keyword "R") :=
      Lexer.yields_word (List.cons_ne_nil _ _) (List.all_eq_true.mp rfl) rfl
    have hspells := (hword.spells rfl hrest hspells).white (b := 0x20) rfl
    rw [List.append_assoc]
    exact spells_formatRef h (.of_white rfl) hspells
  gives {tokens} _ := by
    have hsuffix : Grammar.suffix true r.id ([.int r.gen, .keyword "R"] ++ tokens) = .reference r :=
      suffix_of_isSmall h (.keyword "R")
    rw [Grammar.objectFrom, hsuffix]
    exact ⟨rfl, rfl, rfl⟩
  clear _ := clear_int fun token ht => by
    obtain rfl := Option.some.inj ht
    exact ⟨rfl, rfl⟩
  ne_close := rfl
  ne_stream := by
    intro token ht
    simp only [List.mem_cons, List.not_mem_nil, or_false] at ht
    rcases ht with rfl | rfl | rfl <;> rfl

theorem renders_defn (h : r.IsSmall) {bytes : Bytes} {first : Obj} {more : List Obj} {body : Obj}
    (hbody : Renders bytes first more body) :
    Renders (formatRef r ++ ascii " obj\n" ++ bytes ++ ascii "\nendobj") (.int r.id)
      (.int r.gen :: .keyword "obj" :: first :: more ++ [.keyword "endobj"]) (.defn r body) where
  spells {rest tokens} hrest hspells := by
    have hend : Yields (ascii "endobj") (.keyword "endobj") :=
      Lexer.yields_word (List.cons_ne_nil _ _) (List.all_eq_true.mp rfl) rfl
    have hobj : Yields (ascii "obj") (.keyword "obj") :=
      Lexer.yields_word (List.cons_ne_nil _ _) (List.all_eq_true.mp rfl) rfl
    have hspells := (hend.spells rfl hrest hspells).white (b := 0x0a) rfl
    have hspells := (hbody.spells (.of_white rfl) hspells).white (b := 0x0a) rfl
    have hspells := (hobj.spells rfl (.of_white rfl) hspells).white (b := 0x20) rfl
    have hspells := spells_formatRef h (.of_white rfl) hspells
    simp only [List.append_assoc, List.cons_append, List.nil_append] at hspells ⊢
    exact hspells
  gives {tokens} _ := by
    have hclear : Clear (.keyword "endobj" :: tokens) := clear_of_ne_int (by simp) ⟨rfl, rfl⟩
    have hgives := hbody.gives hclear
    have hsuffix : Grammar.suffix true r.id (.int r.gen :: .keyword "obj" :: first :: more ++
        [.keyword "endobj"] ++ tokens) = .definition r := suffix_of_isSmall h (.keyword "obj")
    rw [Grammar.objectFrom, hsuffix]
    refine Grammar.Parsed.Gives.after ?_ _
    have htokens : (Obj.int r.gen :: Obj.keyword "obj" :: first :: more ++ [Obj.keyword "endobj"] ++
        tokens).drop 2 = first :: (more ++ .keyword "endobj" :: tokens) := by simp
    rw [htokens]
    exact definitionFrom_gives r hgives
  clear _ := clear_int fun token ht => by
    obtain rfl := Option.some.inj ht
    exact ⟨rfl, rfl⟩
  ne_close := rfl
  ne_stream := by
    intro token ht
    simp only [List.cons_append, List.mem_cons, List.mem_append, List.not_mem_nil, or_false] at ht
    rcases ht with rfl | rfl | rfl | ht | ht | rfl
    · rfl
    · rfl
    · rfl
    · exact hbody.ne_stream token (by simp [ht])
    · exact hbody.ne_stream token (by simp [ht])
    · rfl

end Numbers

section Arrays
variable {Known : Obj → List Obj → Obj → Prop} {parts : List Bytes} {tokens objs : List Obj}

theorem joined_of_isWhite {b : UInt8} (hb : Byte.isWhite b = true) (parts : List Bytes) :
    Joined parts ([b].intercalate parts) := by
  induction parts with
  | nil => exact .nil
  | cons part parts ih =>
    cases parts with
    | nil =>
      rw [List.intercalate_singleton]
      exact .single part
    | cons next parts =>
      rw [List.intercalate_cons_cons]
      refine .cons (by simp) (fun c hc => ?_) ih
      rwa [List.mem_singleton.mp hc]

theorem joined_intercalate (parts : List Bytes) : Joined parts ([0x20].intercalate parts) :=
  joined_of_isWhite rfl parts

theorem RendersAll.arrayFrom_gives (h : RendersAll Known parts tokens objs) (items after : List Obj) :
    (Grammar.arrayFrom true items (tokens ++ .keyword "]" :: after)).Gives
      (.array (items.reverse ++ objs)) after := by
  have hclear : Clear (.keyword "]" :: after) := clear_of_ne_int (by simp) ⟨rfl, rfl⟩
  induction h generalizing items with
  | nil =>
    rw [List.nil_append, Grammar.arrayFrom, List.append_nil]
    exact ⟨rfl, rfl, rfl⟩
  | @cons bytes first more obj parts tokens objs hrenders _ hall ih =>
    have hgives := hrenders.gives (hall.clear hclear)
    have hrest := ih (obj :: items)
    rw [List.reverse_cons, List.append_assoc, List.singleton_append] at hrest
    rw [List.append_assoc, List.cons_append]
    exact PdfSyntax.arrayFrom_gives hrenders.ne_close hgives hrest

theorem renders_array (h : RendersAll Known parts tokens objs) :
    Renders (ascii "[" ++ [0x20].intercalate parts ++ ascii "]") (.keyword "[")
      (tokens ++ [.keyword "]"]) (.array objs) where
  spells {rest after} hrest hspells := by
    have hclose : Spells False (ascii "]" ++ rest) (.keyword "]" :: after) := .token rfl rfl hspells
    have hterminated : Terminated (ascii "]" ++ rest) := by
      intro b hb
      obtain rfl := Option.some.inj hb
      rfl
    have hitems := h.spells (joined_intercalate parts) hterminated hclose
    rw [List.append_assoc, List.append_assoc, List.cons_append, List.append_assoc]
    exact .token rfl rfl hitems
  gives {after} _ := by
    rw [Grammar.objectFrom, List.append_assoc]
    exact h.arrayFrom_gives [] after
  clear _ := clear_of_ne_int (by simp) ⟨rfl, rfl⟩
  ne_close := rfl
  ne_stream := by
    intro token ht
    simp only [List.mem_cons, List.mem_append, List.not_mem_nil, or_false] at ht
    rcases ht with rfl | ht | rfl
    · rfl
    · exact h.ne_stream token ht
    · rfl

end Arrays

/-- What an entry of a dictionary is written as, if its value is rendered by bytes. -/
def entryBytes (key : String) (bytes : Bytes) : Bytes :=
  0x20 :: ascii (Name.encode key) ++ 0x20 :: bytes

inductive RendersEntries (Known : Obj → List Obj → Obj → Prop) :
    List Bytes → List Obj → Dict → Prop where
  | nil : RendersEntries Known [] [] []
  | cons {key : String} {bytes : Bytes} {first : Obj} {more : List Obj} {value : Obj}
    {parts : List Bytes} {tokens : List Obj} {entries : Dict} : Name.IsLatin key →
    Renders bytes first more value → Known first more value →
    RendersEntries Known parts tokens entries →
    RendersEntries Known (entryBytes key bytes :: parts) (.name key :: first :: more ++ tokens)
      ((key, value) :: entries)

section Dicts
variable {Known : Obj → List Obj → Obj → Prop} {parts : List Bytes} {tokens : List Obj}
variable {entries : Dict}

namespace RendersEntries

theorem clear (h : RendersEntries Known parts tokens entries) {after : List Obj} (hafter : Clear after) :
    Clear (tokens ++ after) := by
  cases h with
  | nil => exact hafter
  | cons => exact clear_of_ne_int (by simp) ⟨rfl, rfl⟩

theorem ne_stream (h : RendersEntries Known parts tokens entries) :
    ∀ token ∈ tokens, token.isKeyword "stream" = false := by
  induction h with
  | nil => exact fun _ ht => (nomatch ht)
  | cons _ hrenders _ _ ih =>
    intro token ht
    simp only [List.cons_append, List.mem_cons, List.mem_append] at ht
    rcases ht with rfl | rfl | ht | ht
    · rfl
    · exact hrenders.ne_stream token (by simp)
    · exact hrenders.ne_stream token (by simp [ht])
    · exact ih token ht

theorem spells (h : RendersEntries Known parts tokens entries) {rest : Bytes} {after : List Obj}
    (hrest : Terminated rest) (hspells : Spells False rest after) :
    Terminated (parts.flatten ++ rest) ∧ Spells False (parts.flatten ++ rest) (tokens ++ after) := by
  induction h with
  | nil => exact ⟨hrest, hspells⟩
  | @cons key bytes first more value parts tokens entries hkey hrenders _ _ ih =>
    have hvalue := (hrenders.spells ih.1 ih.2).white (b := 0x20) rfl
    have hentry := ((Lexer.yields_name hkey).spells rfl (.of_white rfl) hvalue).white (b := 0x20) rfl
    constructor
    · exact .of_white rfl
    · simp only [List.flatten_cons, entryBytes, List.append_assoc, List.cons_append] at hentry ⊢
      exact hentry

theorem dictFrom_gives (h : RendersEntries Known parts tokens entries) (before : Dict) (after : List Obj)
    (hkeys : ((before ++ entries).map Prod.fst).Nodup) :
    (Grammar.dictFrom true before (tokens ++ .keyword ">>" :: after)).Gives
      (.dict (before ++ entries)) after := by
  have hclear : Clear (.keyword ">>" :: after) := clear_of_ne_int (by simp) ⟨rfl, rfl⟩
  induction h generalizing before with
  | nil =>
    rw [List.nil_append, Grammar.dictFrom.eq_def, List.append_nil]
    exact ⟨rfl, rfl, rfl⟩
  | @cons key bytes first more value parts tokens entries hkey hrenders _ hall ih =>
    have hgives := hrenders.gives (hall.clear hclear)
    have hkey : key ∉ before.map Prod.fst := by
      rw [List.map_append, List.nodup_append] at hkeys
      exact fun hmem => hkeys.2.2 key hmem key (by simp) rfl
    have hfresh := insertEntry_of_not_mem hkey value
    have hrest := ih (insertEntry key value before)
    rw [hfresh, List.append_assoc, List.singleton_append] at hrest
    rw [List.append_assoc, List.cons_append, List.cons_append]
    refine PdfSyntax.dictFrom_gives hgives ?_
    rw [hfresh]
    exact hrest hkeys

end RendersEntries

theorem renders_dict (h : RendersEntries Known parts tokens entries) (hkeys : (entries.map Prod.fst).Nodup) :
    Renders (ascii "<<" ++ parts.flatten ++ ascii " >>") (.keyword "<<") (tokens ++ [.keyword ">>"])
      (.dict entries) where
  spells {rest after} hrest hspells := by
    have hclose : Spells False (ascii " >>" ++ rest) (.keyword ">>" :: after) := .token rfl rfl hspells
    have hentries := (h.spells (.of_white rfl) hclose).2
    rw [List.append_assoc, List.append_assoc, List.cons_append, List.append_assoc]
    exact .token rfl rfl hentries
  gives {after} _ := by
    rw [Grammar.objectFrom, List.append_assoc]
    exact h.dictFrom_gives [] after hkeys
  clear _ := clear_of_ne_int (by simp) ⟨rfl, rfl⟩
  ne_close := rfl
  ne_stream := by
    intro token ht
    simp only [List.mem_cons, List.mem_append, List.not_mem_nil, or_false] at ht
    rcases ht with rfl | ht | rfl
    · rfl
    · exact h.ne_stream token ht
    · rfl

end Dicts

/-- What is known of objects by the way in which they are built: of the simple ones, and of all others
once it is known of their parts. -/
structure Grows (Known : Obj → List Obj → Obj → Prop) : Prop where
  simple {token : Obj} : Lexer.IsLexeme token → (∀ text, token ≠ .keyword text) →
    (∀ n, token ≠ .int n) → Known token [] token
  null : Known (.keyword "null") [] .null
  int (n : Int) : Known (.int n) [] (.int n)
  ref {r : Ref} : r.IsSmall → Known (.int r.id) [.int r.gen, .keyword "R"] (.ref r)
  array {parts : List Bytes} {tokens objs : List Obj} : RendersAll Known parts tokens objs →
    Known (.keyword "[") (tokens ++ [.keyword "]"]) (.array objs)
  dict {parts : List Bytes} {tokens : List Obj} {entries : Dict} :
    RendersEntries Known parts tokens entries →
    Known (.keyword "<<") (tokens ++ [.keyword ">>"]) (.dict entries)
  defn {r : Ref} {bytes : Bytes} {first : Obj} {more : List Obj} {body : Obj} : r.IsSmall →
    Renders bytes first more body → Known first more body →
    Known (.int r.id) (.int r.gen :: .keyword "obj" :: first :: more ++ [.keyword "endobj"])
      (.defn r body)

theorem grows_true : Grows fun _ _ _ => True :=
  ⟨fun _ _ _ => trivial, trivial, fun _ => trivial, fun _ => trivial, fun _ => trivial,
    fun _ => trivial, fun _ _ _ => trivial⟩

namespace Obj

/-- Whether an object is written as bytes that render the same object, of which something is known. -/
def IsRenderedAs (Known : Obj → List Obj → Obj → Prop) (obj : Obj) : Prop :=
  ∃ bytes first more obj', obj.format = .ok bytes ∧ obj.Same obj' ∧ Renders bytes first more obj' ∧
    Known first more obj'

def IsRendered (obj : Obj) : Prop :=
  obj.IsRenderedAs fun _ _ _ => True

variable {Known : Obj → List Obj → Obj → Prop}

theorem formatItems_eq_map (items : List Obj) : formatItems items = items.map format := by
  induction items with
  | nil => rfl
  | cons item items ih =>
    rw [formatItems, ih]
    rfl

theorem renders_items {items : List Obj} (h : ∀ item ∈ items, item.IsRenderedAs Known) :
    ∃ parts tokens items', items.mapM format = .ok parts ∧ List.Forall₂ Same items items' ∧
      RendersAll Known parts tokens items' := by
  induction items with
  | nil => exact ⟨[], [], [], rfl, .nil, .nil⟩
  | cons item items ih =>
    obtain ⟨bytes, first, more, item', hformat, hsame, hrenders, hknown⟩ :=
      h item (List.mem_cons_self ..)
    obtain ⟨parts, tokens, items', hparts, hsames, hall⟩ :=
      ih fun other hother => h other (List.mem_cons_of_mem item hother)
    refine ⟨bytes :: parts, _, item' :: items', ?_, .cons hsame hsames, .cons hrenders hknown hall⟩
    rw [List.mapM_cons, hformat, hparts]
    rfl

theorem formatEntries_eq_map (entries : Dict) :
    formatEntries entries = entries.map fun entry => (entry.1, entry.2.format) := by
  induction entries with
  | nil => rfl
  | cons entry entries ih =>
    rw [formatEntries, ih]
    rfl

theorem renders_entries {entries : Dict} (hlatin : ∀ entry ∈ entries, Name.IsLatin entry.1)
    (h : ∀ entry ∈ entries, entry.2.IsRenderedAs Known) :
    ∃ parts tokens entries',
      (entries.map fun entry => (entry.1, entry.2.format)).mapM
        (fun entry => do return 0x20 :: ascii (Name.encode entry.1) ++ 0x20 :: (← entry.2)) = .ok parts ∧
      entries.map Prod.fst = entries'.map Prod.fst ∧
      List.Forall₂ Same (entries.map Prod.snd) (entries'.map Prod.snd) ∧
      RendersEntries Known parts tokens entries' := by
  induction entries with
  | nil => exact ⟨[], [], [], rfl, rfl, .nil, .nil⟩
  | cons entry entries ih =>
    obtain ⟨key, value⟩ := entry
    obtain ⟨bytes, first, more, value', hformat, hsame, hrenders, hknown⟩ :=
      h _ (List.mem_cons_self ..)
    obtain ⟨parts, tokens, entries', hparts, hkeys, hsames, hall⟩ :=
      ih (fun other hother => hlatin other (List.mem_cons_of_mem _ hother))
        fun other hother => h other (List.mem_cons_of_mem _ hother)
    have hkey : Name.IsLatin key := hlatin _ (List.mem_cons_self ..)
    refine ⟨entryBytes key bytes :: parts, _, (key, value') :: entries', ?_, ?_, .cons hsame hsames,
      .cons hkey hrenders hknown hall⟩
    · rw [List.map_cons, List.mapM_cons, hparts]
      simp only [hformat]
      rfl
    · rw [List.map_cons, List.map_cons, hkeys]

/-- Every object that can stand in a file is written, and rendered by what it is written as. -/
theorem Writable.isRenderedAs {obj : Obj} (h : obj.Writable) (grows : Grows Known) :
    obj.IsRenderedAs Known := by
  induction h with
  | null => exact ⟨_, _, _, _, rfl, .refl _, renders_null, grows.null⟩
  | bool b =>
    refine ⟨ascii (if b then "true" else "false"), _, _, .bool b, ?_, .refl _,
      renders_simple (yields_bool b) rfl (by simp) (by simp),
      grows.simple trivial (by simp) (by simp)⟩
    cases b <;> rfl
  | int hint => exact ⟨_, _, _, _, rfl, .refl _, renders_int hint, grows.int _⟩
  | @real x hfinite =>
    obtain ⟨text, htext, hyields⟩ := Lexer.yields_positional hfinite
    refine ⟨ascii text, _, _, .real x, ?_, .refl _, renders_simple hyields rfl (by simp) (by simp),
      grows.simple trivial (by simp) (by simp)⟩
    rw [format, htext]
  | str s =>
    exact ⟨_, _, _, _, rfl, .refl _, renders_simple (Lexer.yields_str s) rfl (by simp) (by simp),
      grows.simple trivial (by simp) (by simp)⟩
  | name hlatin =>
    exact ⟨_, _, _, _, rfl, .refl _, renders_simple (Lexer.yields_name hlatin) rfl (by simp) (by simp),
      grows.simple trivial (by simp) (by simp)⟩
  | ref hsmall => exact ⟨_, _, _, _, rfl, .refl _, renders_ref hsmall, grows.ref hsmall⟩
  | array _ ih =>
    obtain ⟨parts, tokens, items', hparts, hsames, hall⟩ := renders_items ih
    refine ⟨_, _, _, _, ?_, .array hsames, renders_array hall, grows.array hall⟩
    rw [format, formatItems_eq_map, List.mapM_map, Function.id_comp, hparts]
    rfl
  | @dict entries hlatin _ hkeys ih =>
    have hperm := sortEntries_perm entries
    obtain ⟨parts, tokens, entries', hparts, hnames, hsames, hall⟩ :=
      renders_entries (fun entry hentry => hlatin entry (hperm.mem_iff.mp hentry))
        fun entry hentry => ih entry (hperm.mem_iff.mp hentry)
    have hkeys' : (entries'.map Prod.fst).Nodup := by
      rw [← hnames]
      exact (hperm.map Prod.fst).nodup_iff.mpr hkeys
    refine ⟨_, _, _, _, ?_, .dict hperm.symm hnames hsames, renders_dict hall hkeys', grows.dict hall⟩
    rw [format, formatEntries_eq_map, formatDict, sortEntries_map, hparts]
    rfl
  | defn hsmall _ ih =>
    obtain ⟨bytes, first, more, body', hformat, hsame, hrenders, hknown⟩ := ih
    refine ⟨_, _, _, _, ?_, .defn hsame, renders_defn hsmall hrenders,
      grows.defn hsmall hrenders hknown⟩
    rw [format, hformat]
    rfl

theorem Writable.isRendered {obj : Obj} (h : obj.Writable) : obj.IsRendered :=
  h.isRenderedAs grows_true

end Obj
end PdfSyntax
