import PdfSyntax.File
import PdfSyntax.Proofs.Obj.Rendering
import PdfSyntax.Proofs.Session.Descent

/-!
# Written objects, one after another, are read back

The text of an object ends where it ends whatever follows after a white byte. So the texts of objects
with white bytes in between spell the tokens of these objects, one after another, and a reader that goes
on to the end of the data reads the objects and tells nothing.
-/

set_option autoImplicit false

namespace PdfSyntax

theorem RendersAll.length_le {Known : Obj → List Obj → Obj → Prop} {parts : List Bytes}
    {tokens objs : List Obj} (h : RendersAll Known parts tokens objs) :
    objs.length ≤ tokens.length := by
  induction h with
  | nil => exact Nat.le_refl _
  | cons _ _ _ ih =>
    simp only [List.length_cons, List.length_append]
    omega

namespace Reader
variable {start : Reader Direct} {tokens rest objs : List Obj} {parts : List Bytes}
variable {Known : Obj → List Obj → Obj → Prop}

theorem object_ensures (plain : start.settings.IsPlain) {obj : Obj}
    (h : (Grammar.object start.settings.references tokens).Gives obj rest) :
    Ensures (Ahead start False [] tokens) object (fun read r => read = obj ∧ Ahead start False [] rest r)
      (fun _ _ => False) := by
  refine (object_reads plain).weaken (fun _ hr => hr) ?_ ?_
  · intro read r hcomes
    rcases hcomes with ⟨houtcome, hahead⟩
    rw [h.outcome_eq] at houtcome
    rw [h.dropped_eq, h.rest_eq] at hahead
    exact ⟨(Except.ok.inj houtcome).symm, hahead⟩
  · intro e r hstops
    rcases hstops with ⟨⟨fault, offset, -, houtcome⟩, -⟩
    rw [h.outcome_eq] at houtcome
    cases houtcome

/-- The objects that the tokens ahead stand for are read one after another, up to the end. -/
theorem objectsWithin_ensures (plain : start.settings.IsPlain)
    (hreferences : start.settings.references = true) (h : RendersAll Known parts tokens objs)
    {bound : Nat} (hbound : objs.length < bound) :
    Ensures (Ahead start False [] tokens) (objectsWithin bound)
      (fun read r => read = objs ∧ Ahead start False [] [] r) (fun _ _ => False) := by
  induction h generalizing bound with
  | nil =>
    cases bound with
    | zero => omega
    | succ bound =>
      have hend : (Grammar.object start.settings.references []).Gives .endOfInput [] := ⟨rfl, rfl, rfl⟩
      apply (object_ensures plain hend).bind_of_eq
      exact .pure fun r hr => ⟨rfl, hr⟩
  | @cons bytes first more obj parts tokens objs hrenders _ hall ih =>
    cases bound with
    | zero => omega
    | succ bound =>
      have hclear := hall.clear clear_nil
      rw [List.append_nil] at hclear
      have hgives := hrenders.gives hclear
      have hobject : (Grammar.object start.settings.references (first :: (more ++ tokens))).Gives obj
          tokens := by
        rw [hreferences]
        exact hgives.after (Nat.le_succ _)
      rw [List.cons_append]
      refine .of_promise fun r hr => ?_
      have hlexeme := (hr.admits first (List.mem_cons_self ..)).1
      have hend := (Grammar.ordinary_of_objectFrom hlexeme hgives.outcome_eq).1
      apply (object_ensures plain hobject).bind_of_eq
      rw [if_neg (by simp [hend])]
      apply (ih (Nat.lt_of_succ_lt_succ hbound)).bind_of_eq
      exact .pure fun r hr => ⟨rfl, hr⟩

theorem objects_ensures (plain : start.settings.IsPlain)
    (hreferences : start.settings.references = true) (h : RendersAll Known parts tokens objs) :
    Ensures (Ahead start False [] tokens) objects
      (fun read r => read = objs ∧ Ahead start False [] [] r) (fun _ _ => False) := by
  intro r hr
  have hweight := length_le_weight hr
  have hlength := h.length_le
  have hbound : objs.length < r.weight + 1 := by omega
  exact objectsWithin_ensures plain hreferences h hbound r hr

end Reader

namespace Session

/-- The objects that can stand in a file can be written. Their texts, with white bytes in between, are
read back as the same objects, in blocks of any size, and nothing is told. -/
theorem objects_of_format (objs : List Obj) (hwritable : ∀ obj ∈ objs, obj.Writable) :
    ∃ texts, objs.mapM Obj.format = .ok texts ∧
      ∀ (source : Source) (offset : Int) (blockSize : Nat) (decrypt : Decipherment) (quiet : Bool),
        source.IsSteady → 0 < blockSize → Joined texts source.rest →
        ∃ read after, Reader.objects
            (.new (Buffer.atOffset source offset blockSize) .lenient decrypt quiet) = .ok read after ∧
          List.Forall₂ Obj.Same objs read ∧ after.records = [] := by
  obtain ⟨texts, tokens, read, htexts, hsame, hall⟩ :=
    Obj.renders_items fun obj hobj => (hwritable obj hobj).isRendered
  refine ⟨texts, htexts, ?_⟩
  intro source offset blockSize decrypt quiet hsteady hsize hjoined
  have hspells : Lexer.Spells False source.rest tokens := by
    have hnil : Lexer.Terminated [] := fun _ h => (nomatch h)
    have hspells := hall.spells hjoined hnil .empty
    rwa [List.append_nil, List.append_nil] at hspells
  have hahead := ahead_fresh source offset .lenient decrypt quiet hspells fun _ => hall.ne_stream
  have hread := Reader.objects_ensures ⟨rfl, rfl⟩ rfl hall _ hahead
  have halike := alike_fresh source offset blockSize .lenient decrypt quiet hsteady hsize
  have hkeep := Reader.objects_keep (Buffer.simulation _) _ _ halike
  generalize Reader.objects (.new ((Medium.ofSource source offset).cursorAt offset) .lenient decrypt quiet)
    = direct at hread hkeep
  cases direct with
  | error e r => exact hread.elim
  | ok objs' r =>
    obtain ⟨rfl, hdone⟩ := hread
    have hrecords : r.records = [] := hdone.records_eq not_false rfl
    generalize Reader.objects (.new (Buffer.atOffset source offset blockSize) .lenient decrypt quiet)
      = buffered at hkeep ⊢
    cases hkeep with
    | ok halike =>
      obtain ⟨d, -, rfl⟩ := halike
      exact ⟨_, _, rfl, hsame, hrecords⟩

/-- A dictionary whose entries are not in order, a definition and two bare objects, in blocks of one
byte. -/
theorem objects_of_format_of_definition :
    let objs : List Obj := [.dict [("B", .int 7), ("A", .array [.int 1, .int 2, .ref ⟨3, 0⟩])],
      .defn ⟨1, 0⟩ (.str [0x28, 0xff]), .real ⟨0xc004000000000000⟩, .name "a b"]
    (∀ obj ∈ objs, obj.Writable) ∧
    ∃ texts, objs.mapM Obj.format = .ok texts ∧
      ∃ read after, Reader.objects (File.reader ([0x20].intercalate texts) 1 .lenient) = .ok read after ∧
        List.Forall₂ Obj.Same objs read ∧ after.records = [] := by
  intro objs
  have harray : (Obj.array [.int 1, .int 2, .ref ⟨3, 0⟩]).Writable := by
    refine .array fun item hitem => ?_
    simp only [List.mem_cons, List.not_mem_nil, or_false] at hitem
    rcases hitem with rfl | rfl | rfl
    · exact .int rfl
    · exact .int rfl
    · exact .ref ⟨by decide, by decide, by decide, by decide⟩
  have hdict : (Obj.dict [("B", .int 7), ("A", .array [.int 1, .int 2, .ref ⟨3, 0⟩])]).Writable := by
    refine .dict ?_ ?_ (by decide)
    · intro entry hentry
      simp only [List.mem_cons, List.not_mem_nil, or_false] at hentry
      rcases hentry with rfl | rfl <;> simp [Name.IsLatin]
    · intro entry hentry
      simp only [List.mem_cons, List.not_mem_nil, or_false] at hentry
      rcases hentry with rfl | rfl
      · exact .int rfl
      · exact harray
  have hwritable : ∀ obj ∈ objs, obj.Writable := by
    intro obj hobj
    simp only [objs, List.mem_cons, List.not_mem_nil, or_false] at hobj
    rcases hobj with rfl | rfl | rfl | rfl
    · exact hdict
    · exact .defn ⟨by decide, by decide, by decide, by decide⟩ (.str _)
    · exact .real (by decide)
    · exact .name (by simp [Name.IsLatin])
  obtain ⟨texts, htexts, hread⟩ := objects_of_format objs hwritable
  exact ⟨hwritable, texts, htexts, hread (.ofData _) 0 1 Request.decrypt false (Source.isSteady_ofData _)
    (by omega) (joined_intercalate texts)⟩

end Session
end PdfSyntax
