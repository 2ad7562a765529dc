import PdfSyntax.Proofs.Obj.Parts
import PdfSyntax.Proofs.Session.Form
import PdfSyntax.Proofs.Session.RoundTrip

/-!
# What was read can be written and read back

The objects in data are well-formed, so each of them without a stream or an infinite real in it can be
written. Their texts, a line for each, are data in which a reader finds the same objects.
-/

set_option autoImplicit false

namespace PdfSyntax

namespace Session

section Objects
variable {source : Source} {offset : Int} {blockSize : Nat} {settings : Settings}
variable {decrypt : Decipherment} {quiet : Bool} {objs : List Obj} {after : Reader Buffer}

theorem isWellFormed_of_objects (hconclusive : source.IsConclusive)
    (h : Reader.objects (.new (Buffer.atOffset source offset blockSize) settings decrypt quiet) =
      .ok objs after) : ∀ obj ∈ objs, obj.IsWellFormed := by
  let fresh : Reader Buffer := .new (.atOffset source offset blockSize) settings decrypt quiet
  have hfresh : fresh.Sound (fun b => fresh.cursor.StemsFrom b ∧ b.IsSpent) Buffer.IsDrained :=
    ⟨⟨Buffer.stemsFrom_self _, fun hended => by cases hended⟩, fun _ hmem => (List.not_mem_nil hmem).elim, .nil,
      fun hmem => (List.not_mem_nil hmem).elim⟩
  have hmakes := Reader.objects_makes (Buffer.ends hconclusive) fresh hfresh
  rw [h] at hmakes
  exact hmakes.1

/-- Objects that are rendered by parts of the data are read, and nothing is told. -/
theorem objects_of_rendersAll {Known : Obj → List Obj → Obj → Prop} {parts : List Bytes}
    {tokens : List Obj} (hall : RendersAll Known parts tokens objs) (hjoined : Joined parts source.rest)
    (offset : Int) (decrypt : Decipherment) (quiet : Bool) (hsteady : source.IsSteady)
    (hsize : 0 < blockSize) : ∃ after,
      Reader.objects (.new (Buffer.atOffset source offset blockSize) .lenient decrypt quiet) =
        .ok objs after ∧
      after.records = [] := by
  have hspells := hall.spells hjoined (fun _ h => (nomatch h) : Lexer.Terminated []) .empty
  rw [List.append_nil, List.append_nil] at hspells
  have hahead := ahead_fresh source offset .lenient decrypt quiet hspells fun _ => hall.ne_stream
  have halike := alike_fresh source offset blockSize .lenient decrypt quiet hsteady hsize
  let start : Reader Direct :=
    .new ((Medium.ofSource source offset).cursorAt offset) .lenient decrypt quiet
  have plain : start.settings.IsPlain := ⟨rfl, rfl⟩
  obtain ⟨read, after, direct, hread, ⟨cursor, -, rfl⟩, rfl, hdone⟩ :=
    (Reader.objects_keep (Buffer.simulation _)).ok_of_ensures
      (Reader.objects_ensures plain rfl hall) halike hahead
  exact ⟨after, hread, hdone.records_eq not_false rfl⟩

end Objects

/-- Whatever the data are, if all objects in them can be read and there is no stream in these, an object
can be written unless there is a real in it that is not finite, which the failure names. If there is no
such real at all, the texts, joined by line ends, are data in which any fresh reader finds the same
objects, and tells nothing. -/
theorem objects_read_back (source : Source) (offset : Int) (blockSize : Nat) (decrypt : Decipherment)
    (quiet : Bool) (objs : List Obj) (after : Reader Buffer) (hconclusive : source.IsConclusive)
    (hread : Reader.objects (.new (Buffer.atOffset source offset blockSize) .lenient decrypt quiet) =
      .ok objs after)
    (hstreams : ∀ obj ∈ objs, obj.IsStreamless) :
    (∀ obj ∈ objs, (obj.IsFinite → ∃ text, obj.format = .ok text) ∧
      (¬ obj.IsFinite → ∃ e, obj.Unwritable e ∧ obj.format = .error e)) ∧
    ((∀ obj ∈ objs, obj.IsFinite) → ∃ texts, objs.mapM Obj.format = .ok texts ∧
      ∀ (source' : Source) (offset' : Int) (blockSize' : Nat) (decrypt' : Decipherment) (quiet' : Bool),
        source'.IsSteady → 0 < blockSize' → source'.rest = [Byte.lineFeed].intercalate texts →
        ∃ read after', Reader.objects
            (.new (Buffer.atOffset source' offset' blockSize') .lenient decrypt' quiet') =
              .ok read after' ∧
          List.Forall₂ Obj.Same objs read ∧ after'.records = []) := by
  have hformed := isWellFormed_of_objects hconclusive hread
  constructor
  · intro obj hobj
    constructor
    · intro hfinite
      exact ((hformed obj hobj).writable_iff.mpr ⟨hstreams obj hobj, hfinite⟩).exists_format
    · intro hinfinite
      have hor := (hformed obj hobj).writable_or (hstreams obj hobj)
      exact hor.resolve_left fun hwritable => hinfinite hwritable.isFinite
  · intro hfinite
    have hwritable : ∀ obj ∈ objs, obj.Writable := fun obj hobj =>
      (hformed obj hobj).writable_iff.mpr ⟨hstreams obj hobj, hfinite obj hobj⟩
    obtain ⟨texts, tokens, read, htexts, hsame, hall⟩ :=
      Obj.renders_items fun obj hobj => (hwritable obj hobj).isRendered
    refine ⟨texts, htexts, ?_⟩
    intro source' offset' blockSize' decrypt' quiet' hsteady hsize hrest
    have hjoined : Joined texts source'.rest := by
      rw [hrest]
      exact joined_of_isWhite rfl texts
    obtain ⟨after', hread', hrecords⟩ :=
      objects_of_rendersAll hall hjoined offset' decrypt' quiet' hsteady hsize
    exact ⟨read, after', hread', hsame, hrecords⟩

/-- A reference right before a dictionary, which the data cut short within an array. -/
theorem objects_read_back_of_cut_dictionary :
    let source := Source.ofData (Latin1.ascii "1 0 R<</A[2.")
    ∃ objs after, source.IsConclusive ∧
      Reader.objects (.new (Buffer.atOffset source 0 3) .lenient Request.decrypt false) =
        .ok objs after ∧
      (∀ obj ∈ objs, obj.IsStreamless) ∧ objs.map (List.length ∘ Obj.parts) = [1, 3] ∧
      ∃ texts, objs.mapM Obj.format = .ok texts ∧
        ∃ read after', Reader.objects
            (File.reader ([Byte.lineFeed].intercalate texts) 1 .lenient) = .ok read after' ∧
          List.Forall₂ Obj.Same objs read := by
  intro source
  let fresh : Reader Buffer := .new (Buffer.atOffset source 0 3) .lenient Request.decrypt false
  have hconclusive : source.IsConclusive := (Source.isSteady_ofData _).generous.isConclusive
  obtain ⟨objs, hobjs⟩ : ∃ objs, Reader.objects.run' fresh = some objs :=
    Option.isSome_iff_exists.mp (by decide +kernel)
  obtain ⟨after, hread⟩ := exists_ok_of_run' hobjs
  have hparts : ∀ objs ∈ Reader.objects.run' fresh, objs.map (List.length ∘ Obj.parts) = [1, 3] ∧
      (∀ obj ∈ objs, obj.IsStreamless) ∧ ∀ obj ∈ objs, obj.IsFinite := by decide +kernel
  obtain ⟨hlengths, hstreams, hfinite⟩ := hparts objs hobjs
  obtain ⟨texts, htexts, hback⟩ := (objects_read_back source 0 3 Request.decrypt false objs after
    hconclusive hread hstreams).2 hfinite
  obtain ⟨read, after', hread', hsame, -⟩ := hback (.ofData _) 0 1 Request.decrypt false
    (Source.isSteady_ofData _) (by decide) rfl
  exact ⟨objs, after, hconclusive, hread, hstreams, hlengths, texts, htexts, read, after', hread', hsame⟩

/-- A real with so many digits before its point that it is infinite is read, and cannot be written. -/
theorem objects_not_writable :
    let data : Bytes := 0x31 :: List.replicate 309 0x30 ++ [0x2e]
    ∃ objs after, Reader.objects (File.reader data 4096 .lenient) = .ok objs after ∧
      (∀ obj ∈ objs, obj.IsStreamless) ∧ ∃ obj ∈ objs, ∃ e, obj.format = .error e := by
  intro data
  let fresh := File.reader data 4096 .lenient
  obtain ⟨objs, hobjs⟩ : ∃ objs, Reader.objects.run' fresh = some objs :=
    Option.isSome_iff_exists.mp (by decide +kernel)
  obtain ⟨after, hread⟩ := exists_ok_of_run' hobjs
  have hparts : ∀ objs ∈ Reader.objects.run' fresh,
      (∀ obj ∈ objs, obj.IsStreamless) ∧ ∃ obj ∈ objs, ¬ obj.IsFinite := by decide +kernel
  obtain ⟨hstreams, obj, hobj, hinfinite⟩ := hparts objs hobjs
  have hformed := isWellFormed_of_objects (Source.isSteady_ofData _).generous.isConclusive hread
  obtain ⟨e, -, herror⟩ := ((hformed obj hobj).writable_or (hstreams obj hobj)).resolve_left
    fun hwritable => hinfinite hwritable.isFinite
  exact ⟨objs, after, hread, hstreams, obj, hobj, e, herror⟩

end Session
end PdfSyntax
