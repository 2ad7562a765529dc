import PdfSyntax.Proofs.Input.Forward
import PdfSyntax.Proofs.Reader.Payload
import PdfSyntax.Proofs.Session.Descent

/-!
# Streams in a session

As long as a session pushes no tokens back, no more of them are pushed back than looking ahead leaves.
So whenever an object that is read is a stream, or defines one, the reader stands at its payload, and
going forward from there leads to the bytes of the payload.
-/

set_option autoImplicit false

namespace PdfSyntax

def Operation.PushesNothing : Operation → Prop
  | .push _ => False
  | _ => True

/-- Whether an operation reads objects, and goes only to some of the offsets. -/
def Operation.ReadsObjects (within : Int → Prop) : Operation → Prop
  | .object | .objects => True
  | .objectAt target => within target
  | _ => False

def Outcome.Yields (obj : Obj) : Outcome → Prop
  | .object value => value = some obj
  | .objects values => obj ∈ values
  | _ => False

/-- Where the payload of an object that came out alone is, if it is a stream or defines one. -/
def Outcome.payload? : Outcome → Option (Ref × Int)
  | .object (some obj) => obj.payload?
  | _ => none

theorem Outcome.object_of_payload? {outcome : Outcome} {payload : Ref × Int}
    (h : outcome.payload? = some payload) :
    ∃ obj, outcome = .object (some obj) ∧ obj.payload? = some payload := by
  unfold payload? at h
  split at h
  · exact ⟨_, rfl, h⟩
  · cases h

namespace Reader

/-- A reader within a medium that has no more pushed back than looking ahead leaves, and is as quiet as
it ever was. -/
structure Orderly (medium : Medium) (quiet : Bool) (r : Reader Direct) : Prop where
  data_eq : r.cursor.data = medium.data
  origin_eq : r.cursor.origin = medium.origin
  isInside : r.cursor.IsInside
  left : Left r.pending
  quiet_eq : r.told.isSome = quiet

section Orderly
variable {medium : Medium} {quiet : Bool} {α : Type}

theorem Orderly.of_rests {s r : Reader Direct} (hs : Orderly medium quiet s) (h : Rests s r) :
    Orderly medium quiet r := by
  obtain ⟨pending, hleft, hr⟩ := h
  obtain ⟨bytes, hpass⟩ := hr.passes
  exact ⟨hpass.data_eq.trans hs.data_eq, hpass.origin_eq.trans hs.origin_eq, hr.isInside hs.isInside,
    by rw [hr.pending_eq]; exact hleft, hr.told_eq.trans hs.quiet_eq⟩

theorem Orderly.rests {s : Reader Direct} (hs : Orderly medium quiet s) : Rests s s :=
  ⟨_, hs.left, reached_self s⟩

theorem orderly_of_rests {m : Reading Direct α}
    (h : ∀ s : Reader Direct, s.cursor.IsInside →
      Ensures (Rests s) m (fun _ => Rests s) (fun _ => Rests s)) :
    Ensures (Orderly medium quiet) m (fun _ => Orderly medium quiet) (fun _ => Orderly medium quiet) := by
  intro s hs
  have hm := h s hs.isInside s hs.rests
  cases hend : m s with
  | ok a r =>
    rw [hend] at hm
    exact hs.of_rests hm
  | error e r =>
    rw [hend] at hm
    exact hs.of_rests hm

theorem orderly_of_same {m : Reading Direct α}
    (h : ∀ r, match m r with
      | .ok _ r' | .error _ r' =>
        r'.cursor = r.cursor ∧ r'.pending = r.pending ∧ r'.told.isSome = r.told.isSome) :
    Ensures (Orderly medium quiet) m (fun _ => Orderly medium quiet) (fun _ => Orderly medium quiet) := by
  intro s hs
  have hm := h s
  have hsame : ∀ {r : Reader Direct}, r.cursor = s.cursor ∧ r.pending = s.pending ∧
      r.told.isSome = s.told.isSome → Orderly medium quiet r := by
    intro r hsame
    rcases hsame with ⟨hcursor, hpending, htold⟩
    exact ⟨by rw [hcursor]; exact hs.data_eq, by rw [hcursor]; exact hs.origin_eq,
      by rw [hcursor]; exact hs.isInside, by rw [hpending]; exact hs.left, htold.trans hs.quiet_eq⟩
  cases hend : m s with
  | ok a r =>
    rw [hend] at hm
    exact hsame hm
  | error e r =>
    rw [hend] at hm
    exact hsame hm

theorem byte_orderly :
    Ensures (Orderly medium quiet) byte (fun _ => Orderly medium quiet)
      (fun _ => Orderly medium quiet) := by
  apply orderly_of_rests
  intro s hs r hrests
  rcases hrests with ⟨pending, hleft, hr⟩
  have hbyte := byte_ensures (hr.isInside hs) r rfl
  cases hend : byte r with
  | ok b r' =>
    rw [hend] at hbyte
    rcases hbyte with ⟨d, ⟨hpass, -⟩ | ⟨-, -, hpass, -⟩, rfl⟩
    · exact ⟨pending, hleft, hr.pass hpass⟩
    · exact ⟨pending, hleft, hr.pass hpass⟩
  | error e r' =>
    rw [hend] at hbyte
    rcases hbyte with ⟨rfl, -⟩
    exact ⟨pending, hleft, hr⟩

theorem pop_orderly :
    Ensures (Orderly medium quiet) pop (fun _ => Orderly medium quiet)
      (fun _ => Orderly medium quiet) := by
  intro r hs
  rcases r with ⟨cursor, pending, settings, context, decrypt, told, records, requests⟩
  cases pending with
  | nil => exact hs
  | cons token pending => exact { hs with left := hs.left.tail }

theorem token_rests (s : Reader Direct) (hs : s.cursor.IsInside) :
    Ensures (Rests s) token (fun _ => Rests s) (fun _ => Rests s) :=
  (token_holds hs).weaken (fun _ h => h) (fun _ _ h => h.rests) (fun _ _ h => h)

theorem object_orderly :
    Ensures (Orderly medium quiet) object (fun _ => Orderly medium quiet)
      (fun _ => Orderly medium quiet) :=
  orderly_of_rests fun _ hs =>
    (object_came hs).weaken (fun _ h => h) (fun _ _ h => h.rests) (fun _ _ h => h)

theorem seek_eq {s : Reader Direct} (hs : Orderly medium quiet s) {target : Int}
    (h : medium.Reaches target) : seek target s = .ok () { s with
      pending := [], cursor := { s.cursor with offset := target, isEnded := false } } := by
  have hle : ¬ target < s.cursor.origin := by
    rw [hs.origin_eq]
    exact Int.not_lt.mpr h.2
  change onCursor (Cursor.seek target) { s with pending := [] } = _
  simp only [onCursor, Cursor.seek, Direct.seek, if_neg hle]

theorem Orderly.sought {s : Reader Direct} (hs : Orderly medium quiet s) {target : Int}
    (h : medium.Reaches target) : Orderly medium quiet { s with
      pending := [], cursor := { s.cursor with offset := target, isEnded := false } } := by
  refine ⟨hs.data_eq, hs.origin_eq, ⟨?_, fun hended => by cases hended⟩, .nothing, hs.quiet_eq⟩
  simp only [hs.origin_eq]
  exact h.2

theorem seek_orderly {target : Int} (h : medium.Reaches target) :
    Ensures (Orderly medium quiet) (seek target) (fun _ => Orderly medium quiet)
      (fun _ => Orderly medium quiet) := by
  intro s hs
  rw [seek_eq hs h]
  exact hs.sought h

theorem Orderly.told {r : Reader Direct} (h : Orderly medium quiet r) (told : List String)
    (hsome : r.told.isSome = true) : Orderly medium quiet { r with told := some told } :=
  { h with quiet_eq := hsome.symm.trans h.quiet_eq }

/-- Every operation of a session that pushes nothing back keeps order. -/
theorem perform_orderly {operation : Operation} (hwithin : operation.KeepsWithin medium.Reaches)
    (hpushes : operation.PushesNothing) :
    Ensures (Orderly medium quiet) (perform operation) (fun _ => Orderly medium quiet)
      (fun _ => Orderly medium quiet) := by
  cases operation with
  | byte => exact byte_orderly.bind fun _ => .pure fun _ h => h
  | bytes count => exact (bytes_keeps byte_orderly count).bind fun _ => .pure fun _ h => h
  | back => exact hwithin.elim
  | offset => exact fun _ h => h
  | seek target => exact (seek_orderly hwithin).bind fun _ => .pure fun _ h => h
  | forward target => exact hwithin.elim
  | push token => exact hpushes.elim
  | pop => exact pop_orderly.bind fun _ => .pure fun _ h => h
  | token => exact (orderly_of_rests token_rests).bind fun _ => .pure fun _ h => h
  | tokens count =>
    apply Ensures.ite
    · exact fun _ => (tokens_keeps (orderly_of_rests token_rests) _).bind fun _ => .pure fun _ h => h
    · exact fun _ => .throw fun _ h => h
  | tokenOr fallback =>
    apply Ensures.bind (Q := fun _ => Orderly medium quiet)
    · exact (orderly_of_rests token_rests).bind fun _ => .pure fun _ h => h
    · exact fun _ => .pure fun _ h => h
  | object => exact object_orderly.bind fun _ => .pure fun _ h => h
  | objectAt target =>
    exact ((seek_orderly hwithin).bind fun _ => object_orderly).bind fun _ => .pure fun _ h => h
  | objects =>
    apply Ensures.bind (Q := fun _ => Orderly medium quiet)
    · exact orderly_of_rests fun s hs =>
        (objects_leads hs).weaken (fun _ h => h) (fun _ _ h => h.2) (fun _ _ h => h)
    · exact fun _ => .pure fun _ h => h
  | set setting =>
    apply Ensures.bind (Q := fun _ => Orderly medium quiet)
    · apply orderly_of_same
      intro r
      cases setting <;> exact ⟨rfl, rfl, rfl⟩
    · exact fun _ => .pure fun _ h => h
  | tell template arguments =>
    exact (tell_ensures (fun told hsome h => Orderly.told h told hsome) _ _).bind fun _ =>
      .pure fun _ h => h
  | record level template arguments =>
    exact (record_ensures (fun told hsome h => Orderly.told h told hsome) (fun _ h => { h with })
      _ _ _).bind fun _ => .pure fun _ h => h
  | fail template arguments =>
    exact failWith_ensures template arguments (fun _ _ h => h) fun _ _ h => h

/-- Every stream that an operation yields leads to its payload, and if it yields nothing else the reader
stands there. -/
def Delivers (medium : Medium) (s : Reader Direct) (outcome : Outcome) (r : Reader Direct) : Prop :=
  ∀ obj owner place, outcome.Yields obj → obj.payload? = some (owner, place) →
    owner = obj.enclosing s.context ∧
    ∃ payload warns,
      PayloadAt medium.data medium.origin s.settings.tolerant place payload warns ∧
      (outcome = .object (some obj) → r.pending = [] ∧ r.cursor.offset = place ∧
        r.cursor.rest = payload ∧
        ∃ earlier last, r.records = s.records ++ earlier ++ last ∧
          (∀ record ∈ earlier, record.IsUpTo (place - 1)) ∧
          (last = loneReturn warns place ∨ s.told.isSome = true ∧ last = []))

theorem delivers_of_came {s r : Reader Direct} {obj : Obj} (hs : Orderly medium quiet s)
    (h : Came s obj r) : Delivers medium s (.object (some obj)) r := by
  intro obj' owner place hyields hobj
  obtain rfl : obj = obj' := Option.some.inj hyields
  have hat := h.atPayload owner place hobj
  obtain ⟨warns, hplace, hrecords⟩ := hat.payload
  rw [hs.data_eq, hs.origin_eq] at hplace
  exact ⟨hat.owner_eq, _, warns, hplace, fun _ => ⟨hat.pending_eq, hat.offset_eq, rfl, hrecords⟩⟩

theorem object_delivers {s : Reader Direct} (hs : Orderly medium quiet s) :
    Ensures (· = s) object (fun obj => Delivers medium s (.object (some obj))) (fun _ _ => True) := by
  intro r heq
  rcases heq with rfl
  have hobject := object_came hs.isInside _ hs.rests
  cases hend : object r with
  | ok obj r =>
    rw [hend] at hobject
    exact delivers_of_came hs hobject
  | error e r => trivial

theorem perform_delivers {operation : Operation} (hreads : operation.ReadsObjects medium.Reaches)
    {s : Reader Direct} (hs : Orderly medium quiet s) :
    Ensures (· = s) (perform operation) (Delivers medium s) (fun _ _ => True) := by
  cases operation with
  | object => exact (object_delivers hs).bind fun _ => .pure fun _ h => h
  | objectAt target =>
    have hsought := hs.sought hreads
    have hseek : Ensures (· = s) (objectAt target)
        (fun obj => Delivers medium s (.object (some obj))) (fun _ _ => True) := by
      apply Ensures.bind (Q := fun _ r => r = { s with
        pending := [], cursor := { s.cursor with offset := target, isEnded := false } })
      · intro s heq
        rcases heq with rfl
        rw [seek_eq hs hreads]
      · exact fun _ => object_delivers hsought
    exact hseek.bind fun _ => .pure fun _ h => h
  | objects =>
    have hobjects : Ensures (· = s) objects (fun objects r => ∀ obj ∈ objects, Leads s obj)
        (fun _ _ => True) :=
      (objects_leads hs.isInside).weaken (by rintro _ rfl; exact hs.rests) (fun _ _ h => h.1)
        (fun _ _ _ => trivial)
    apply hobjects.bind
    refine fun objects => .pure fun r hr => ?_
    intro obj owner place hmem hobj
    obtain ⟨howner, payload, warns, hplace⟩ := hr obj hmem owner place hobj
    rw [hs.data_eq, hs.origin_eq] at hplace
    exact ⟨howner, payload, warns, hplace, (nomatch ·)⟩
  | _ => exact hreads.elim

end Orderly
end Reader

namespace Session
variable {medium : Medium} {quiet : Bool}

theorem step_orderly (scope : Scope) {operation : Operation}
    (hwithin : operation.KeepsWithin medium.Reaches) (hpushes : operation.PushesNothing)
    {r : Reader Direct} (hr : r.Orderly medium quiet) :
    (step scope operation r).reader.Orderly medium quiet := by
  have hperform := Reader.perform_orderly hwithin hpushes { r with records := [], requests := [] }
    { hr with }
  by_cases hscope : scope.includes operation.scope = true
  · rw [step_of_includes hscope]
    cases hend : Reader.perform operation { r with records := [], requests := [] } with
    | ok outcome r' =>
      rw [hend] at hperform
      exact hperform
    | error e r' =>
      rw [hend] at hperform
      exact hperform
  · rw [step_of_not_includes hscope]
    exact { hr with }

theorem repeated_orderly (scope : Scope) {operation : Operation}
    (hwithin : operation.KeepsWithin medium.Reaches) (hpushes : operation.PushesNothing) (count : Nat)
    {r : Reader Direct} (hr : r.Orderly medium quiet) :
    (readerAfter (repeated scope operation count r) r).Orderly medium quiet := by
  induction count generalizing r with
  | zero => exact hr
  | succ count ih =>
    have hstep := step_orderly scope hwithin hpushes hr
    rw [repeated]
    split
    · exact hstep
    · rw [readerAfter_cons]
      exact ih hstep

theorem run_orderly (scope : Scope) {steps : List (Operation × Nat)}
    (hsteps : ∀ step ∈ steps, step.1.KeepsWithin medium.Reaches ∧ step.1.PushesNothing)
    {r : Reader Direct} (hr : r.Orderly medium quiet) :
    (readerAfter (run scope steps r) r).Orderly medium quiet := by
  induction steps generalizing r with
  | nil => exact hr
  | cons head rest ih =>
    rcases head with ⟨operation, count⟩
    obtain ⟨hwithin, hpushes⟩ := hsteps _ List.mem_cons_self
    rw [run, readerAfter_append]
    exact ih (fun step hs => hsteps step (List.mem_cons_of_mem _ hs))
      (repeated_orderly scope hwithin hpushes count hr)

theorem orderly_fresh (source : Source) (offset : Int) (settings : Settings) (decrypt : Decipherment)
    (quiet : Bool) : (Reader.new ((Medium.ofSource source offset).cursorAt offset) settings decrypt
      quiet).Orderly (.ofSource source offset) quiet where
  data_eq := rfl
  origin_eq := rfl
  isInside := Direct.isInside_ofSource source offset
  left := .nothing
  quiet_eq := by cases quiet <;> rfl

theorem step_forward {r : Reader Buffer} {s : Reader Direct}
    (halike : r.Alike (Buffer.Shows medium) s) (target : Int) (hle : s.cursor.offset ≤ target)
    (hend : target ≤ medium.origin + medium.data.length) :
    let report := step .objects (.forward target) r
    report.outcome = .ok .nothing ∧ report.reader.Alike (Buffer.Shows medium)
      { s with cursor := { s.cursor with offset := target }, records := [], requests := [] } := by
  obtain ⟨d, hR, rfl⟩ := halike
  obtain ⟨b, hforward, hshows⟩ := hR.forward r.settings.tolerant hle hend
  have hperform : Reader.perform (.forward target) { r with records := [], requests := [] } =
      .ok .nothing { r with records := [], requests := [], cursor := b } := by
    simp only [Reader.perform, Reader.forward, Reader.getSettings, Reader.onCursor, Bind.bind,
      EStateM.bind, Cursor.forward, hforward]
    rfl
  rw [step_of_includes rfl, hperform]
  exact ⟨rfl, _, hshows, rfl⟩

theorem step_bytes {r : Reader Buffer} {s : Reader Direct}
    (halike : r.Alike (Buffer.Shows medium) s) (hs : s.cursor.IsInside) (count : Nat)
    (hcount : count ≤ s.cursor.rest.length) :
    (step .objects (.bytes count) r).outcome = .ok (.bytes (s.cursor.rest.take count)) := by
  rw [(step_alike (Buffer.simulation medium) .objects (.bytes count) trivial halike).outcome,
    step_of_includes rfl]
  have hbytes := Reader.bytes_ensures (r := { s with records := [], requests := [] }) hs hcount _ rfl
  simp only [Reader.perform, Bind.bind, EStateM.bind]
  cases hread : Reader.bytes count { s with records := [], requests := [] } with
  | ok read s' =>
    rw [hread] at hbytes
    rw [hbytes]
    rfl
  | error e s' =>
    rw [hread] at hbytes
    exact hbytes.elim

/-- Going forward within the data and reading bytes there. -/
theorem run_forward_bytes {r : Reader Buffer} {s : Reader Direct}
    (halike : r.Alike (Buffer.Shows medium) s) (hs : s.Orderly medium quiet) {n count : Nat}
    (hend : s.cursor.offset + n ≤ medium.origin + medium.data.length)
    (hcount : n + count ≤ s.cursor.rest.length) :
    (run .objects [(.forward (s.cursor.offset + n), 1), (.bytes count, 1)] r).map Report.outcome =
      [.ok .nothing, .ok (.bytes ((s.cursor.rest.drop n).take count))] := by
  obtain ⟨hforward, hnext⟩ := step_forward halike (s.cursor.offset + n) (by omega) hend
  have hinside := hs.isInside
  have hrest := Direct.rest_of_moved hinside n
  have hbytes := step_bytes hnext (hinside.moved n) count (by
    rw [hrest, List.length_drop]
    omega)
  rw [hrest] at hbytes
  simp only [run, repeated_one, List.getLast?_singleton, Option.elim_some, List.map_append,
    List.map_cons, List.map_nil, hforward, hbytes]
  rfl

theorem step_delivers {operation : Operation} (hreads : operation.ReadsObjects medium.Reaches)
    {s : Reader Direct} (hs : s.Orderly medium quiet) {outcome : Outcome}
    (h : (step .objects operation s).outcome = .ok outcome) :
    Reader.Delivers medium { s with records := [], requests := [] } outcome
      (step .objects operation s).reader ∧
    (step .objects operation s).records = (step .objects operation s).reader.records := by
  have hdelivers := Reader.perform_delivers hreads (s := { s with records := [], requests := [] })
    { hs with } _ rfl
  rw [step_of_includes rfl] at h ⊢
  cases hperform : Reader.perform operation { s with records := [], requests := [] } with
  | ok outcome' s' =>
    rw [hperform] at h hdelivers
    cases h
    exact ⟨hdelivers, rfl⟩
  | error e s' =>
    rw [hperform] at h
    cases h

theorem keepsWithin_of_readsObjects {operation : Operation} {within : Int → Prop}
    (h : operation.ReadsObjects within) : operation.KeepsWithin within ∧ operation.PushesNothing := by
  cases operation <;> first | exact ⟨trivial, trivial⟩ | exact ⟨h, trivial⟩ | exact h.elim

/-- Wherever a session that pushes nothing back has come to, a stream that it reads leads to its payload:
right behind the keyword and one end of the line, where nothing is pushed back, and from where one can
go forward to any byte of the payload. -/
theorem payload_of_stream (source : Source) (offset : Int) (blockSize : Nat) (settings : Settings)
    (decrypt : Decipherment) (quiet : Bool) (scope : Scope) (steps : List (Operation × Nat))
    (operation : Operation) (outcome : Outcome) (obj : Obj) (owner : Ref) (place : Int)
    (hsteady : source.IsSteady) (hsize : 0 < blockSize)
    (hsteps : ∀ step ∈ steps, step.1.KeepsWithin (Medium.ofSource source offset).Reaches ∧
      step.1.PushesNothing)
    (hreads : operation.ReadsObjects (Medium.ofSource source offset).Reaches) :
    let fresh := Reader.new (Buffer.atOffset source offset blockSize) settings decrypt quiet
    let r := readerAfter (run scope steps fresh) fresh
    let report := step .objects operation r
    report.outcome = .ok outcome → outcome.Yields obj → obj.payload? = some (owner, place) →
    owner = obj.enclosing r.context ∧
    ∃ payload warns,
      PayloadAt source.data (offset - source.position) r.settings.tolerant place payload warns ∧
      (outcome = .object (some obj) →
        report.reader.pending = [] ∧ Cursor.offset report.reader.cursor = place ∧
        (∃ earlier last, report.records = earlier ++ last ∧
          (∀ record ∈ earlier, record.IsUpTo (place - 1)) ∧
          (last = loneReturn warns place ∨ quiet = true ∧ last = [])) ∧
        ∀ n count : Nat, n + count ≤ payload.length →
          (run .objects [(.forward (place + n), 1), (.bytes count, 1)] report.reader).map
            Report.outcome = [.ok .nothing, .ok (.bytes ((payload.drop n).take count))]) := by
  intro fresh r report houtcome hyields hobj
  let medium := Medium.ofSource source offset
  let start : Reader Direct := .new (medium.cursorAt offset) settings decrypt quiet
  let s := readerAfter (run scope steps start) start
  have hsim := Buffer.simulation medium
  have hfresh : Reader.Alike (Buffer.Shows medium) fresh start :=
    alike_fresh source offset blockSize settings decrypt quiet hsteady hsize
  have hr : r.Alike (Buffer.Shows medium) s :=
    readerAfter_alike (run_alike hsim scope (fun step hs => (hsteps step hs).1) hfresh) hfresh
  have hs : s.Orderly medium quiet :=
    run_orderly scope hsteps (orderly_fresh source offset settings decrypt quiet)
  obtain ⟨hwithin, hpushes⟩ := keepsWithin_of_readsObjects hreads
  have hreport := step_alike hsim .objects operation hwithin hr
  have hdirect : (step .objects operation s).outcome = .ok outcome :=
    hreport.outcome.symm.trans houtcome
  have hafter : (step .objects operation s).reader.Orderly medium quiet :=
    step_orderly .objects hwithin hpushes hs
  obtain ⟨hdelivers, hrecords⟩ := step_delivers hreads hs hdirect
  obtain ⟨howner, payload, warns, hplace, hstands⟩ := hdelivers obj owner place hyields hobj
  have hcontext : r.context = s.context := by
    obtain ⟨d, -, hd⟩ := hr
    rw [hd]
    rfl
  have hsettings : r.settings = s.settings := by
    obtain ⟨d, -, hd⟩ := hr
    rw [hd]
    rfl
  rw [hcontext, hsettings]
  refine ⟨howner, payload, warns, hplace, fun halone => ?_⟩
  obtain ⟨hpending, hoffset, hrest, earlier, last, htold, hearlier, hlast⟩ := hstands halone
  obtain ⟨d, hshows, hreader⟩ := hreport.reader
  refine ⟨?_, ?_, ⟨earlier, last, ?_, hearlier, ?_⟩, fun n count hcount => ?_⟩
  · rw [hreader] at hpending
    exact hpending
  · rw [hreader] at hoffset
    exact hshows.offset_eq.trans hoffset
  · rw [hreport.records, hrecords, htold]
    rfl
  · have hquiet := hs.quiet_eq
    rwa [← hquiet]
  · obtain ⟨before, lineEnd, hdata, hfront, -⟩ := hplace
    have hlength := congrArg List.length hdata
    rw [List.length_append] at hlength
    rw [← hoffset, ← hrest]
    apply run_forward_bytes hreport.reader hafter
    · simp only [hoffset, medium]
      omega
    · rw [hrest]
      exact hcount

/-- A definition of a stream, after an integer, in blocks of four bytes from offset 7 on. -/
theorem payload_of_stream_of_definition :
    let source : Source := ⟨Latin1.ascii "9 1 0 obj<</A 5>>stream\rab", 0, true, 0,
      fun read _ => read % 3 + 1, fun _ _ => none⟩
    let settings : Settings := ⟨true, true, true, none, .rc4⟩
    let fresh := Reader.new (Buffer.atOffset source 7 4) settings Request.decrypt false
    let steps : List (Operation × Nat) := [(.object, 1), (.set (.streams false), 1),
      (.set (.streams true), 1)]
    let report := step .objects .object (readerAfter (run .objects steps fresh) fresh)
    source.IsSteady ∧ 0 < 4 ∧
    (∀ step ∈ steps, step.1.KeepsWithin (Medium.ofSource source 7).Reaches ∧
      step.1.PushesNothing) ∧
    ∃ obj, report.outcome = .ok (.object (some obj)) ∧ obj.payload? = some (⟨1, 0⟩, 31) ∧
      report.reader.pending = [] ∧ Cursor.offset report.reader.cursor = 31 := by
  intro source settings fresh steps report
  have hsteady : source.IsSteady := ⟨fun read _ _ => Nat.succ_pos (read % 3), fun _ _ => rfl⟩
  have hsteps : ∀ step ∈ steps, step.1.KeepsWithin (Medium.ofSource source 7).Reaches ∧
      step.1.PushesNothing := by
    intro step hstep
    simp only [steps, List.mem_cons, List.not_mem_nil, or_false] at hstep
    rcases hstep with rfl | rfl | rfl <;> exact ⟨trivial, trivial⟩
  have hpayload : report.outcome.toOption.bind Outcome.payload? = some (⟨1, 0⟩, 31) := by
    decide +kernel
  cases houtcome : report.outcome with
  | error e =>
    rw [houtcome] at hpayload
    cases hpayload
  | ok outcome =>
    rw [houtcome] at hpayload
    obtain ⟨obj, rfl, hobj⟩ := Outcome.object_of_payload? hpayload
    obtain ⟨-, payload, warns, -, hstands⟩ := payload_of_stream source 7 4 settings Request.decrypt
      false .objects steps .object _ obj ⟨1, 0⟩ 31 hsteady (by omega) hsteps trivial houtcome rfl hobj
    obtain ⟨hpending, hoffset, -⟩ := hstands rfl
    exact ⟨hsteady, by omega, hsteps, obj, rfl, hobj, hpending, hoffset⟩

end Session
end PdfSyntax
