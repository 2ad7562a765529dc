import PdfSyntax.Proofs.Reader.Lookahead

/-!
# Where payloads start

The keyword of a stream is read from the bytes, right before the end of the line, because nothing is
pushed back when a dictionary closes. So the payload of a stream that is read starts behind the keyword
and one end of the line, and that is where the reader stands.
-/

set_option autoImplicit false

namespace PdfSyntax

/-- One end of a line and the bytes after it, and whether it deserves a warning. The end of the input
stands for a line feed. -/
inductive EndsLine (tolerant : Bool) : Bytes → Bytes → Bool → Prop where
  | pair {payload : Bytes} :
    EndsLine tolerant [Byte.carriageReturn, Byte.lineFeed] payload false
  | feed {payload : Bytes} : EndsLine tolerant [Byte.lineFeed] payload false
  | lone {byte : UInt8} {payload : Bytes} :
    byte ≠ Byte.lineFeed → EndsLine tolerant [Byte.carriageReturn] (byte :: payload) true
  | cut : tolerant = true → EndsLine tolerant [] [] false
  | cutReturn : tolerant = true → EndsLine tolerant [Byte.carriageReturn] [] false

/-- The data are split at a place by the keyword of a stream and one end of the line: what follows is the
payload. -/
def PayloadAt (data : Bytes) (origin : Int) (tolerant : Bool) (place : Int) (payload : Bytes)
    (warns : Bool) : Prop :=
  ∃ before lineEnd, data = before ++ Latin1.ascii "stream" ++ lineEnd ++ payload ∧
    place = origin + (before ++ Latin1.ascii "stream" ++ lineEnd).length ∧
    EndsLine tolerant lineEnd payload warns

namespace Obj

def payload? : Obj → Option (Ref × Int)
  | .stream _ owner place => some (owner, place)
  | .defn _ (.stream _ owner place) => some (owner, place)
  | _ => none

/-- The definition around the stream that an object is or defines, or else the object at hand. -/
def enclosing (context : Ref) : Obj → Ref
  | .defn owner _ => owner
  | _ => context

end Obj

/-- The warning about a carriage return without a line feed, if there is one. -/
def loneReturn (warns : Bool) (place : Int) : List Record :=
  if warns then [⟨.warning, located Reader.loneReturnMessage place⟩] else []

namespace Reader

section StreamStart
variable {r : Reader Direct}

theorem byte_ensures (hr : r.cursor.IsInside) :
    Ensures (· = r) byte
      (fun b r' => ∃ d, ((r.cursor.Passes [b] d ∧ d.back = r.cursor) ∨
        (b = Byte.lineFeed ∧ r.settings.tolerant = true ∧ r.cursor.Passes [] d ∧ d.rest = [])) ∧
        r' = { r with cursor := d })
      (fun _ r' => r' = r ∧ r.cursor.rest = []) := by
  intro s heq
  rw [heq]
  have hnext := Direct.next_ensures hr r.settings.tolerant r.cursor rfl
  cases hend : Direct.next r.settings.tolerant r.cursor with
  | error e d =>
    rw [hend] at hnext
    obtain ⟨rfl, -, hrest, -⟩ := hnext
    rw [byte_of_error hend]
    exact ⟨rfl, hrest⟩
  | ok b? d =>
    rw [hend] at hnext
    obtain ⟨hpass, hnone, -⟩ := hnext
    rw [byte_of_ok hend]
    refine ⟨d, ?_, rfl⟩
    cases b? with
    | some b => exact .inl ⟨hpass, Direct.back_of_next hend⟩
    | none =>
      obtain ⟨htolerant, hrest⟩ := hnone rfl
      have hempty := hpass.rest_eq
      rw [hrest] at hempty
      exact .inr ⟨rfl, htolerant, hpass, hempty.symm⟩

theorem bytes_ensures (hr : r.cursor.IsInside) {count : Nat} (h : count ≤ r.cursor.rest.length) :
    Ensures (· = r) (bytes count) (fun read _ => read = r.cursor.rest.take count)
      (fun _ _ => False) := by
  induction count generalizing r with
  | zero => exact .pure fun _ _ => rfl
  | succ count ih =>
    have hne : r.cursor.rest ≠ [] := List.ne_nil_of_length_pos (by omega)
    apply Ensures.bind ((byte_ensures hr).weaken (fun _ h => h) (fun _ _ h => h)
      (fun _ _ h => hne h.2))
    intro b
    refine .of_exists fun d => .of_fact fun hb => ?_
    obtain ⟨hpass, -⟩ : r.cursor.Passes [b] d ∧ _ := by
      refine hb.resolve_right ?_
      intro hcases
      rcases hcases with ⟨-, -, hpass, hnil⟩
      exact hne (hpass.rest_eq.trans hnil)
    have hrest : r.cursor.rest = b :: d.rest := hpass.rest_eq
    rw [hrest] at h ⊢
    apply (ih (r := { r with cursor := d }) (hpass.isInside hr) (Nat.le_of_succ_le_succ h)).bind
    intro read
    refine Ensures.pure ?_
    intro s heq
    rcases heq with rfl
    rfl

theorem streamStart_ensures (hr : r.cursor.IsInside) :
    Ensures (· = r) streamStart
      (fun _ r' => ∃ lineEnd d warns, r.cursor.Passes lineEnd d ∧
        EndsLine r.settings.tolerant lineEnd d.rest warns ∧
        r' = if warns then
          ({ r with cursor := d } : Reader Direct).recorded .warning loneReturnMessage loneReturnMessage
          else { r with cursor := d })
      (fun _ r' => ∃ bytes d, r.cursor.Passes bytes d ∧ r' = { r with cursor := d }) := by
  apply Ensures.bind ((byte_ensures hr).weaken (fun _ h => h) (fun _ _ h => h) ?_)
  · intro first
    refine .of_exists fun d => .of_fact fun hfirst => ?_
    apply Ensures.ite
    · intro hreturn
      obtain rfl : first = Byte.carriageReturn := eq_of_beq hreturn
      obtain ⟨hpass, -⟩ : r.cursor.Passes [Byte.carriageReturn] d ∧ _ :=
        hfirst.resolve_right fun h => absurd h.1 (by decide)
      have hd := hpass.isInside hr
      apply ((byte_ensures (r := { r with cursor := d }) hd).weaken (fun _ h => h) (fun _ _ h => h)
        ?_).bind
      · intro second
        refine .of_exists fun d' => .of_fact fun hsecond => ?_
        apply Ensures.ite
        · -- The byte is given back, so the cursor is again right behind the carriage return.
          intro hother
          have hother : second ≠ Byte.lineFeed := by simpa using hother
          obtain ⟨hpass', hback⟩ := hsecond.resolve_right fun h => hother h.1
          have hrest : d.rest = second :: d'.rest := hpass'.rest_eq
          apply Ensures.bind (Q := fun _ r' => r' = { r with cursor := d })
          · intro s heq
            rcases heq with rfl
            change ({ r with cursor := d'.back } : Reader Direct) = { r with cursor := d }
            rw [hback]
          · intro s t heq
            rcases heq with rfl
            rw [record_eq]
            refine ⟨_, d, true, hpass, ?_, rfl⟩
            rw [hrest]
            exact .lone hother
        · intro hfeed
          obtain rfl : second = Byte.lineFeed := by simpa using hfeed
          apply Ensures.pure
          intro s heq
          rcases heq with rfl
          rcases hsecond with ⟨hpass', -⟩ | ⟨-, htolerant, hpass', hrest⟩
          · exact ⟨_, d', false, hpass.trans hpass', .pair, rfl⟩
          · refine ⟨_, d', false, hpass.trans hpass', ?_, rfl⟩
            rw [hrest]
            exact .cutReturn htolerant
      · intro e r' hcases
        rcases hcases with ⟨rfl, -⟩
        exact ⟨_, d, hpass, rfl⟩
    · intro hreturn
      apply Ensures.ite
      · intro hother
        have hother : first ≠ Byte.lineFeed := by simpa using hother
        obtain ⟨hpass, -⟩ := hfirst.resolve_right fun h => hother h.1
        intro s heq
        rcases heq with rfl
        exact ⟨_, d, hpass, rfl⟩
      · intro hfeed
        obtain rfl : first = Byte.lineFeed := by simpa using hfeed
        apply Ensures.pure
        intro s heq
        rcases heq with rfl
        rcases hfirst with ⟨hpass, -⟩ | ⟨-, htolerant, hpass, hrest⟩
        · exact ⟨_, d, false, hpass, .feed, rfl⟩
        · refine ⟨_, d, false, hpass, ?_, rfl⟩
          rw [hrest]
          exact .cut htolerant
  · intro e r' hcases
    rcases hcases with ⟨rfl, -⟩
    exact ⟨[], _, .refl _, rfl⟩

end StreamStart

/-- A reader right behind the keyword of a stream, that has told nothing since before the keyword. -/
structure Behind (s r : Reader Direct) : Prop where
  reached : Reached s [] r
  offset_lt : s.cursor.offset < r.cursor.offset
  keyword : ∃ before, s.cursor.data = before ++ Latin1.ascii "stream" ++ r.cursor.rest ∧
    r.cursor.offset = s.cursor.origin + (before ++ Latin1.ascii "stream").length
  records_eq : ∃ new, r.records = s.records ++ new ∧
    ∀ record ∈ new, record.IsUpTo (r.cursor.offset - 1)

/-- A keyword of a stream that is lexed stands right before the place where the lexer stops. -/
theorem keyword_of_scan {d d' : Direct} {bytes : Bytes} {tolerant : Bool} (hd : d.IsInside)
    (hpass : d.Passes bytes d')
    (hscan : Lexer.scan tolerant .gap d.rest = some (.token (.keyword "stream"), d'.rest)) :
    d.offset < d'.offset ∧ ∃ before, d.data = before ++ Latin1.ascii "stream" ++ d'.rest ∧
      d'.offset = d.origin + (before ++ Latin1.ascii "stream").length := by
  obtain ⟨word, htext, front, hfront⟩ :=
    Lexer.word_of_scan hscan (by decide) (by decide) (by decide)
  obtain rfl : word = Latin1.ascii "stream" := by
    have hencode := congrArg Latin1.encode? htext
    rw [Latin1.encode?_decode] at hencode
    exact (Option.some.inj hencode).symm
  obtain ⟨before, hbefore⟩ : d.rest <:+ d.data := by
    rw [Direct.rest_of_isInside hd]
    exact List.drop_suffix _ _
  have hfront : front ++ (Latin1.ascii "stream" ++ d'.rest) = d.rest := hfront
  have hdata : d.data = (before ++ front ++ Latin1.ascii "stream") ++ d'.rest := by
    rw [← hbefore, ← hfront]
    simp only [List.append_assoc]
  have hne : d.rest ≠ [] := by
    rw [← hfront]
    simp [Latin1.ascii]
  have hlt : d.offset < d'.offset := by
    have hlength := congrArg List.length hfront
    have hbytes := congrArg List.length hpass.rest_eq
    have hpassed := hpass.offset_eq
    have hword : (Latin1.ascii "stream").length = 6 := rfl
    simp only [List.length_append, hword] at hlength hbytes
    omega
  exact ⟨hlt, before ++ front, hdata, hpass.offset_eq_of_append hd hne hdata⟩

/-- With nothing pushed back the keyword can only come from the bytes. -/
theorem token_behind {s : Reader Direct} (hs : s.cursor.IsInside) :
    Ensures (Reached s []) token
      (fun token r => (token.isKeyword "stream" = true → Behind s r) ∧ Holds s token r)
      (fun _ => Rests s) := by
  intro r hr
  have hholds := token_reached hs .nothing r hr
  have hinside := hr.isInside hs
  obtain ⟨bytes, d, hpass, hread⟩ := token_ensures hr.pending_eq hinside
  cases hscan : Lexer.scan r.settings.tolerant .gap r.cursor.rest with
  | none =>
    rw [hscan] at hread
    rw [hread] at hholds ⊢
    exact hholds
  | some result =>
    obtain ⟨verdict, rest⟩ := result
    rw [hscan] at hread
    obtain ⟨hrest, hread⟩ := hread
    rw [hread] at hholds ⊢
    cases verdict with
    | fault fault => exact hholds
    | cutShort string => exact ⟨(nomatch ·), _, hholds⟩
    | token token =>
      refine ⟨fun hkeyword => ?_, _, hholds⟩
      obtain rfl : token = .keyword "stream" := by
        cases token <;> simp_all [Obj.isKeyword]
      rw [← hrest] at hscan
      obtain ⟨hlt, before, hdata, hoffset⟩ := keyword_of_scan hinside hpass hscan
      obtain ⟨passed, hpassed⟩ := hr.passes
      obtain ⟨new, hnew, hupto⟩ := hr.records_eq
      refine ⟨hr.pass hpass, Int.lt_of_le_of_lt hpassed.offset_le hlt, ⟨before, ?_, ?_⟩, new, hnew,
        ?_⟩
      · rw [← hpassed.data_eq]
        exact hdata
      · rw [← hpassed.origin_eq]
        exact hoffset
      · intro record hmem
        obtain ⟨text, place, htext, hle⟩ := hupto record hmem
        exact ⟨text, place, htext, by simp only; omega⟩

/-- A reader at the payload of a stream. What it told on the way it told before the keyword, but for the
warning about the end of the line; a quiet reader may have told that before. -/
structure AtPayload (s : Reader Direct) (obj : Obj) (owner : Ref) (place : Int) (r : Reader Direct) :
    Prop where
  pending_eq : r.pending = []
  offset_eq : r.cursor.offset = place
  offset_lt : s.cursor.offset < place
  owner_eq : owner = obj.enclosing s.context
  payload : ∃ warns, PayloadAt s.cursor.data s.cursor.origin s.settings.tolerant place r.cursor.rest
      warns ∧
    ∃ earlier last, r.records = s.records ++ earlier ++ last ∧
      (∀ record ∈ earlier, record.IsUpTo (place - 1)) ∧
      (last = loneReturn warns place ∨ s.told.isSome = true ∧ last = [])

/-- What comes with an object that was read. -/
structure Came (s : Reader Direct) (obj : Obj) (r : Reader Direct) : Prop where
  rests : Rests s r
  isEnd : obj.isEnd = true → Reached s [] r
  atPayload : ∀ owner place, obj.payload? = some (owner, place) → AtPayload s obj owner place r

section Streams
variable {s : Reader Direct}

theorem came_of_rests {r : Reader Direct} {obj : Obj} (h : Rests s r) (hend : obj.isEnd = false)
    (hpayload : obj.payload? = none) : Came s obj r where
  rests := h
  isEnd hobj := by
    rw [hend] at hobj
    cases hobj
  atPayload owner place hobj := by
    rw [hpayload] at hobj
    cases hobj

theorem came_of_holds {r : Reader Direct} {token : Obj} (h : Holds s token r)
    (hint : ∀ n, token ≠ .int n) : Came s token r where
  rests := h.rests
  isEnd _ := h.reached hint
  atPayload owner place hobj := by
    obtain ⟨pending, hleft, -⟩ := h
    rcases hleft.isToken with htoken | rfl
    · cases token <;> first | exact htoken.elim | cases hobj
    · cases hobj

theorem records_behind {r : Reader Direct} {d : Direct} (h : Behind s r) (warns : Bool)
    (hle : r.cursor.offset ≤ d.offset) :
    let r' := if warns then
      ({ r with cursor := d } : Reader Direct).recorded .warning loneReturnMessage loneReturnMessage
      else { r with cursor := d }
    ∃ earlier last, r'.records = s.records ++ earlier ++ last ∧
      (∀ record ∈ earlier, record.IsUpTo (d.offset - 1)) ∧
      (last = loneReturn warns d.offset ∨ s.told.isSome = true ∧ last = []) := by
  intro r'
  obtain ⟨new, hnew, hupto⟩ := h.records_eq
  have hearlier : ∀ record ∈ new, record.IsUpTo (d.offset - 1) := by
    intro record hmem
    obtain ⟨text, place, htext, hplace⟩ := hupto record hmem
    exact ⟨text, place, htext, by omega⟩
  cases warns with
  | false => exact ⟨new, [], by rw [List.append_nil, ← hnew]; rfl, hearlier, .inl rfl⟩
  | true =>
    let r₁ : Reader Direct := { r with cursor := d }
    by_cases hknows : r₁.knows loneReturnMessage = true
    · have hrecorded := recorded_of_knows hknows .warning loneReturnMessage
      refine ⟨new, [], ?_, hearlier, .inr ⟨?_, rfl⟩⟩
      · rw [List.append_nil, ← hnew]
        change (r₁.recorded .warning loneReturnMessage loneReturnMessage).records = r₁.records
        rw [hrecorded]
      · rw [← h.reached.told_eq]
        exact isSome_of_knows hknows
    · refine ⟨new, loneReturn true d.offset, ?_, hearlier, .inl rfl⟩
      rw [← hnew]
      exact records_recorded hknows .warning loneReturnMessage

theorem streamStart_behind (hs : s.cursor.IsInside) :
    Ensures (Behind s) streamStart
      (fun _ r => Reached s [] r ∧
        ∀ obj, AtPayload s obj (obj.enclosing s.context) r.cursor.offset r)
      (fun _ => Rests s) := by
  intro r hr
  have hstart := streamStart_ensures (hr.reached.isInside hs) r rfl
  cases hend : streamStart r with
  | error e r' =>
    rw [hend] at hstart
    obtain ⟨bytes, d, hpass, rfl⟩ := hstart
    exact rests_of_reached (hr.reached.pass hpass)
  | ok _ r' =>
    rw [hend] at hstart
    obtain ⟨lineEnd, d, warns, hpass, hline, hr'⟩ := hstart
    have hcursor : r'.cursor = d := by
      rw [hr']
      split
      · rw [cursor_recorded]
      · rfl
    have hreached : Reached s [] r' := by
      rw [hr']
      split
      · exact (hr.reached.pass hpass).recorded _ _ _
      · exact hr.reached.pass hpass
    obtain ⟨before, hdata, hoffset⟩ := hr.keyword
    rw [hr.reached.settings_eq] at hline
    have hplace : PayloadAt s.cursor.data s.cursor.origin s.settings.tolerant d.offset d.rest warns := by
      refine ⟨before, lineEnd, ?_, ?_, hline⟩
      · rw [hdata, hpass.rest_eq]
        simp only [List.append_assoc]
      · rw [hpass.offset_eq, hoffset, @List.length_append _ _ lineEnd]
        omega
    have hrecords := records_behind hr warns hpass.offset_le
    rw [← hr'] at hrecords
    have hlt := Int.lt_of_lt_of_le hr.offset_lt hpass.offset_le
    rw [← hcursor] at hplace hrecords hlt
    exact ⟨hreached, fun obj => ⟨hreached.pending_eq, rfl, hlt, rfl, warns, hplace, hrecords⟩⟩

theorem dictOrStream_came (hs : s.cursor.IsInside) (entries : Dict) :
    Ensures (Reached s []) (dictOrStream entries) (Came s) (fun _ => Rests s) := by
  apply Ensures.bind (Q := fun _ => Reached s [])
  · exact fun r hr => hr
  · intro settings
    apply Ensures.ite
    · intro _
      apply (token_behind hs).bind
      intro next
      by_cases hstream : next.isKeyword "stream" = true
      · rw [if_pos hstream]
        apply ((streamStart_behind hs).from_imp fun _ h => h.1 hstream).bind
        intro _ r hcame
        rcases hcame with ⟨hreached, hpayload⟩
        refine ⟨rests_of_reached hreached, (nomatch ·), ?_⟩
        intro owner place hobj
        cases hobj
        have hcontext : r.context = s.context := hreached.context_eq
        have := hpayload (.stream (.dict entries) r.context r.cursor.offset)
        rwa [← hcontext] at this
      · rw [if_neg hstream]
        apply ((push_rests next).from_imp fun _ h => h.2).bind
        exact fun _ => .pure fun r hr => came_of_rests hr rfl rfl
    · exact fun _ => .pure fun r hr => came_of_rests (rests_of_reached hr) rfl rfl

theorem decipher_rests (data : Bytes) :
    Ensures (Rests s) (decipher data) (fun _ => Rests s) (fun _ => Rests s) := by
  apply decipher_ensures
  rintro r request ⟨pending, hleft, hr⟩
  exact ⟨pending, hleft, { hr with }⟩

theorem AtPayload.within {r r' : Reader Direct} {pending : List Obj} {ref : Ref} {body : Obj}
    {owner : Ref} {place : Int} (h : Reached s pending r)
    (h' : AtPayload { r with context := ref } (.defn ref body) owner place r') :
    AtPayload s (.defn ref body) owner place { r' with context := r.context } := by
  obtain ⟨bytes, hpass⟩ := h.passes
  obtain ⟨new, hnew, hupto⟩ := h.records_eq
  obtain ⟨hpending, hoffset, hlt, howner, warns, hplace, earlier, last, hrecords, hearlier, hlast⟩ := h'
  have hlt : r.cursor.offset < place := hlt
  refine ⟨hpending, hoffset, Int.lt_of_le_of_lt hpass.offset_le hlt, howner, warns, ?_, new ++ earlier,
    last, ?_, ?_, ?_⟩
  · rw [← hpass.data_eq, ← hpass.origin_eq, ← h.settings_eq]
    exact hplace
  · change r'.records = _
    rw [hrecords, ← List.append_assoc, ← hnew]
  · intro record hmem
    rcases List.mem_append.mp hmem with hmem | hmem
    · obtain ⟨text, place', htext, hle⟩ := hupto record hmem
      exact ⟨text, place', htext, by omega⟩
    · exact hearlier record hmem
  · rw [← h.told_eq]
    exact hlast

theorem within_came {m : Reading Direct Obj} {ref : Ref}
    (h : ∀ s : Reader Direct, s.cursor.IsInside → s.context = ref →
      Ensures (Rests s) m (fun obj r => (∃ body, obj = .defn ref body) ∧ Came s obj r)
        (fun _ => Rests s)) (hs : s.cursor.IsInside) :
    Ensures (Rests s) (within ref m) (Came s) (fun _ => Rests s) := by
  intro r hrests
  rcases hrests with ⟨pending, hleft, hr⟩
  have hrests : ∀ {r'}, Rests { r with context := ref } r' → Rests s { r' with context := r.context } := by
    intro r' hrests
    rcases hrests with ⟨pending', hleft', hr'⟩
    exact ⟨pending', hleft', hr.within hr'⟩
  have hm := h { r with context := ref } (hr.isInside hs) rfl _
    ⟨pending, hleft, { reached_self _ with pending_eq := hr.pending_eq }⟩
  unfold within
  cases hend : m { r with context := ref } with
  | error e r' =>
    rw [hend] at hm
    exact hrests hm
  | ok obj r' =>
    rw [hend] at hm
    obtain ⟨⟨body, rfl⟩, hcame⟩ := hm
    exact ⟨hrests hcame.rests, (nomatch ·), fun owner place hobj =>
      AtPayload.within hr (hcame.atPayload owner place hobj)⟩

theorem objectWithin_came {bound : Nat}
    (definition : ∀ (s : Reader Direct) (ref : Ref), s.cursor.IsInside → s.context = ref →
      Ensures (Rests s) (definitionWithin bound ref)
        (fun obj r => (∃ body, obj = .defn ref body) ∧ Came s obj r) (fun _ => Rests s))
    (array : Ensures (Rests s) (arrayWithin bound []) (Came s) (fun _ => Rests s))
    (dict : Ensures (Rests s) (dictWithin bound []) (Came s) (fun _ => Rests s))
    (hs : s.cursor.IsInside) :
    Ensures (Rests s) (objectWithin (bound + 1)) (Came s) (fun _ => Rests s) := by
  apply (token_holds hs).bind
  intro token
  cases token with
  | keyword text =>
    refine Ensures.from_imp ?_ fun _ h => Holds.rests h
    apply Ensures.ite
    · exact fun _ => .pure fun r hr => came_of_rests hr rfl rfl
    · intro _
      apply Ensures.ite
      · exact fun _ => dict
      · intro _
        apply Ensures.ite
        · exact fun _ => array
        · exact fun _ => fail_rests
  | str data =>
    apply ((decipher_rests data).from_imp fun _ h => Holds.rests h).bind
    exact fun data => .pure fun r hr => came_of_rests hr rfl rfl
  | int n =>
    apply Ensures.bind (Q := fun _ => Holds s (.int n))
    · exact fun r hr => hr
    · intro settings
      apply Ensures.ite
      · intro _
        apply (suffix_rests hs n n).bind
        intro suffix
        cases suffix with
        | nothing => exact .pure fun r hr => came_of_rests hr rfl rfl
        | reference ref => exact .pure fun r hr => came_of_rests hr rfl rfl
        | definition ref => exact within_came (fun s => definition s ref) hs
      · exact fun _ => .pure fun r hr => came_of_rests hr.rests rfl rfl
  | _ => exact .pure fun r hr => came_of_holds hr (by simp)

theorem definitionWithin_came {bound : Nat} (ref : Ref)
    (object : Ensures (Rests s) (objectWithin bound) (Came s) (fun _ => Rests s))
    (hs : s.cursor.IsInside) (hcontext : s.context = ref) :
    Ensures (Rests s) (definitionWithin (bound + 1) ref)
      (fun obj r => (∃ body, obj = .defn ref body) ∧ Came s obj r) (fun _ => Rests s) := by
  apply object.bind
  intro body
  by_cases hstream : body.isStream = true
  · rw [if_pos hstream]
    apply Ensures.pure
    intro r hr
    refine ⟨⟨body, rfl⟩, hr.rests, (nomatch ·), fun owner place hobj => ?_⟩
    cases body with
    | stream header owner' place' =>
      cases hobj
      have hpayload := hr.atPayload owner place rfl
      exact { hpayload with owner_eq := by rw [hpayload.owner_eq]; exact hcontext }
    | _ => cases hstream
  · rw [if_neg hstream]
    have hnone : (Obj.defn ref body).payload? = none := by
      cases body <;> first | rfl | exact absurd rfl hstream
    apply ((token_holds hs).from_imp fun _ h => h.rests).bind
    intro next
    apply Ensures.ite
    · exact fun _ => .pure fun r hr => ⟨⟨body, rfl⟩, came_of_rests hr.rests rfl hnone⟩
    · exact fun _ => (push_rests next).bind fun _ => fail_rests

theorem arrayWithin_came {bound : Nat}
    (object : Ensures (Rests s) (objectWithin bound) (Came s) (fun _ => Rests s))
    (array : ∀ items, Ensures (Rests s) (arrayWithin bound items) (Came s) (fun _ => Rests s))
    (hs : s.cursor.IsInside) (items : List Obj) :
    Ensures (Rests s) (arrayWithin (bound + 1) items) (Came s) (fun _ => Rests s) := by
  apply (token_holds hs).bind
  intro next
  apply Ensures.ite
  · exact fun _ => .pure fun r hr => came_of_rests hr.rests rfl rfl
  · intro _
    apply (push_rests next).bind
    intro _
    apply object.bind
    exact fun item => (array (item :: items)).from_imp fun _ h => h.rests

/-- Nothing is pushed back where a dictionary closes, be it by its bracket or by the end of the input. -/
theorem dictWithin_came {bound : Nat}
    (object : Ensures (Rests s) (objectWithin bound) (Came s) (fun _ => Rests s))
    (dict : ∀ entries, Ensures (Rests s) (dictWithin bound entries) (Came s) (fun _ => Rests s))
    (hs : s.cursor.IsInside) (entries : Dict) :
    Ensures (Rests s) (dictWithin (bound + 1) entries) (Came s) (fun _ => Rests s) := by
  apply (token_holds hs).bind
  intro next
  by_cases hclose : (next.isEnd || next.isKeyword ">>") = true
  · rw [if_pos hclose]
    refine (dictOrStream_came hs entries).from_imp fun r hr => hr.reached ?_
    intro n heq
    rcases heq with rfl
    cases hclose
  · rw [if_neg hclose]
    cases next with
    | name name =>
      apply (object.from_imp fun _ h => Holds.rests h).bind
      intro value
      by_cases hend : value.isEnd = true
      · simp only [if_pos hend]
        apply Ensures.bind (Q := fun _ => Reached s [])
        · intro r hr
          rw [render_valueless, record_eq]
          exact (hr.isEnd hend).recorded _ _ _
        · exact fun _ => dictOrStream_came hs entries
      · simp only [if_neg hend]
        exact (dict _).from_imp fun _ h => h.rests
    | _ => exact Ensures.from_imp fail_rests fun _ h => h.rests

/-- All four activities that read an object, by induction on the bound that they share. -/
theorem all_came (bound : Nat) :
    (∀ s : Reader Direct, s.cursor.IsInside →
      Ensures (Rests s) (objectWithin bound) (Came s) (fun _ => Rests s)) ∧
    (∀ (s : Reader Direct) (ref : Ref), s.cursor.IsInside → s.context = ref →
      Ensures (Rests s) (definitionWithin bound ref)
        (fun obj r => (∃ body, obj = .defn ref body) ∧ Came s obj r) (fun _ => Rests s)) ∧
    (∀ (s : Reader Direct) (items : List Obj), s.cursor.IsInside →
      Ensures (Rests s) (arrayWithin bound items) (Came s) (fun _ => Rests s)) ∧
    (∀ (s : Reader Direct) (entries : Dict), s.cursor.IsInside →
      Ensures (Rests s) (dictWithin bound entries) (Came s) (fun _ => Rests s)) := by
  induction bound with
  | zero =>
    refine ⟨fun _ _ => ?_, fun _ _ _ _ => ?_, fun _ _ _ => ?_, fun _ _ _ => ?_⟩
    · exact .throw fun _ h => h
    · exact .throw fun _ h => h
    · exact .throw fun _ h => h
    · exact .throw fun _ h => h
  | succ bound ih =>
    obtain ⟨object, definition, array, dict⟩ := ih
    exact ⟨fun s hs => objectWithin_came definition (array s [] hs) (dict s [] hs) hs,
      fun s ref hs => definitionWithin_came ref (object s hs) hs,
      fun s items hs => arrayWithin_came (object s hs) (fun items => array s items hs) hs items,
      fun s entries hs => dictWithin_came (object s hs) (fun entries => dict s entries hs) hs entries⟩

theorem object_came (hs : s.cursor.IsInside) :
    Ensures (Rests s) object (Came s) (fun _ => Rests s) :=
  fun r hr => (all_came (2 * r.weight + 2)).1 s hs r hr

def Leads (s : Reader Direct) (obj : Obj) : Prop :=
  ∀ owner place, obj.payload? = some (owner, place) → owner = obj.enclosing s.context ∧
    ∃ payload warns, PayloadAt s.cursor.data s.cursor.origin s.settings.tolerant place payload warns

theorem Came.leads {obj : Obj} {r : Reader Direct} (h : Came s obj r) : Leads s obj := by
  intro owner place hobj
  have hat := h.atPayload owner place hobj
  obtain ⟨warns, hplace, -⟩ := hat.payload
  exact ⟨hat.owner_eq, _, warns, hplace⟩

theorem objectsWithin_leads (hs : s.cursor.IsInside) (bound : Nat) :
    Ensures (Rests s) (objectsWithin bound)
      (fun objects r => (∀ obj ∈ objects, Leads s obj) ∧ Rests s r) (fun _ => Rests s) := by
  induction bound with
  | zero => exact .throw fun _ h => h
  | succ bound ih =>
    apply (object_came hs).bind
    intro object
    refine .of_promise fun r hr => ?_
    apply Ensures.ite
    · exact fun _ => .pure fun r hr => ⟨by simp, hr.rests⟩
    · intro _
      apply (ih.from_imp fun _ h => h.rests).bind
      intro objects
      refine .of_fact fun hobjects => .pure fun r hr => ⟨?_, hr⟩
      intro obj hmem
      rcases List.mem_cons.mp hmem with rfl | hmem
      · exact Came.leads ‹_›
      · exact hobjects obj hmem

theorem objects_leads (hs : s.cursor.IsInside) :
    Ensures (Rests s) objects (fun objects r => (∀ obj ∈ objects, Leads s obj) ∧ Rests s r)
      (fun _ => Rests s) :=
  fun r hr => objectsWithin_leads hs (r.weight + 1) r hr

end Streams

end Reader
end PdfSyntax
