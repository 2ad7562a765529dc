import PdfSyntax.Proofs.Reader.Lag

/-!
# Reading after a look at the tokens ahead

A reader that has taken tokens ahead and pushed them back reads the object that one reads which has not:
the second one lags behind as long as it has not taken all of these tokens. The exception is a stream
whose payload begins in the midst of them, since the payload is looked for at the cursor itself.
-/

set_option autoImplicit false

namespace PdfSyntax

theorem Obj.ne_int_of_closesDict {token : Obj} (h : token.ClosesDict) (n : Int) : token ≠ .int n := by
  rintro rfl
  rcases h with h | h <;> cases h

theorem Obj.eq_keyword_of_isKeyword {token : Obj} {text : String} (h : token.isKeyword text = true) :
    token = .keyword text := by
  cases token with
  | keyword _ => simpa [Obj.isKeyword] using h
  | _ => cases h

namespace Reader

section Streams
variable {σ : Type} [Cursor σ]

/-- A dictionary, or the stream whose header it is, where streams are read at all. -/
def streamOrDict (entries : Dict) : Reading σ Obj := do
  let next ← token
  if next.isKeyword "stream" then
    streamStart
    return .stream (.dict entries) (← getContext) (← place)
  else
    push next
    return .dict entries

theorem dictOrStream_eq (entries : Dict) (r : Reader σ) : dictOrStream entries r =
    if r.settings.streams = true then streamOrDict entries r else .ok (.dict entries) r := by
  change (if r.settings.streams = true then streamOrDict entries else Pure.pure (.dict entries)) r = _
  split
  · rfl
  · rfl

end Streams

section Objects
variable {start : Reader Buffer} {tokens : List Obj}

/-- All tokens up to the keyword have been taken from the cursor, so it stands where the payload begins;
and if there are tokens left that have been taken ahead, they are beyond that point. -/
theorem streamStart_trails {close : Obj} (hclose : close.ClosesDict)
    (hstreams : start.settings.streams = true) : Trails start tokens
    (AfterAll start tokens [close, .keyword "stream"]) streamStart (fun _ => Hushed) := by
  apply Follows.of_or
  · exact trails_hushed fun like sim => like.streamStart_keep sim
  · refine ⟨streamStart_stays, fun {r s} h => .inr (streamStart_stays.leaves ?_)⟩
    obtain ⟨consumed, -, hlag⟩ := h
    obtain ⟨ahead, -, -, -, hne, htokens, -⟩ := hlag.ahead
    have hemits := hlag.emits
    rw [List.append_nil] at hemits htokens
    exact ⟨hlag.size_pos, r.cursor.offset,
      ⟨hstreams, consumed, close, ahead, r.cursor, hclose, hne, htokens, hemits, rfl⟩, Int.le_refl _⟩

theorem streamOrDict_trails {close : Obj} (hclose : close.ClosesDict)
    (hstreams : start.settings.streams = true) (entries : Dict) : Trails start tokens
    (AfterAll start tokens [close]) (streamOrDict entries) (Made start tokens) := by
  unfold streamOrDict
  apply (token_afterAll [close]).bind
  intro next
  apply Follows.ite
  · intro hnext
    obtain rfl := Obj.eq_keyword_of_isKeyword hnext
    apply (streamStart_trails hclose hstreams).bind
    intro _
    apply Follows.bind (trails_hushed fun like _ => like.getContext_keep)
    intro context
    apply Follows.bind (trails_hushed fun like sim => like.place_keep sim)
    exact fun offset => .pure fun _ _ h => ⟨rfl, .inl h⟩
  · intro _
    apply Follows.bind ((push_after next).from_imp fun h => h.last.after)
    exact fun _ => .pure fun _ _ h => ⟨rfl, h⟩

/-- After the end of a dictionary nothing is pushed back, so the next token is the last one taken. -/
theorem dictOrStream_trails {close : Obj} (hclose : close.ClosesDict) (entries : Dict) :
    Trails start tokens (AfterAll start tokens [close]) (dictOrStream entries)
      (Finished start tokens) := by
  apply Follows.of_or
  · apply (trails_hushed fun like sim => (like.congruence sim).dictOrStream entries).imp
    exact fun h => ⟨.inl h, fun _ => .inl h⟩
  · have hstays : Stays start tokens (dictOrStream entries) := stays_of_over fun _ _ =>
      (over_likeness.congruence (Buffer.beyond_simulation _)).dictOrStream entries
    refine ⟨hstays, fun {r s} h => ?_⟩
    have hafter : AfterAll start tokens [close] r s := .inr h
    have hsettings : r.settings = start.settings := by
      obtain ⟨_, -, hlag⟩ := h
      exact hlag.settings_eq
    rw [dictOrStream_eq, dictOrStream_eq, hafter.between.settings_eq, hsettings]
    by_cases hstreams : start.settings.streams = true
    · rw [if_pos hstreams, if_pos hstreams]
      exact ((streamOrDict_trails hclose hstreams entries).imp fun h => h.finished).follows hafter
    · rw [if_neg hstreams, if_neg hstreams]
      have hmade : Made start tokens (.dict entries) r s := ⟨rfl, hafter.between⟩
      exact .inl (.ok hmade.finished)

/-- After an integer at most two more tokens are taken, and pushed back if they make nothing of it. -/
theorem suffix_trails (n id : Int) : Trails start tokens (After start tokens (.int n)) (suffix id)
    (fun _ => Between start tokens) := by
  apply (token_after_int n).bind
  intro second
  cases hnat : second.natural? Ref.genLimit with
  | none =>
    apply Follows.bind ((push_after second).from_imp fun h => h.after)
    exact fun _ => .pure fun _ _ h => h
  | some gen =>
    obtain ⟨rfl, -⟩ := eq_int_of_natural? hnat
    apply (token_afterAll [.int gen]).bind
    intro third
    apply Follows.ite
    · exact fun _ => .pure fun _ _ h => h.between
    · intro _
      apply Follows.ite
      · exact fun _ => .pure fun _ _ h => h.between
      · intro _
        apply (push_second gen third).bind
        intro _
        exact (push_after (.int gen)).bind fun _ => .pure fun _ _ h => h

section Step
variable {bound : Nat}

/-- From between objects the next one is read to the same end. -/
abbrev ReadsOn (start : Reader Buffer) (tokens : List Obj) (m : Reading Buffer Obj) : Prop :=
  Trails start tokens (Between start tokens) m (Finished start tokens)

/-- A definition is read as part of its own object, and is never the end of the input. -/
abbrev Defines (start : Reader Buffer) (tokens : List Obj) (m : Reading Buffer Obj) : Prop :=
  Trails start tokens (Between start tokens) m (Made start tokens)

theorem objectWithin_trails (definition : ∀ ref, Defines start tokens (definitionWithin bound ref))
    (array : ReadsOn start tokens (arrayWithin bound []))
    (dict : ReadsOn start tokens (dictWithin bound [])) :
    ReadsOn start tokens (objectWithin (bound + 1)) := by
  apply token_between.bind
  intro token
  have hmade : ∀ {object : Obj} {r s}, object.isEnd = false → Between start tokens r s →
      Finished start tokens object r s :=
    fun hend h => Made.finished ⟨hend, h⟩
  cases token with
  | keyword text =>
    apply Follows.ite
    · exact fun _ => .pure fun _ _ h => hmade rfl h.between
    · intro _
      apply Follows.ite
      · exact fun _ => dict.from_imp fun h => h.between
      · intro _
        apply Follows.ite
        · exact fun _ => array.from_imp fun h => h.between
        · exact fun _ => fail_trails _
  | str data =>
    apply Follows.bind ((decipher_trails data).from_imp fun h => h.between)
    exact fun _ => .pure fun _ _ h => hmade rfl h
  | int n =>
    apply settings_trails fun _ _ h => h.between.settings_eq
    intro settings
    apply Follows.ite
    · intro _
      apply (suffix_trails n n).bind
      intro suffix
      cases suffix with
      | nothing => exact .pure fun _ _ h => hmade rfl h
      | reference ref => exact .pure fun _ _ h => hmade rfl h
      | definition ref => exact (within_trails ref (definition ref)).imp fun h => h.finished
    · exact fun _ => .pure fun _ _ h => hmade rfl h.between
  | endOfInput => exact .pure fun _ _ h => ⟨h.between, fun _ => h.afterAll fun _ heq => by cases heq⟩
  | _ => exact .pure fun _ _ h => hmade rfl h.between

theorem definitionWithin_trails (object : ReadsOn start tokens (objectWithin bound)) (ref : Ref) :
    Defines start tokens (definitionWithin (bound + 1) ref) := by
  apply object.bind
  intro body
  apply Follows.ite
  · exact fun _ => .pure fun _ _ h => ⟨rfl, h.between⟩
  · intro _
    apply Follows.bind (token_between.from_imp fun h => h.between)
    intro next
    apply Follows.ite
    · exact fun _ => .pure fun _ _ h => ⟨rfl, h.between⟩
    · exact fun _ => (push_after next).bind fun _ => fail_trails _

theorem arrayWithin_trails (object : ReadsOn start tokens (objectWithin bound))
    (array : ∀ items, ReadsOn start tokens (arrayWithin bound items)) (items : List Obj) :
    ReadsOn start tokens (arrayWithin (bound + 1) items) := by
  apply token_between.bind
  intro next
  apply Follows.ite
  · exact fun _ => .pure fun _ _ h => Made.finished ⟨rfl, h.between⟩
  · intro _
    apply (push_after next).bind
    intro _
    apply object.bind
    intro item
    exact (array (item :: items)).from_imp fun h => h.between

/-- A dictionary ends with a token that is not pushed back; a value that is missing is such a token. -/
theorem dictWithin_trails (object : ReadsOn start tokens (objectWithin bound))
    (dict : ∀ entries, ReadsOn start tokens (dictWithin bound entries)) (entries : Dict) :
    ReadsOn start tokens (dictWithin (bound + 1) entries) := by
  apply token_between.bind
  intro next
  apply Follows.ite
  · intro hclosed
    rw [Bool.or_eq_true] at hclosed
    have hclose : next.ClosesDict := hclosed.imp_right Obj.eq_keyword_of_isKeyword
    apply (dictOrStream_trails hclose entries).from_imp
    exact fun h => h.afterAll (Obj.ne_int_of_closesDict hclose)
  · intro _
    cases next with
    | name name =>
      apply Follows.bind (object.from_imp fun h => h.between)
      intro value
      apply Follows.ite
      · intro hend
        rw [render_valueless]
        apply Follows.bind ((record_trails (.valueless name) [value]).from_imp fun h => h.afterAll hend)
        exact fun _ => dictOrStream_trails (.inl hend) entries
      · exact fun _ => (dict _).from_imp fun h => h.between
    | _ => exact fail_trails _

/-- All four activities that read an object, by induction on the bound that they share. -/
theorem all_trail (bound : Nat) : ReadsOn start tokens (objectWithin bound) ∧
    (∀ ref, Defines start tokens (definitionWithin bound ref)) ∧
    (∀ items, ReadsOn start tokens (arrayWithin bound items)) ∧
    (∀ entries, ReadsOn start tokens (dictWithin bound entries)) := by
  induction bound with
  | zero => exact ⟨throw_trails _, fun _ => throw_trails _, fun _ => throw_trails _,
      fun _ => throw_trails _⟩
  | succ bound ih =>
    obtain ⟨object, definition, array, dict⟩ := ih
    exact ⟨objectWithin_trails definition (array []) (dict []), definitionWithin_trails object,
      arrayWithin_trails object array, dictWithin_trails object dict⟩

end Step
end Objects

section Peek
variable {r r' : Reader Buffer} {count : Nat} {tokens : List Obj}

/-- A payload begins in the midst of some tokens ahead, at a keyword behind the end of a dictionary that
the next object takes in. -/
def SplitsPayload (r : Reader Buffer) (tokens : List Obj) : Prop :=
  r.settings.streams = true ∧ ∃ front close rest last, close.ClosesDict ∧ rest ≠ [] ∧
    tokens = front ++ [close, .keyword "stream"] ++ rest ∧
    take (front.length + 2) r = .ok (front ++ [close, .keyword "stream"]) last ∧
    Leaves (fun after => last.cursor.offset ≤ after.cursor.offset) (object r)

/-- No payload is split by a look that stops at the first keyword that may begin one. -/
theorem not_splitsPayload (h : .keyword "stream" ∉ tokens.dropLast) : ¬ r.SplitsPayload tokens := by
  rintro ⟨-, front, close, rest, last, -, hne, rfl, -⟩
  apply h
  rw [List.dropLast_append_of_ne_nil hne]
  simp

/-- Right after a look ahead the reader that has not looked lags behind by all tokens. -/
theorem between_of_peek (hsize : 0 < r.cursor.blockSize) (hp : r.pending = [])
    (h : peek count r = .ok tokens r') : Between r tokens r r' := by
  obtain ⟨last, htake, rfl⟩ := take_of_peek h
  obtain ⟨hemits, told, records, hlast⟩ := emits_of_take hp htake
  cases tokens with
  | nil =>
    refine .inl ⟨told, records, ?_⟩
    rw [hemits.eq_of_nil] at hlast
    rw [hlast]
    rfl
  | cons token rest =>
    refine .inr ⟨[], [], .nothing, rfl, hsize, hp, .nil _, token :: rest, last.cursor, told, records,
      by simp, rfl, hemits, ?_⟩
    rw [hlast]
    simp only [hp, List.append_nil, List.nil_append]

/-- What a bound on the nesting is high enough for two readers does not matter to either. -/
theorem object_follows (hsize : 0 < r.cursor.blockSize) (hsize' : 0 < r'.cursor.blockSize)
    (h : Between r tokens r r') :
    SimilarEnd (Finished r tokens) (object r) (object r') ∨ Leaves (PastPayload r tokens) (object r) := by
  have hreads : ReadsOn r tokens (objectWithin (2 * r.weight + 2 + (2 * r'.weight + 2))) :=
    (all_trail _).1
  have hfollows := hreads.follows h
  rwa [objectWithin_eq_of_wanes Buffer.wanes hsize (Nat.le_add_right _ _),
    objectWithin_eq_of_wanes Buffer.wanes hsize' (Nat.le_add_left _ _)] at hfollows

theorem splitsPayload_of_leaves (hp : r.pending = [])
    (h : Leaves (PastPayload r tokens) (object r)) : r.SplitsPayload tokens := by
  have hsplits : ∀ {after : Reader Buffer}, PastPayload r tokens after →
      (∀ point, point ≤ after.cursor.offset →
        Leaves (fun after => point ≤ after.cursor.offset) (object r)) → r.SplitsPayload tokens := by
    intro after hpast hleaves
    obtain ⟨-, point, ⟨hstreams, front, close, rest, cursor, hclose, hne, htokens, hemits, rfl⟩, hle⟩ :=
      hpast
    obtain ⟨told, records, htake⟩ := take_of_emits hp hemits
    rw [List.length_append] at htake
    exact ⟨hstreams, front, close, rest, _, hclose, hne, htokens, htake, hleaves _ hle⟩
  cases hobject : object r with
  | ok obj after =>
    rw [hobject] at h
    exact hsplits h fun point hle => by rwa [hobject]
  | error e after =>
    rw [hobject] at h
    exact hsplits h fun point hle => by rwa [hobject]

/-- The next object is the same after a look ahead, unless that went beyond the beginning of its
payload. -/
theorem object_of_peek (hsize : 0 < r.cursor.blockSize) (hp : r.pending = [])
    (h : peek count r = .ok tokens r') (hsplits : ¬ r.SplitsPayload tokens) :
    SimilarEnd (Finished r tokens) (object r) (object r') := by
  have hsize' : 0 < r'.cursor.blockSize := by
    obtain ⟨last, htake, rfl⟩ := take_of_peek h
    exact (emits_of_take hp htake).1.size_pos hsize
  rcases object_follows hsize hsize' (between_of_peek hsize hp h) with hsimilar | hleaves
  · exact hsimilar
  · exact absurd (splitsPayload_of_leaves hp hleaves) hsplits

end Peek
end Reader
end PdfSyntax
