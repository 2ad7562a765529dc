import PdfSyntax.Proofs.Reader.Pushback

/-!
# Reading objects is descending by the grammar

With plain settings, an object read off the tokens ahead is the one that the grammar reads off them, a
mistake is the mistake of the grammar, and either way the tokens ahead afterwards are those that the
grammar leaves. The four activities that read an object follow the four functions of the grammar.
-/

set_option autoImplicit false

namespace PdfSyntax.Reader

def Comes (start : Reader Direct) (mayCut : Prop) (before : List String) {limit : Nat}
    (p : Grammar.Parsed limit) (obj : Obj) (r : Reader Direct) : Prop :=
  p.outcome = .ok obj ∧ Ahead start mayCut (before ++ p.dropped) p.rest r

def Stops (start : Reader Direct) (mayCut : Prop) (before : List String) {limit : Nat}
    (p : Grammar.Parsed limit) (e : Failure) (r : Reader Direct) : Prop :=
  (∃ fault offset, e = .malformed fault offset ∧ p.outcome = .error fault) ∧
    Ahead start mayCut (before ++ p.dropped) p.rest r

/-- From some tokens ahead an activity comes to what is parsed, or stops as parsed. -/
def Reads (start : Reader Direct) (mayCut : Prop) (before : List String) (tokens : List Obj)
    (m : Reading Direct Obj) {limit : Nat} (p : Grammar.Parsed limit) : Prop :=
  Ensures (Ahead start mayCut before tokens) m (Comes start mayCut before p)
    (Stops start mayCut before p)

section Descent
variable {start : Reader Direct} {mayCut : Prop} {before dropped : List String} {tokens : List Obj}
variable {limit limit' : Nat} {m : Reading Direct Obj}

theorem length_le_pendingWeight (pending : List Obj) : pending.length ≤ pendingWeight pending := by
  induction pending with
  | nil => exact Nat.le_refl _
  | cons token pending ih =>
    simp only [pendingWeight, List.length_cons]
    split <;> omega

theorem Reads.after {p : Grammar.Parsed limit} (h : Reads start mayCut (before ++ dropped) tokens m p)
    (hle : limit ≤ limit') :
    Ensures (Ahead start mayCut (before ++ dropped) tokens) m
      (Comes start mayCut before (p.after dropped hle))
      (Stops start mayCut before (p.after dropped hle)) := by
  unfold Comes Stops Grammar.Parsed.after
  rw [← List.append_assoc]
  exact h

theorem Reads.after_nil {p : Grammar.Parsed limit} (h : Reads start mayCut before tokens m p)
    (hle : limit ≤ limit') : Reads start mayCut before tokens m (p.after [] hle) := h

/-- What follows an object starts with the tokens that the object leaves, and a mistake in the object is
the mistake of the whole. -/
theorem Reads.bind {p : Grammar.Parsed limit} {q : Grammar.Parsed limit'} {f : Obj → Reading Direct Obj}
    (h : Reads start mayCut before tokens m p)
    (hok : ∀ obj, p.outcome = .ok obj →
      Ensures (Ahead start mayCut (before ++ p.dropped) p.rest) (f obj) (Comes start mayCut before q)
        (Stops start mayCut before q))
    (herror : ∀ fault, p.outcome = .error fault →
      q.outcome = .error fault ∧ q.dropped = p.dropped ∧ q.rest = p.rest) :
    Reads start mayCut before tokens (m >>= f) q := by
  apply Ensures.bind (Ensures.weaken h (fun _ h => h) (fun _ _ h => h) ?_)
  · exact fun obj => Ensures.of_fact (hok obj)
  · intro e r hstops
    rcases hstops with ⟨⟨fault, offset, he, hfault⟩, hahead⟩
    obtain ⟨houtcome, hdropped, hrest⟩ := herror fault hfault
    refine ⟨⟨fault, offset, he, houtcome⟩, ?_⟩
    rw [hdropped, hrest]
    exact hahead

theorem Reads.within {p : Grammar.Parsed limit} (h : Reads start mayCut before tokens m p) (ref : Ref) :
    Reads start mayCut before tokens (within ref m) p := by
  intro r hr
  have hm := h { r with context := ref } { hr with }
  unfold Reader.within
  cases hend : m { r with context := ref } with
  | ok obj r' =>
    rw [hend] at hm
    exact ⟨hm.1, { hm.2 with }⟩
  | error e r' =>
    rw [hend] at hm
    exact ⟨hm.1, { hm.2 with }⟩

theorem pure_comes {obj : Obj} {rest : List Obj} {h : rest.length ≤ limit}
    {E : Failure → Reader Direct → Prop} :
    Ensures (Ahead start mayCut (before ++ dropped) rest) (pure obj)
      (Comes start mayCut before ⟨.ok obj, dropped, rest, h⟩) E :=
  .pure fun _ hr => ⟨rfl, hr⟩

theorem fail_stops {fault : Fault} {rest : List Obj} {h : rest.length ≤ limit}
    {Q : Obj → Reader Direct → Prop} :
    Ensures (Ahead start mayCut (before ++ dropped) rest) (fail fault) Q
      (Stops start mayCut before ⟨.error fault, dropped, rest, h⟩) :=
  fail_ensures fun _ hr => ⟨⟨fault, _, rfl, rfl⟩, hr⟩

theorem reads_pure {obj : Obj} {h : tokens.length ≤ limit} :
    Reads start mayCut before tokens (pure obj) ⟨.ok obj, [], tokens, h⟩ :=
  pure_comes.weaken (fun _ hr => by rwa [List.append_nil]) (fun _ _ h => h) (fun _ _ h => h)

theorem reads_fail {fault : Fault} {h : tokens.length ≤ limit} :
    Reads start mayCut before tokens (fail fault) ⟨.error fault, [], tokens, h⟩ :=
  fail_stops.weaken (fun _ hr => by rwa [List.append_nil]) (fun _ _ h => h) (fun _ _ h => h)

theorem suffix_eq_nothing {references : Bool} {n : Int}
    (h : (tokens.headD .endOfInput).natural? Ref.genLimit = none) :
    Grammar.suffix references n tokens = .nothing := by
  unfold Grammar.suffix
  split
  · next gen third rest =>
    have hgen : ¬ (0 ≤ gen ∧ gen < Ref.genLimit) := by
      intro hrange
      simp [Obj.natural?, hrange] at h
    rw [if_neg (fun hall => hgen hall.2.2)]
  · rfl

theorem suffix_eq_nothing_of_not {references : Bool} {n : Int}
    (h : ¬ (references ∧ 0 ≤ n ∧ n < Ref.idLimit)) :
    Grammar.suffix references n tokens = .nothing := by
  unfold Grammar.suffix
  split
  · rw [if_neg (fun hall => h ⟨hall.1, hall.2.1⟩)]
  · rfl

theorem suffix_ahead (plain : start.settings.IsPlain) {n : Int}
    (hreferences : start.settings.references = true) (hn : 0 ≤ n ∧ n < Ref.idLimit)
    {E : Failure → Reader Direct → Prop} :
    Ensures (Ahead start mayCut before tokens) (suffix n)
      (fun suffix r => suffix = Grammar.suffix start.settings.references n tokens ∧
        Ahead start mayCut before
          (match suffix with | .nothing => tokens | _ => tokens.drop 2) r) E := by
  refine .of_promise fun r hr => ?_
  have admits := hr.admits
  apply (token_ahead plain).bind
  intro second
  refine .of_fact fun hsecond => ?_
  cases hnat : second.natural? Ref.genLimit with
  | none =>
    apply (push_ahead _ admits hsecond).bind
    rw [hsecond] at hnat
    exact fun _ => .pure fun r hr => ⟨(suffix_eq_nothing hnat).symm, hr⟩
  | some gen =>
    obtain ⟨hint, hgen⟩ := eq_int_of_natural? hnat
    cases tokens with
    | nil => rw [hsecond] at hint; cases hint
    | cons first rest =>
      obtain rfl : first = .int gen := hsecond.symm.trans hint
      have admits' : ∀ token ∈ rest, start.settings.Admits token :=
        fun token ht => admits token (List.mem_cons_of_mem _ ht)
      apply (token_ahead plain).bind
      intro third
      refine .of_fact fun hthird => ?_
      have hsuffix : Grammar.suffix start.settings.references n (.int gen :: rest) =
          if third.isKeyword "R" then .reference ⟨n, gen⟩
          else if third.isKeyword "obj" then .definition ⟨n, gen⟩
          else .nothing := by
        cases rest with
        | nil => rw [hthird]; rfl
        | cons next rest =>
          obtain rfl : third = next := hthird
          simp only [Grammar.suffix, hreferences, hn, hgen, and_self, if_true]
      rw [hsuffix]
      apply Ensures.ite
      · intro hR
        exact .pure fun r hr => ⟨by rw [if_pos hR], by cases rest <;> exact hr⟩
      · intro hR
        apply Ensures.ite
        · intro hobj
          exact .pure fun r hr => ⟨by rw [if_neg hR, if_pos hobj], by cases rest <;> exact hr⟩
        · intro hobj
          apply (push_ahead _ admits' hthird).bind
          intro _
          apply (push_ahead _ admits hsecond).bind
          exact fun _ => .pure fun r hr => ⟨by rw [if_neg hR, if_neg hobj], hr⟩

theorem dictOrStream_comes (plain : start.settings.IsPlain) {entries : Dict}
    {h : tokens.length ≤ limit} {E : Failure → Reader Direct → Prop} :
    Ensures (Ahead start mayCut (before ++ dropped) tokens) (dictOrStream entries)
      (Comes start mayCut before ⟨.ok (.dict entries), dropped, tokens, h⟩) E := by
  refine .of_promise fun r hr => ?_
  have admits := hr.admits
  apply getSettings_ahead.bind_of_eq
  apply Ensures.ite
  · intro hstreams
    apply (token_ahead plain).bind
    intro next
    refine .of_fact fun hnext => ?_
    have hstream : next.isKeyword "stream" = false := by
      cases tokens with
      | nil => rw [hnext]; rfl
      | cons first rest =>
        rw [hnext]
        exact (admits first List.mem_cons_self).2 hstreams
    rw [hstream]
    exact (push_ahead _ admits hnext).bind fun _ => pure_comes
  · exact fun _ => pure_comes

theorem dictOrStream_reads (plain : start.settings.IsPlain) {entries : Dict}
    {h : tokens.length ≤ limit} :
    Reads start mayCut before tokens (dictOrStream entries) ⟨.ok (.dict entries), [], tokens, h⟩ :=
  (dictOrStream_comes plain).weaken (fun _ hr => by rwa [List.append_nil]) (fun _ _ h => h)
    (fun _ _ h => h)

variable (plain : start.settings.IsPlain)
include plain

/-- One token ahead at least is needed for each two steps of the bound. -/
def ReadsWithin (start : Reader Direct) (mayCut : Prop) (bound margin : Nat)
    (m : Reading Direct Obj) (p : (tokens : List Obj) → Grammar.Parsed tokens.length) : Prop :=
  ∀ before tokens, 2 * tokens.length + margin ≤ bound →
    Reads start mayCut before tokens m (p tokens)

theorem objectWithin_reads {bound : Nat}
    (definition : ∀ ref, ReadsWithin start mayCut bound 2 (definitionWithin bound ref)
      (Grammar.definitionFrom start.settings.references ref))
    (array : ReadsWithin start mayCut bound 2 (arrayWithin bound [])
      (Grammar.arrayFrom start.settings.references []))
    (dict : ReadsWithin start mayCut bound 2 (dictWithin bound [])
      (Grammar.dictFrom start.settings.references [])) :
    ReadsWithin start mayCut (bound + 1) 1 (objectWithin (bound + 1))
      (Grammar.object start.settings.references) := by
  intro before tokens hbound
  apply (token_ahead plain).bind_of_eq
  cases tokens with
  | nil => exact reads_pure
  | cons first tokens =>
    refine Reads.after_nil ?_ (Nat.le_succ _)
    have hlength : 2 * tokens.length + 2 ≤ bound := by
      rw [List.length_cons] at hbound
      omega
    cases first with
    | keyword text =>
      rw [Grammar.objectFrom]
      by_cases hnull : text = "null"
      · subst hnull
        exact reads_pure
      · by_cases hdict : text = "<<"
        · subst hdict
          exact dict before tokens hlength
        · by_cases harray : text = "["
          · subst harray
            exact array before tokens hlength
          · simp only [objectFrom, List.headD_cons, List.tail_cons, if_neg hnull, if_neg hdict,
              if_neg harray]
            exact reads_fail
    | str data =>
      rw [Grammar.objectFrom_simple (by simp) (by simp)]
      apply (decipher_ahead plain data).bind_of_eq
      exact reads_pure
    | int n =>
      apply getSettings_ahead.bind_of_eq
      rw [Grammar.objectFrom]
      apply Ensures.ite
      · intro hbegins
        apply (suffix_ahead plain hbegins.1 hbegins.2).bind
        intro suffix
        refine .of_fact fun hsuffix => ?_
        have hsuffix : suffix = Grammar.suffix start.settings.references n tokens := hsuffix
        rw [← hsuffix]
        cases suffix with
        | nothing => exact reads_pure
        | reference ref => exact reads_pure
        | definition ref =>
          have hdrop : 2 * (tokens.drop 2).length + 2 ≤ bound := by
            rw [List.length_drop]
            omega
          exact ((definition ref before (tokens.drop 2) hdrop).within ref).after_nil _
      · intro hbegins
        rw [suffix_eq_nothing_of_not hbegins]
        exact reads_pure
    | _ =>
      rw [Grammar.objectFrom_simple (by simp) (by simp)]
      exact reads_pure

theorem definitionWithin_reads {bound : Nat} (ref : Ref)
    (object : ReadsWithin start mayCut bound 1 (objectWithin bound)
      (Grammar.object start.settings.references)) :
    ReadsWithin start mayCut (bound + 1) 2 (definitionWithin (bound + 1) ref)
      (Grammar.definitionFrom start.settings.references ref) := by
  intro before tokens hbound
  refine .of_promise fun r hr => ?_
  have admits := hr.admits
  have hobject := object before tokens (by omega)
  cases tokens with
  | nil =>
    rw [Grammar.definitionFrom]
    apply hobject.bind
    · intro body hbody
      cases hbody
      apply (token_ahead plain).bind_of_eq
      exact (push_ahead [] (by simp) rfl).bind fun _ => fail_stops
    · intro fault hfault
      cases hfault
  | cons first tokens =>
    have hordinary := fun obj => @Grammar.ordinary_of_objectFrom start.settings.references obj first
      tokens (admits first List.mem_cons_self).1
    have hobject : Reads start mayCut before (first :: tokens) (objectWithin bound)
      (Grammar.objectFrom start.settings.references first tokens) := hobject
    rw [Grammar.definitionFrom]
    generalize Grammar.objectFrom start.settings.references first tokens = p at hobject hordinary ⊢
    obtain ⟨outcome, dropped, rest, hle⟩ := p
    apply hobject.bind
    · intro body hbody
      obtain rfl : outcome = .ok body := hbody
      obtain ⟨-, hstream⟩ := hordinary body rfl
      rw [hstream]
      refine .of_promise fun r hr => ?_
      have admits := hr.admits
      apply (token_ahead plain).bind
      intro next
      refine .of_fact fun hnext => ?_
      cases rest with
      | nil =>
        rw [hnext]
        exact (push_ahead [] admits rfl).bind fun _ => fail_stops
      | cons first rest =>
        obtain rfl : next = first := hnext
        by_cases hend : next.isKeyword "endobj" = true
        · simp only [if_pos hend]
          exact pure_comes
        · simp only [if_neg hend]
          exact (push_ahead (next :: rest) admits rfl).bind fun _ => fail_stops
    · intro fault hfault
      obtain rfl : outcome = .error fault := hfault
      exact ⟨rfl, rfl, rfl⟩

theorem arrayWithin_reads {bound : Nat}
    (object : ReadsWithin start mayCut bound 1 (objectWithin bound)
      (Grammar.object start.settings.references))
    (array : ∀ items, ReadsWithin start mayCut bound 2 (arrayWithin bound items)
      (Grammar.arrayFrom start.settings.references items)) (items : List Obj) :
    ReadsWithin start mayCut (bound + 1) 2 (arrayWithin (bound + 1) items)
      (Grammar.arrayFrom start.settings.references items) := by
  intro before tokens hbound
  refine .of_promise fun r hr => ?_
  have admits := hr.admits
  apply (token_ahead plain).bind
  intro next
  refine .of_fact fun hnext => ?_
  cases tokens with
  | nil =>
    rw [hnext, Grammar.arrayFrom]
    exact reads_pure
  | cons first tokens =>
    obtain rfl : next = first := hnext
    have hlexeme := (admits next List.mem_cons_self).1
    have hobject : Reads start mayCut before (next :: tokens) (objectWithin bound)
      (Grammar.objectFrom start.settings.references next tokens) := object before _ (by omega)
    rw [Grammar.arrayFrom, hlexeme.isEnd_eq_false, Bool.false_or]
    by_cases hclose : next.isKeyword "]" = true
    · rw [if_pos hclose, if_pos hclose]
      exact reads_pure
    · rw [if_neg hclose, if_neg hclose]
      apply (push_ahead (next :: tokens) admits rfl).bind
      intro _
      generalize Grammar.objectFrom start.settings.references next tokens = p at hobject ⊢
      obtain ⟨outcome, dropped, rest, hle⟩ := p
      apply hobject.bind
      · intro item hitem
        obtain rfl : outcome = .ok item := hitem
        have hrest : 2 * rest.length + 2 ≤ bound := by
          rw [List.length_cons] at hbound
          omega
        exact (array (item :: items) _ rest hrest).after _
      · intro fault hfault
        obtain rfl : outcome = .error fault := hfault
        exact ⟨rfl, rfl, rfl⟩

theorem dictWithin_reads {bound : Nat}
    (object : ReadsWithin start mayCut bound 1 (objectWithin bound)
      (Grammar.object start.settings.references))
    (dict : ∀ entries, ReadsWithin start mayCut bound 2 (dictWithin bound entries)
      (Grammar.dictFrom start.settings.references entries)) (entries : Dict) :
    ReadsWithin start mayCut (bound + 1) 2 (dictWithin (bound + 1) entries)
      (Grammar.dictFrom start.settings.references entries) := by
  intro before tokens hbound
  refine .of_promise fun r hr => ?_
  have admits := hr.admits
  apply (token_ahead plain).bind
  intro next
  refine .of_fact fun hnext => ?_
  cases tokens with
  | nil =>
    rw [hnext, Grammar.dictFrom]
    exact dictOrStream_reads plain
  | cons first tokens =>
    obtain rfl : next = first := hnext
    have hlexeme := (admits next List.mem_cons_self).1
    rw [Grammar.dictFrom.eq_def, hlexeme.isEnd_eq_false, Bool.false_or]
    simp only
    by_cases hclose : next.isKeyword ">>" = true
    · rw [if_pos hclose, if_pos hclose]
      exact dictOrStream_reads plain
    · rw [if_neg hclose, if_neg hclose]
      cases next with
      | name key =>
        rw [List.length_cons] at hbound
        have hobject := object before tokens (by omega)
        cases tokens with
        | nil =>
          apply hobject.bind
          · intro value hvalue
            cases hvalue
            have hloud : ¬ mayCut → before ++ [key] ≠ [] := by simp
            exact (@record_ahead start mayCut (before ++ []) [] _ _ hloud _ _ _).bind
              fun _ => dictOrStream_comes plain
          · intro fault hfault
            cases hfault
        | cons first tokens =>
          have hfirst := (admits first (by simp)).1
          have hordinary := fun obj => @Grammar.ordinary_of_objectFrom start.settings.references obj
            first tokens hfirst
          have hobject : Reads start mayCut before (first :: tokens) (objectWithin bound)
            (Grammar.objectFrom start.settings.references first tokens) := hobject
          simp only
          generalize Grammar.objectFrom start.settings.references first tokens = p at hobject hordinary ⊢
          obtain ⟨outcome, dropped, rest, hle⟩ := p
          apply hobject.bind
          · intro value hvalue
            obtain rfl : outcome = .ok value := hvalue
            obtain ⟨hend, -⟩ := hordinary value rfl
            rw [hend]
            have hrest : 2 * rest.length + 2 ≤ bound := by
              rw [List.length_cons] at hbound
              omega
            exact (dict (insertEntry key value entries) _ rest hrest).after _
          · intro fault hfault
            obtain rfl : outcome = .error fault := hfault
            exact ⟨rfl, rfl, rfl⟩
      | _ => exact reads_fail

/-- All four activities that read an object, by induction on the bound that they share. -/
theorem all_reads (bound : Nat) :
    ReadsWithin start mayCut bound 1 (objectWithin bound) (Grammar.object start.settings.references) ∧
    (∀ ref, ReadsWithin start mayCut bound 2 (definitionWithin bound ref)
      (Grammar.definitionFrom start.settings.references ref)) ∧
    (∀ items, ReadsWithin start mayCut bound 2 (arrayWithin bound items)
      (Grammar.arrayFrom start.settings.references items)) ∧
    (∀ entries, ReadsWithin start mayCut bound 2 (dictWithin bound entries)
      (Grammar.dictFrom start.settings.references entries)) := by
  induction bound with
  | zero =>
    refine ⟨?_, fun _ => ?_, fun _ => ?_, fun _ => ?_⟩
    all_goals
      intro before tokens hbound
      omega
  | succ bound ih =>
    obtain ⟨object, definition, array, dict⟩ := ih
    exact ⟨objectWithin_reads plain definition (array []) (dict []),
      fun ref => definitionWithin_reads plain ref object, arrayWithin_reads plain object array,
      dictWithin_reads plain object dict⟩

omit plain in
/-- Every token ahead weighs something, so the bound on the nesting suffices. -/
theorem length_le_weight {r : Reader Direct} (hr : Ahead start mayCut before tokens r) :
    tokens.length ≤ r.weight := by
  obtain ⟨lexed, ends, hspells, hahead⟩ := hr.spells
  have hlength := congrArg List.length hahead
  have hpending := length_le_pendingWeight r.pending
  have hlexed := hspells.length_le
  have hrest := Direct.length_rest hr.isInside
  simp only [List.length_append] at hlength
  change _ ≤ 2 * r.cursor.left + pendingWeight r.pending
  omega

theorem object_reads :
    Reads start mayCut before tokens object (Grammar.object start.settings.references tokens) := by
  intro r hr
  have hlength := length_le_weight hr
  exact (all_reads plain (2 * r.weight + 2)).1 before tokens (by omega) r hr

end Descent

end PdfSyntax.Reader
