import PdfSyntax.Proofs.Reader.Progress

/-!
# Bounds on the nesting are never reached

Activities with a bound on the depth of calls come to the same end with every bound that is high enough
for what the reader weighs, and that end is not that the bound was too low. What is high enough goes down
by one with each call, and by two with each unit of weight that is spent before the call.
-/

set_option autoImplicit false

namespace PdfSyntax.Reader

variable {σ : Type} [Cursor σ]

/-- What is read as an object after its first token, with a bound on the depth of calls. -/
def objectAfter (bound : Nat) : Obj → Reading σ Obj :=
  objectFrom (definitionWithin bound) (arrayWithin bound []) (dictWithin bound [])

/-- A token pushed back is the first one of the next object. -/
theorem push_objectWithin (bound : Nat) (first : Obj) :
    (push first >>= fun _ => objectWithin (σ := σ) (bound + 1)) = objectAfter bound first := by
  rw [objectWithin_succ]
  rfl

section Bounds
variable {I : σ → Prop} {complete : Prop} {start : Reader σ}

/-- What holds of each activity with bounds of at least `n`, if these are high enough for the weight. -/
structure SettlesFrom (I : σ → Prop) (complete : Prop) (start : Reader σ) (n : Nat) : Prop where
  object : ∀ {bound bound' k j : Nat}, n ≤ bound → n ≤ bound' → 2 * start.weight + 1 ≤ n + 2 * k →
    Settles (Spent I complete start k j) (objectWithin bound) (objectWithin bound')
      (Took I complete start 1 k j) (Stuck I complete start (j + 1))
  /-- An object whose first token is pushed back is no end of the input. -/
  pushed : ∀ {bound bound' k j : Nat} {first : Obj}, n ≤ bound → n ≤ bound' →
    2 * start.weight + 1 ≤ n + 2 * k → first.isEnd = false →
    Settles (Spent I complete start (k + 2) (j + 1)) (push first >>= fun _ => objectWithin bound)
      (push first >>= fun _ => objectWithin bound')
      (fun item r => item.isEnd = false ∧ Spent I complete start (k + 1) (j + 1) r)
      (Stuck I complete start (j + 1))
  definition : ∀ {bound bound' k j : Nat} (ref : Ref), n ≤ bound → n ≤ bound' →
    2 * start.weight ≤ n + 2 * k →
    Settles (Spent I complete start (k + 1) j) (definitionWithin bound ref) (definitionWithin bound' ref)
      (fun object r => object.isEnd = false ∧ Spent I complete start k j r) (Stuck I complete start j)
  array : ∀ {bound bound' k j : Nat} (items : List Obj), n ≤ bound → n ≤ bound' →
    2 * start.weight + 2 ≤ n + 2 * k →
    Settles (Spent I complete start k j) (arrayWithin bound items) (arrayWithin bound' items)
      (fun object r => object.isEnd = false ∧ Spent I complete start k j r) (Stuck I complete start j)
  dict : ∀ {bound bound' k j : Nat} (entries : Dict), n ≤ bound → n ≤ bound' →
    2 * start.weight ≤ n + 2 * k →
    Settles (Spent I complete start (k + 1) j) (dictWithin bound entries) (dictWithin bound' entries)
      (fun object r => object.isEnd = false ∧ Spent I complete start k j r) (Stuck I complete start j)

/-- No reader has spent more than there was. -/
theorem not_spent {k j : Nat} (h : start.weight < k) (r : Reader σ) : ¬ Spent I complete start k j r := by
  intro hr
  have := hr.weight_le
  omega

theorem settlesFrom_zero : SettlesFrom I complete start 0 where
  object _ _ h := .of_false (not_spent (by omega))
  pushed _ _ h _ := .of_false (not_spent (by omega))
  definition _ _ _ h := .of_false (not_spent (by omega))
  array _ _ _ h := .of_false (not_spent (by omega))
  dict _ _ _ h := .of_false (not_spent (by omega))

section Step
variable {n bound bound' k j : Nat}
variable (wanes : Cursor.Wanes I complete) (hb : n ≤ bound) (hb' : n ≤ bound')
variable (settles : SettlesFrom I complete start n)
include wanes hb hb' settles

theorem objectAfter_settles {first : Obj} (hfirst : first.isEnd = false)
    (hn : 2 * start.weight ≤ n + 2 * k) :
    Settles (Spent I complete start (k + 2) (j + 1)) (objectAfter bound first) (objectAfter bound' first)
      (fun object r => object.isEnd = false ∧ Spent I complete start (k + 1) (j + 1) r)
      (Stuck I complete start (j + 1)) := by
  have hless : ∀ r, Spent I complete start (k + 2) (j + 1) r → Spent I complete start (k + 1) (j + 1) r :=
    fun _ h => h.mono (by omega) (Nat.le_refl _)
  cases first with
  | keyword text =>
    apply Settles.ite
    · exact fun _ => .same (.pure fun r h => ⟨rfl, hless r h⟩)
    · intro _
      apply Settles.ite
      · exact fun _ => settles.dict [] hb hb' (by omega)
      · intro _
        apply Settles.ite
        · intro _
          exact (settles.array [] hb hb' (by omega)).weaken (fun _ h => h)
            (fun _ r h => ⟨h.1, hless r h.2⟩) (fun _ _ h => h)
        · exact fun _ => .same (fail_spent rfl)
  | str data =>
    exact .same ((decipher_spent data).bind fun _ => .pure fun r h => ⟨rfl, hless r h⟩)
  | int id =>
    apply Settles.bind (.same getSettings_spent)
    intro settings
    apply Settles.ite
    · intro hcond
      apply Settles.bind (.same (suffix_spent wanes hcond.2))
      intro suffix
      cases suffix with
      | nothing => exact .same (.pure fun r h => ⟨rfl, h⟩)
      | reference ref => exact .same (.pure fun r h => ⟨rfl, hless r h⟩)
      | definition ref =>
        refine .of_fact fun href => ?_
        exact within_settles href (settles.definition ref hb hb' (by omega))
    · exact fun _ => .same (.pure fun r h => ⟨rfl, hless r h⟩)
  | endOfInput => cases hfirst
  | _ => exact .same (.pure fun r h => ⟨rfl, hless r h⟩)

theorem objectWithin_settles (hn : 2 * start.weight ≤ n + 2 * k) :
    Settles (Spent I complete start k j) (objectWithin (bound + 1)) (objectWithin (bound' + 1))
      (Took I complete start 1 k j) (Stuck I complete start (j + 1)) := by
  rw [objectWithin_succ, objectWithin_succ]
  apply Settles.bind (.same (token_took wanes))
  intro first
  apply Settles.of_or
  · refine .of_fact fun hend => ?_
    cases first with
    | endOfInput => exact .same (.pure fun r h => .inl ⟨rfl, h⟩)
    | _ => cases hend
  · refine .of_fact fun hfirst => ?_
    exact (objectAfter_settles wanes hb hb' settles hfirst hn).weaken (fun _ h => h)
      (fun _ _ h => .inr h) (fun _ _ h => h)

theorem definitionWithin_settles (ref : Ref) (hn : 2 * start.weight ≤ n + 1 + 2 * k) :
    Settles (Spent I complete start (k + 1) j) (definitionWithin (bound + 1) ref)
      (definitionWithin (bound' + 1) ref)
      (fun object r => object.isEnd = false ∧ Spent I complete start k j r) (Stuck I complete start j) := by
  have hstuck : ∀ e r, Stuck I complete start (j + 1) e r → Stuck I complete start j e r :=
    fun _ _ h => h.mono (by omega)
  have hless : ∀ r, Spent I complete start (k + 1) j r → Spent I complete start k j r :=
    fun _ h => h.mono (by omega) (Nat.le_refl j)
  apply ((settles.object hb hb' (by omega)).weaken (fun _ h => h) (fun _ _ h => h) hstuck).bind
  intro body
  refine Settles.weaken ?_ (fun _ h => h.spent) (fun _ _ h => h) (fun _ _ h => h)
  apply Settles.ite
  · exact fun _ => .same (.pure fun r h => ⟨rfl, hless r h⟩)
  · intro _
    apply Settles.bind (.same ((token_took wanes).weaken (fun _ h => h) (fun _ _ h => h) hstuck))
    intro next
    apply Settles.ite
    · exact fun _ => .same (.pure fun r h => ⟨rfl, hless r h.spent⟩)
    · exact fun _ => .same ((push_took next).bind fun _ => fail_spent rfl)

theorem arrayWithin_settles (items : List Obj) (hn : 2 * start.weight + 2 ≤ n + 1 + 2 * k) :
    Settles (Spent I complete start k j) (arrayWithin (bound + 1) items) (arrayWithin (bound' + 1) items)
      (fun object r => object.isEnd = false ∧ Spent I complete start k j r) (Stuck I complete start j) := by
  have hstuck : ∀ e r, Stuck I complete start (j + 1) e r → Stuck I complete start j e r :=
    fun _ _ h => h.mono (by omega)
  apply Settles.bind (.same ((token_took wanes).weaken (fun _ h => h) (fun _ _ h => h) hstuck))
  intro next
  apply Settles.ite
  · exact fun _ => .same (.pure fun r h => ⟨rfl, h.spent⟩)
  · intro hnext
    have hnext : next.isEnd = false := by
      simp only [Bool.or_eq_true, not_or, Bool.not_eq_true] at hnext
      exact hnext.1
    have hpushed := settles.pushed (k := k) (j := j) hb hb' (by omega) hnext
    have hrest : ∀ item, Settles
        (fun r => item.isEnd = false ∧ Spent I complete start (k + 1) (j + 1) r)
        (arrayWithin bound (item :: items)) (arrayWithin bound' (item :: items))
        (fun object r => object.isEnd = false ∧ Spent I complete start k j r)
        (Stuck I complete start (j + 1)) := by
      intro item
      refine .of_fact fun _ => ?_
      exact (settles.array (item :: items) hb hb' (by omega)).weaken (fun _ h => h)
        (fun _ _ h => ⟨h.1, h.2.mono (by omega) (by omega)⟩) (fun _ _ h => h)
    have hloop := hpushed.bind hrest
    simp only [bind_assoc] at hloop
    exact hloop.weaken (fun r h => h.more hnext) (fun _ _ h => h) hstuck

theorem dictWithin_settles (entries : Dict) (hn : 2 * start.weight ≤ n + 1 + 2 * k) :
    Settles (Spent I complete start (k + 1) j) (dictWithin (bound + 1) entries)
      (dictWithin (bound' + 1) entries)
      (fun object r => object.isEnd = false ∧ Spent I complete start k j r) (Stuck I complete start j) := by
  have hstuck : ∀ {i : Nat} e r, Stuck I complete start (j + i + 1) e r → Stuck I complete start j e r :=
    fun _ _ h => h.mono (by omega)
  apply Settles.bind
    (.same ((token_took wanes).weaken (fun _ h => h) (fun _ _ h => h) (hstuck (i := 0))))
  intro next
  have hfail : ∀ key, Settles (Spent I complete start (k + 1) j)
      (fail (.nonNameKey key)) (fail (.nonNameKey key))
      (fun (object : Obj) r => object.isEnd = false ∧ Spent I complete start k j r)
      (Stuck I complete start j) := fun _ => .same (fail_spent rfl)
  apply Settles.ite
  · exact fun _ => .same ((dictOrStream_spent wanes entries).from_imp fun _ h => h.spent)
  · intro _
    cases next with
    | name name =>
      refine Settles.weaken ?_ (fun r h => h.more rfl) (fun _ _ h => h) (fun _ _ h => h)
      apply ((settles.object hb hb' (by omega)).weaken (fun _ h => h) (fun _ _ h => h)
        (hstuck (i := 1))).bind
      intro value
      apply Settles.ite
      · intro _
        refine .same (Ensures.from_imp (P := Spent I complete start (k + 1) j) ?_
          fun _ h => h.spent.mono (by omega) (by omega))
        exact (record_spent _ _ _).bind fun _ => dictOrStream_spent wanes entries
      · intro _
        exact (settles.dict _ hb hb' (by omega)).weaken (fun _ h => h.spent)
          (fun _ _ h => ⟨h.1, h.2.mono (by omega) (by omega)⟩) (fun _ _ h => h.mono (by omega))
    | _ => exact (hfail _).weaken (fun _ h => h.spent) (fun _ _ h => h) (fun _ _ h => h)

end Step

/-- By induction on the bounds that suffice. -/
theorem settlesFrom (wanes : Cursor.Wanes I complete) (n : Nat) : SettlesFrom I complete start n := by
  induction n with
  | zero => exact settlesFrom_zero
  | succ n ih =>
    have hsucc : ∀ {bound : Nat}, n + 1 ≤ bound → ∃ bound₀, bound = bound₀ + 1 ∧ n ≤ bound₀ :=
      fun {bound} h => ⟨bound - 1, by omega, by omega⟩
    constructor
    · intro bound bound' k j hb hb' hn
      obtain ⟨bound, rfl, hle⟩ := hsucc hb
      obtain ⟨bound', rfl, hle'⟩ := hsucc hb'
      exact objectWithin_settles wanes hle hle' ih (by omega)
    · intro bound bound' k j first hb hb' hn hfirst
      obtain ⟨bound, rfl, hle⟩ := hsucc hb
      obtain ⟨bound', rfl, hle'⟩ := hsucc hb'
      rw [push_objectWithin, push_objectWithin]
      exact objectAfter_settles wanes hle hle' ih hfirst (by omega)
    · intro bound bound' k j ref hb hb' hn
      obtain ⟨bound, rfl, hle⟩ := hsucc hb
      obtain ⟨bound', rfl, hle'⟩ := hsucc hb'
      exact definitionWithin_settles wanes hle hle' ih ref (by omega)
    · intro bound bound' k j items hb hb' hn
      obtain ⟨bound, rfl, hle⟩ := hsucc hb
      obtain ⟨bound', rfl, hle'⟩ := hsucc hb'
      exact arrayWithin_settles wanes hle hle' ih items (by omega)
    · intro bound bound' k j entries hb hb' hn
      obtain ⟨bound, rfl, hle⟩ := hsucc hb
      obtain ⟨bound', rfl, hle'⟩ := hsucc hb'
      exact dictWithin_settles wanes hle hle' ih entries (by omega)

end Bounds

section Wanes
variable {I : σ → Prop} {complete : Prop} {r : Reader σ}

theorem spent_self (hr : I r.cursor) : Spent I complete r 0 0 r :=
  ⟨hr, rfl, id, Nat.le_refl _, fun hstart => ⟨hstart.2, Nat.le_refl _⟩⟩

variable (wanes : Cursor.Wanes I complete)
include wanes

/-- The bound in use is high enough for the reader as it is, however much lighter than the starting one. -/
theorem object_spent {start : Reader σ} {k j : Nat} : Ensures (Spent I complete start k j) object
    (Took I complete start 1 k j) (Stuck I complete start (j + 1)) := by
  intro r hr
  have hweight := hr.weight_le
  have hexact : Spent I complete start (start.weight - r.weight) j r :=
    { hr with weight_le := by omega }
  have htook := ((settlesFrom wanes (2 * r.weight + 2)).object (Nat.le_refl (2 * r.weight + 2))
    (Nat.le_refl _) (by omega)).2 r hexact
  have hobject : object r = objectWithin (2 * r.weight + 2) r := rfl
  rw [hobject]
  cases hobject : objectWithin (2 * r.weight + 2) r with
  | ok taken s =>
    rw [hobject] at htook
    exact htook.mono (by omega)
  | error e s =>
    rw [hobject] at htook
    exact htook

variable (hr : I r.cursor)
include hr

theorem object_took :
    Ensures (· = r) object (Took I complete r 1 0 0) (Stuck I complete r 1) := by
  rintro s rfl
  exact object_spent wanes s (spent_self hr)

/-- No bound that is at least as high as the one in use makes a difference. -/
theorem objectWithin_eq_of_wanes {bound : Nat} (h : 2 * r.weight + 2 ≤ bound) :
    objectWithin bound r = object r :=
  ((settlesFrom wanes (2 * r.weight + 2)).object h (Nat.le_refl _) (by omega)).1 r (spent_self hr)

end Wanes

section Objects
variable {InFront : σ → Bytes → Prop} (supplies : Supplies InFront) {r : Reader σ} {bytes : Bytes}
variable (hr : InFront r.cursor bytes)
include supplies hr

theorem objectWithin_eq_object {bound : Nat} (h : 2 * r.weight + 2 ≤ bound) :
    objectWithin bound r = object r :=
  objectWithin_eq_of_wanes supplies.wanes ⟨bytes, hr⟩ h

theorem object_ne_exhausted (hanswers : r.decrypt.Answers) (s : Reader σ) :
    object r ≠ .error .exhausted s := by
  intro h
  have hstuck := object_took supplies.wanes ⟨bytes, hr⟩ r rfl
  rw [h] at hstuck
  exact hstuck.ne_exhausted hanswers rfl

end Objects
end PdfSyntax.Reader
