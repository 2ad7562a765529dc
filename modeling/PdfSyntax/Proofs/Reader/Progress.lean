import PdfSyntax.Proofs.Reader.Pending
import PdfSyntax.Proofs.Reader.Waning

/-!
# Reading an object comes to an end

Each token taken makes a reader lighter, and what is pushed back weighs no more than what was taken.
So the bound on the nesting is never reached, and a higher one makes no difference. If its cursor is
complete, a reader that tolerates the end moreover has less unread after every object and after every
failure, unless it comes to the end of the input; and there it stays.
-/

set_option autoImplicit false

namespace PdfSyntax

/-- A decipherment that finds fault with the input only, as long as the object numbers are those of a
file, and that does not pretend that a bound was reached. -/
structure Decipherment.Answers (decrypt : Decipherment) : Prop where
  kind_of_isSmall : ∀ {request e}, request.ref.IsSmall → decrypt request = .error e → e.kind = .input
  ne_exhausted : ∀ request, decrypt request ≠ .error .exhausted

namespace Reader

variable {σ : Type} [Cursor σ]

/-- How many bytes and tokens are still to come, the end of the input apart. -/
def unread (r : Reader σ) : Nat :=
  Cursor.left r.cursor + r.pending.countP fun token => !token.isEnd

/-- A reader that tolerates the end, and that has pushed back the end only where it is: behind all other
tokens, with no byte left. -/
structure IsTidy (r : Reader σ) : Prop where
  tolerant : r.settings.tolerant = true
  context : r.context.IsSmall
  ends_last : r.pending.Pairwise fun a b => a.isEnd = true → b.isEnd = true
  left_eq : (∃ token ∈ r.pending, token.isEnd = true) → Cursor.left r.cursor = 0

/-- A reader that is lighter than the starting one by at least `k`. If its cursor is complete and that
one was tidy, this one is, and has less unread by at least `j`. -/
structure Spent (I : σ → Prop) (complete : Prop) (start : Reader σ) (k j : Nat) (r : Reader σ) :
    Prop where
  cursor : I r.cursor
  decrypt_eq : r.decrypt = start.decrypt
  context : start.context.IsSmall → r.context.IsSmall
  weight_le : r.weight + k ≤ start.weight
  tidy : complete ∧ start.IsTidy → r.IsTidy ∧ r.unread + j ≤ start.unread

/-- A reader that has failed, but not for want of steps, and for the input only if the object numbers
are those of a file. -/
structure Stuck (I : σ → Prop) (complete : Prop) (start : Reader σ) (j : Nat) (e : Failure)
    (r : Reader σ) : Prop where
  cursor : I r.cursor
  decrypt_eq : r.decrypt = start.decrypt
  context : start.context.IsSmall → r.context.IsSmall
  ne_exhausted : start.decrypt.Answers → e ≠ .exhausted
  kind_eq : start.decrypt.Answers → start.context.IsSmall → e.kind = .input
  tidy : complete ∧ start.IsTidy → r.IsTidy ∧ r.unread + j ≤ start.unread

/-- A reader that has taken something: the end of the input, and then nothing is unread, or else something
of weight at least `n`. -/
def Took (I : σ → Prop) (complete : Prop) (start : Reader σ) (n k j : Nat) (taken : Obj)
    (r : Reader σ) : Prop :=
  (taken.isEnd = true ∧ Spent I complete start k j r ∧ (complete ∧ start.IsTidy → r.unread = 0)) ∨
    (taken.isEnd = false ∧ Spent I complete start (k + n) (j + 1) r)

section Pending
variable {token : Obj} {pending : List Obj} {r : Reader σ}

theorem pendingWeight_of_isEnd (h : token.isEnd = true) :
    pendingWeight (token :: pending) = 1 + pendingWeight pending := by
  rw [pendingWeight, if_pos h]

theorem pendingWeight_of_not_isEnd (h : token.isEnd = false) :
    pendingWeight (token :: pending) = 2 + pendingWeight pending := by
  rw [pendingWeight, h]
  rfl

theorem countP_eq_zero (h : ∀ t ∈ pending, t.isEnd = true) :
    pending.countP (fun token => !token.isEnd) = 0 := by
  rw [List.countP_eq_zero]
  intro t ht
  simp [h t ht]

end Pending

section Spending
variable {I : σ → Prop} {complete : Prop} {start : Reader σ} {k j k' j' n : Nat} {r : Reader σ}
variable {α : Type} {E : Failure → Reader σ → Prop} {Q : α → Reader σ → Prop}

theorem Spent.mono (h : Spent I complete start k j r) (hk : k' ≤ k) (hj : j' ≤ j) :
    Spent I complete start k' j' r where
  cursor := h.cursor
  decrypt_eq := h.decrypt_eq
  context := h.context
  weight_le := by
    have := h.weight_le
    omega
  tidy hstart := by
    obtain ⟨htidy, hle⟩ := h.tidy hstart
    exact ⟨htidy, by omega⟩

theorem Stuck.mono {e : Failure} (h : Stuck I complete start j e r) (hj : j' ≤ j) :
    Stuck I complete start j' e r where
  cursor := h.cursor
  decrypt_eq := h.decrypt_eq
  context := h.context
  ne_exhausted := h.ne_exhausted
  kind_eq := h.kind_eq
  tidy hstart := by
    obtain ⟨htidy, hle⟩ := h.tidy hstart
    exact ⟨htidy, by omega⟩

theorem ne_exhausted_of_kind {e : Failure} (h : e.kind = .input) : e ≠ .exhausted := by
  rintro rfl
  cases h

theorem Spent.stuck {e : Failure} (h : Spent I complete start k j r) (hkind : e.kind = .input) :
    Stuck I complete start j e r where
  cursor := h.cursor
  decrypt_eq := h.decrypt_eq
  context := h.context
  ne_exhausted _ := ne_exhausted_of_kind hkind
  kind_eq _ _ := hkind
  tidy := h.tidy

theorem Took.spent {taken : Obj} (h : Took I complete start n k j taken r) :
    Spent I complete start k j r := by
  rcases h with ⟨-, h, -⟩ | ⟨-, h⟩
  · exact h
  · exact h.mono (by omega) (by omega)

theorem Took.more {taken : Obj} (h : Took I complete start n k j taken r) (htaken : taken.isEnd = false) :
    Spent I complete start (k + n) (j + 1) r := by
  rcases h with ⟨hend, -⟩ | ⟨-, h⟩
  · rw [htaken] at hend
    cases hend
  · exact h

theorem Took.mono {taken : Obj} (h : Took I complete start n k j taken r) (hk : k' ≤ k) :
    Took I complete start n k' j taken r := by
  rcases h with ⟨hend, h, hzero⟩ | ⟨hend, h⟩
  · exact .inl ⟨hend, h.mono hk (Nat.le_refl _), hzero⟩
  · exact .inr ⟨hend, h.mono (by omega) (Nat.le_refl _)⟩

theorem IsTidy.moved (h : r.IsTidy) {c : σ} (hle : Cursor.left c ≤ Cursor.left r.cursor) :
    ({ r with cursor := c } : Reader σ).IsTidy where
  tolerant := h.tolerant
  context := h.context
  ends_last := h.ends_last
  left_eq hend := by
    have := h.left_eq hend
    simp only
    omega

/-- Passing over bytes makes a reader lighter by two for each of them. -/
theorem Spent.moved (h : Spent I complete start k j r) {c : σ} (hc : I c)
    (hle : Cursor.left c + n ≤ Cursor.left r.cursor) :
    Spent I complete start (k + 2 * n) (j + n) { r with cursor := c } where
  cursor := hc
  decrypt_eq := h.decrypt_eq
  context := h.context
  weight_le := by
    have := h.weight_le
    simp only [weight] at *
    omega
  tidy hstart := by
    obtain ⟨htidy, hunread⟩ := h.tidy hstart
    refine ⟨htidy.moved (by omega), ?_⟩
    simp only [unread] at *
    omega

/-- What else a reader keeps does not matter. -/
theorem Spent.congr (h : Spent I complete start k j r) {s : Reader σ} (hcursor : s.cursor = r.cursor)
    (hpending : s.pending = r.pending) (hsettings : s.settings = r.settings)
    (hdecrypt : s.decrypt = r.decrypt) (hcontext : start.context.IsSmall → s.context.IsSmall) :
    Spent I complete start k j s where
  cursor := by rw [hcursor]; exact h.cursor
  decrypt_eq := hdecrypt.trans h.decrypt_eq
  context := hcontext
  weight_le := by
    have := h.weight_le
    simpa only [weight, hcursor, hpending] using this
  tidy hstart := by
    obtain ⟨htidy, hunread⟩ := h.tidy hstart
    refine ⟨⟨?_, hcontext hstart.2.context, ?_, ?_⟩, ?_⟩
    · rw [hsettings]
      exact htidy.tolerant
    · rw [hpending]
      exact htidy.ends_last
    · rw [hpending, hcursor]
      exact htidy.left_eq
    · simpa only [unread, hcursor, hpending] using hunread

theorem Spent.recorded (h : Spent I complete start k j r) (level : Level) (message text : String) :
    Spent I complete start k j (r.recorded level message text) := by
  obtain ⟨told, records, heq⟩ := exists_recorded level message text r
  rw [heq]
  exact h.congr rfl rfl rfl rfl h.context

theorem record_spent (level : Level) (message text : String) :
    Ensures (Spent I complete start k j) (record level message (.ok text))
      (fun _ => Spent I complete start k j) E := by
  intro r hr
  rw [record_eq]
  exact hr.recorded level message text

theorem fail_spent {fault : Fault} (h : fault.kind = .input) :
    Ensures (Spent I complete start k j) (fail fault) Q (Stuck I complete start j) :=
  fail_ensures fun _ hr => hr.stuck h

theorem getSettings_spent : Ensures (Spent I complete start k j) getSettings
    (fun _ => Spent I complete start k j) E :=
  fun _ hr => hr

theorem getContext_spent : Ensures (Spent I complete start k j) getContext
    (fun _ => Spent I complete start k j) E :=
  fun _ hr => hr

theorem place_spent : Ensures (Spent I complete start k j) place
    (fun _ => Spent I complete start k j) E :=
  fun _ hr => hr

theorem decipher_spent (data : Bytes) : Ensures (Spent I complete start k j) (decipher data)
    (fun _ => Spent I complete start k j) (Stuck I complete start j) := by
  intro r hr
  have hasked : ∀ request, Spent I complete start k j (r.asking request) :=
    fun request => hr.congr rfl rfl rfl rfl hr.context
  rcases decipher_cases data r with heq | ⟨request, href, ⟨plain, -, heq⟩ | ⟨e, he, heq⟩⟩
  · rw [heq]
    exact hr
  · rw [heq]
    exact hasked request
  · rw [heq]
    rw [hr.decrypt_eq] at he
    have hafter := hasked request
    refine ⟨hafter.cursor, hafter.decrypt_eq, hafter.context, ?_, ?_, hafter.tidy⟩
    · rintro hanswers rfl
      exact hanswers.ne_exhausted request he
    · exact fun hanswers hsmall => hanswers.kind_of_isSmall (href ▸ hr.context hsmall) he

theorem Spent.withContext {ref : Ref} (h : Spent I complete start k j r)
    (href : start.context.IsSmall → ref.IsSmall) :
    Spent I complete start k j { r with context := ref } :=
  h.congr rfl rfl rfl rfl href

theorem Stuck.withContext {ref : Ref} {e : Failure} (h : Stuck I complete start j e r)
    (href : start.context.IsSmall → ref.IsSmall) :
    Stuck I complete start j e { r with context := ref } where
  cursor := h.cursor
  decrypt_eq := h.decrypt_eq
  context := href
  ne_exhausted := h.ne_exhausted
  kind_eq := h.kind_eq
  tidy hstart := by
    obtain ⟨htidy, hunread⟩ := h.tidy hstart
    exact ⟨⟨htidy.tolerant, href hstart.2.context, htidy.ends_last, htidy.left_eq⟩, hunread⟩

/-- The object at hand is changed and changed back, from one with a number as in a file to another. -/
theorem within_settles {ref : Ref} (href : ref.IsSmall) {m n : Reading σ α} {P : α → Prop} {i : Nat}
    (h : Settles (Spent I complete start k j) m n (fun a r => P a ∧ Spent I complete start k' j' r)
      (Stuck I complete start i)) :
    Settles (Spent I complete start k j) (within ref m) (within ref n)
      (fun a r => P a ∧ Spent I complete start k' j' r) (Stuck I complete start i) := by
  constructor
  · intro r hr
    simp only [within, h.1 _ (hr.withContext fun _ => href)]
  · intro r hr
    have hinner := h.2 _ (hr.withContext fun _ => href)
    simp only [within]
    cases hm : m { r with context := ref } with
    | ok a r' =>
      rw [hm] at hinner
      exact ⟨hinner.1, hinner.2.withContext hr.context⟩
    | error e r' =>
      rw [hm] at hinner
      exact Stuck.withContext hinner hr.context

theorem push_spent {token : Obj} (htoken : token.isEnd = false) :
    Ensures (Spent I complete start (k + 2) (j + 1)) (push token)
      (fun _ => Spent I complete start k j) E := by
  intro r hr
  refine ⟨hr.cursor, hr.decrypt_eq, hr.context, ?_, fun hstart => ?_⟩
  · have := hr.weight_le
    simp only [weight, pendingWeight_of_not_isEnd htoken] at *
    omega
  · obtain ⟨htidy, hunread⟩ := hr.tidy hstart
    refine ⟨⟨htidy.tolerant, htidy.context, ?_, ?_⟩, ?_⟩
    · exact .cons (fun t _ hend => by rw [htoken] at hend; cases hend) htidy.ends_last
    · rintro ⟨t, ht, hend⟩
      rcases List.mem_cons.mp ht with rfl | ht
      · rw [htoken] at hend
        cases hend
      · exact htidy.left_eq ⟨t, ht, hend⟩
    · simp only [unread, List.countP_cons, htoken] at *
      simp only [Bool.not_false, if_true]
      omega

/-- The end of the input is pushed back only where nothing is unread. -/
theorem push_end {token : Obj} (htoken : token.isEnd = true) :
    Ensures (fun r => Spent I complete start (k + 1) j r ∧ (complete ∧ start.IsTidy → r.unread = 0))
      (push token) (fun _ => Spent I complete start k j) E := by
  rintro r ⟨hr, hzero⟩
  refine ⟨hr.cursor, hr.decrypt_eq, hr.context, ?_, fun hstart => ?_⟩
  · have := hr.weight_le
    simp only [weight, pendingWeight_of_isEnd htoken] at *
    omega
  · obtain ⟨htidy, hunread⟩ := hr.tidy hstart
    have hzero := hzero hstart
    have hleft : Cursor.left r.cursor = 0 := by
      simp only [unread] at hzero
      omega
    have hends : ∀ t ∈ r.pending, t.isEnd = true := by
      have hcount : r.pending.countP (fun token => !token.isEnd) = 0 := by
        simp only [unread] at hzero
        omega
      simpa [List.countP_eq_zero] using hcount
    refine ⟨⟨htidy.tolerant, htidy.context, ?_, fun _ => hleft⟩, ?_⟩
    · exact .cons (fun t ht _ => hends t ht) htidy.ends_last
    · simp only [unread, List.countP_cons, htoken] at *
      simp only [Bool.not_true, Bool.false_eq_true, if_false]
      omega

/-- What was taken can be pushed back, at the cost of one if it is the end of the input. -/
theorem push_took (token : Obj) :
    Ensures (Took I complete start 2 (k + 1) j token) (push token) (fun _ => Spent I complete start k j)
      E := by
  intro r hr
  rcases hr with ⟨hend, hr, hzero⟩ | ⟨hend, hr⟩
  · exact push_end (E := E) hend r ⟨hr, hzero⟩
  · exact push_spent (E := E) hend r (hr.mono (by omega) (Nat.le_refl _))

section Popped
variable {first : Obj} {rest : List Obj} (hp : r.pending = first :: rest)
include hp

theorem IsTidy.popped (h : r.IsTidy) : ({ r with pending := rest } : Reader σ).IsTidy where
  tolerant := h.tolerant
  context := h.context
  ends_last := (hp ▸ h.ends_last).of_cons
  left_eq := by
    rintro ⟨token, htoken, hend⟩
    exact h.left_eq ⟨token, hp ▸ List.mem_cons_of_mem first htoken, hend⟩

/-- Once the end of the input has come out, nothing is unread. -/
theorem IsTidy.unread_popped (h : r.IsTidy) (hend : first.isEnd = true) :
    ({ r with pending := rest } : Reader σ).unread = 0 := by
  have hends := h.ends_last
  rw [hp] at hends
  have hleft := h.left_eq ⟨first, hp ▸ List.mem_cons_self, hend⟩
  have hrest := countP_eq_zero fun t ht => (List.pairwise_cons.mp hends).1 t ht hend
  simp only [unread, hleft, hrest]

/-- A token that was pushed back is taken at its weight. -/
theorem Spent.popped (h : Spent I complete start k j r) :
    Took I complete start 2 k j first { r with pending := rest } := by
  have hweight := h.weight_le
  cases hend : first.isEnd with
  | true =>
    refine .inl ⟨hend, ⟨h.cursor, h.decrypt_eq, h.context, ?_, fun hstart => ?_⟩,
      fun hstart => (h.tidy hstart).1.unread_popped hp hend⟩
    · simp only [weight, hp, pendingWeight_of_isEnd hend] at *
      omega
    · obtain ⟨htidy, hunread⟩ := h.tidy hstart
      exact ⟨htidy.popped hp, by simpa [unread, hp, hend] using hunread⟩
  | false =>
    refine .inr ⟨hend, h.cursor, h.decrypt_eq, h.context, ?_, fun hstart => ?_⟩
    · simp only [weight, hp, pendingWeight_of_not_isEnd hend] at *
      omega
    · obtain ⟨htidy, hunread⟩ := h.tidy hstart
      refine ⟨htidy.popped hp, ?_⟩
      simp only [unread, hp, List.countP_cons, hend, Bool.not_false, if_true] at hunread ⊢
      omega

end Popped

/-- Of the bytes a token takes at least one, unless the end of the input is all there is. -/
theorem token_took (wanes : Cursor.Wanes I complete) :
    Ensures (Spent I complete start k j) token (Took I complete start 2 k j)
      (Stuck I complete start (j + 1)) := by
  intro r hr
  cases hp : r.pending with
  | cons first rest =>
    rw [token_of_pending hp]
    exact hr.popped hp
  | nil =>
    have hlex := wanes.lex_gap r.settings.tolerant hr.cursor
    rw [token_of_no_pending hp]
    cases h : lex r.settings.tolerant .gap r.cursor with
    | error e c =>
      rw [h] at hlex
      obtain ⟨hc, hle, hkind, htolerant⟩ := hlex
      have hmoved := (hr.moved (n := 0) hc hle).stuck hkind
      refine { hmoved with tidy := fun hstart => ?_ }
      have := (hr.tidy hstart).1.tolerant
      rw [htolerant hstart.1] at this
      cases this
    | ok verdict c =>
      rw [h] at hlex
      obtain ⟨hc, hle, hzero, hlt⟩ := hlex
      by_cases hend : verdict = .token .endOfInput
      · rw [hend]
        refine .inl ⟨rfl, hr.moved (n := 0) hc hle, fun hstart => ?_⟩
        simp only [unread, hp, List.countP_nil, hzero hend hstart.1]
      · have hmoved : Spent I complete start (k + 2) (j + 1) { r with cursor := c } :=
          hr.moved (n := 1) hc (hlt hend)
        cases verdict with
        | token token =>
          rcases isToken_of_lex h with htoken | rfl
          · exact .inr ⟨htoken.isEnd_eq_false, hmoved⟩
          · exact absurd rfl hend
        | fault fault => exact hmoved.stuck (Fault.kind_of_isLexical (isReached_of_lex h).isLexical)
        | cutShort string => exact .inr ⟨rfl, hmoved.recorded _ _ _⟩

/-- A byte can be given back unless it is the filler at the end. -/
theorem byte_spent (wanes : Cursor.Wanes I complete) : Ensures (Spent I complete start k j) byte
    (fun b r => Spent I complete start k j r ∧ (b ≠ Byte.lineFeed →
      Spent I complete start k j { r with cursor := Cursor.back r.cursor }))
    (Stuck I complete start j) := by
  intro r hr
  have hnext := wanes.next r.settings.tolerant hr.cursor
  cases h : Cursor.next r.settings.tolerant r.cursor with
  | error e c =>
    rw [h] at hnext
    obtain ⟨hc, hle, hkind, -⟩ := hnext
    rw [byte_of_error h]
    exact (hr.moved (n := 0) hc hle).stuck hkind
  | ok b? c =>
    rw [h] at hnext
    rw [byte_of_ok h]
    cases b? with
    | none => exact ⟨hr.moved (n := 0) hnext.1 hnext.2.1, fun hne => absurd rfl hne⟩
    | some b =>
      obtain ⟨hc, hback, hle, -⟩ := hnext
      have hlt := Cursor.left_next h
      exact ⟨hr.moved (n := 0) hc (by omega), fun _ => hr.moved (n := 0) hback hle⟩

theorem streamStart_spent (wanes : Cursor.Wanes I complete) : Ensures (Spent I complete start k j) streamStart
    (fun _ => Spent I complete start k j) (Stuck I complete start j) := by
  apply (byte_spent wanes).bind
  intro first
  apply Ensures.ite
  · intro _
    refine Ensures.from_imp ?_ fun _ h => h.1
    apply (byte_spent wanes).bind
    intro second
    apply Ensures.ite
    · intro hne
      apply Ensures.bind (Q := fun _ => Spent I complete start k j)
      · intro r hcases
        exact hcases.2 (by simpa using hne)
      · exact fun _ => record_spent _ _ _
    · exact fun _ => .pure fun _ h => h.1
  · intro _
    apply Ensures.ite
    · exact fun _ => (fail_spent rfl).from_imp fun _ h => h.1
    · exact fun _ => .pure fun _ h => h.1

/-- What is looked at and not used is pushed back, which costs one at most. -/
theorem suffix_spent (wanes : Cursor.Wanes I complete) {id : Int} (hid : 0 ≤ id ∧ id < Ref.idLimit) :
    Ensures (Spent I complete start (k + 1) j) (suffix id)
      (fun suffix r => match suffix with
        | .nothing => Spent I complete start k j r
        | .reference _ => Spent I complete start (k + 1) j r
        | .definition ref => ref.IsSmall ∧ Spent I complete start (k + 1) j r)
      (Stuck I complete start j) := by
  have hstuck : ∀ {i : Nat} e r, Stuck I complete start (j + i + 1) e r → Stuck I complete start j e r :=
    fun _ _ h => h.mono (by omega)
  apply ((token_took wanes).weaken (fun _ h => h) (fun _ _ h => h) (hstuck (i := 0))).bind
  intro second
  cases hnat : second.natural? Ref.genLimit with
  | none => exact (push_took second).bind fun _ => .pure fun _ h => h
  | some gen =>
    obtain ⟨rfl, hgen⟩ := eq_int_of_natural? hnat
    have hint : (Obj.int gen).isEnd = false := rfl
    refine Ensures.from_imp ?_ fun r h => h.more hint
    apply ((token_took wanes).weaken (fun _ h => h) (fun _ _ h => h) (hstuck (i := 1))).bind
    intro third
    apply Ensures.ite
    · exact fun _ => .pure fun _ h => h.spent.mono (by omega) (by omega)
    · intro _
      apply Ensures.ite
      · exact fun _ => .pure fun _ h => ⟨⟨hid.1, hid.2, hgen.1, hgen.2⟩,
          h.spent.mono (by omega) (by omega)⟩
      · exact fun _ => (push_took third).bind fun _ => (push_spent hint).bind fun _ =>
          .pure fun _ h => h

theorem dictOrStream_spent (wanes : Cursor.Wanes I complete) (entries : Dict) :
    Ensures (Spent I complete start (k + 1) j) (dictOrStream entries)
      (fun object r => object.isEnd = false ∧ Spent I complete start k j r) (Stuck I complete start j) := by
  have hless : ∀ r, Spent I complete start (k + 1) j r → Spent I complete start k j r :=
    fun _ h => h.mono (by omega) (Nat.le_refl j)
  apply getSettings_spent.bind
  intro settings
  apply Ensures.ite
  · intro _
    apply ((token_took wanes).weaken (fun _ h => h) (fun _ _ h => h)
      fun _ _ h => h.mono (by omega)).bind
    intro next
    apply Ensures.ite
    · intro _
      refine Ensures.from_imp ?_ fun r h => hless r h.spent
      exact (streamStart_spent wanes).bind fun _ => getContext_spent.bind fun _ =>
        place_spent.bind fun _ => .pure fun _ h => ⟨rfl, h⟩
    · exact fun _ => (push_took next).bind fun _ => .pure fun _ h => ⟨rfl, h⟩
  · exact fun _ => .pure fun r h => ⟨rfl, hless r h⟩

end Spending
end Reader
end PdfSyntax
