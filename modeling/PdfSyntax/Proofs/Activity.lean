import PdfSyntax.Reader

/-!
# Activities, one by one and two by two

`Ensures` is about one activity: what holds of its value, or of its failure, and of the state it
leaves. `Settles` is about two activities of which it does not matter which one is carried out. `Agree`
is about two activities on states of different kinds: they come to the same value or to the same
failure, and what they leave is related again; `AgreeUntil` leaves the first of them a way out. All
compose along sequencing, so that a statement about a long activity follows from statements about its
steps.
-/

set_option autoImplicit false

namespace PdfSyntax

variable {ε σ τ α β : Type}

/-- From a state as promised, an activity ends in a value and a state as promised, or it fails so. -/
def Ensures (P : σ → Prop) (m : EStateM ε σ α) (Q : α → σ → Prop) (E : ε → σ → Prop) : Prop :=
  ∀ s, P s → match m s with
    | .ok a s' => Q a s'
    | .error e s' => E e s'

namespace Ensures
variable {P P' : σ → Prop} {Q Q' : α → σ → Prop} {E E' : ε → σ → Prop}
variable {m : EStateM ε σ α} {f : α → EStateM ε σ β} {B : β → σ → Prop}

theorem pure {a : α} (h : ∀ s, P s → Q a s) : Ensures P (Pure.pure a : EStateM ε σ α) Q E :=
  fun s hs => h s hs

theorem throw {e : ε} (h : ∀ s, P s → E e s) : Ensures P (throw e : EStateM ε σ α) Q E :=
  fun s hs => h s hs

theorem bind (hm : Ensures P m Q E) (hf : ∀ a, Ensures (Q a) (f a) B E) :
    Ensures P (m >>= f) B E := by
  intro s hs
  have h := hm s hs
  simp only [Bind.bind, EStateM.bind]
  cases hr : m s with
  | ok a s' => rw [hr] at h; exact hf a s' h
  | error e s' => rw [hr] at h; exact h

theorem weaken (h : Ensures P m Q E) (hP : ∀ s, P' s → P s) (hQ : ∀ a s, Q a s → Q' a s)
    (hE : ∀ e s, E e s → E' e s) : Ensures P' m Q' E' := by
  intro s hs
  have := h s (hP s hs)
  cases hr : m s with
  | ok a s' => rw [hr] at this; exact hQ a s' this
  | error e s' => rw [hr] at this; exact hE e s' this

theorem from_imp (h : Ensures P m Q E) (hP : ∀ s, P' s → P s) : Ensures P' m Q E :=
  fun s hs => h s (hP s hs)

theorem of_fact {p : Prop} (h : p → Ensures P m Q E) : Ensures (fun s => p ∧ P s) m Q E :=
  fun s hs => h hs.1 s hs.2

theorem of_promise (h : ∀ s, P s → Ensures P m Q E) : Ensures P m Q E :=
  fun s hs => h s hs s hs

theorem of_or (h : Ensures P m Q E) (h' : Ensures P' m Q E) :
    Ensures (fun s => P s ∨ P' s) m Q E := by
  rintro s (hs | hs)
  · exact h s hs
  · exact h' s hs

theorem of_exists {ι : Type} {R : ι → σ → Prop} (h : ∀ i, Ensures (R i) m Q E) :
    Ensures (fun s => ∃ i, R i s) m Q E :=
  fun s ⟨i, hs⟩ => h i s hs

/-- Where it is known what the first activity yields, the second one starts from that. -/
theorem bind_of_eq {a : α} {R : σ → Prop} (hm : Ensures P m (fun read s => read = a ∧ R s) E)
    (hf : Ensures R (f a) B E) : Ensures P (m >>= f) B E := by
  apply hm.bind
  intro read
  refine .of_fact ?_
  intro heq
  rcases heq with rfl
  exact hf

theorem and (h : Ensures P m Q E) (h' : Ensures P' m Q' E') :
    Ensures (fun s => P s ∧ P' s) m (fun a s => Q a s ∧ Q' a s) (fun e s => E e s ∧ E' e s) := by
  intro s hs
  have hm := h s hs.1
  have hm' := h' s hs.2
  cases hr : m s with
  | ok a s' =>
    rw [hr] at hm hm'
    exact ⟨hm, hm'⟩
  | error e s' =>
    rw [hr] at hm hm'
    exact ⟨hm, hm'⟩

/-- An activity that cannot fail, and of which it is known what it yields, yields that. -/
theorem exists_ok {a : α} {R : σ → Prop}
    (h : Ensures P m (fun read s => read = a ∧ R s) (fun _ _ => False)) {s : σ} (hs : P s) :
    ∃ s', m s = .ok a s' ∧ R s' := by
  have hm := h s hs
  cases hr : m s with
  | ok read s' =>
    rw [hr] at hm
    obtain ⟨rfl, hs'⟩ := hm
    exact ⟨s', rfl, hs'⟩
  | error e s' =>
    rw [hr] at hm
    exact hm.elim

theorem ite {c : Prop} [Decidable c] {n : EStateM ε σ α} (ht : c → Ensures P m Q E)
    (he : ¬ c → Ensures P n Q E) : Ensures P (if c then m else n) Q E := by
  by_cases hc : c
  · rw [if_pos hc]; exact ht hc
  · rw [if_neg hc]; exact he hc

end Ensures

/-- From a state as promised, two activities come to the very same end, and that is as promised. -/
def Settles (P : σ → Prop) (m n : EStateM ε σ α) (Q : α → σ → Prop) (E : ε → σ → Prop) : Prop :=
  (∀ s, P s → m s = n s) ∧ Ensures P m Q E

namespace Settles
variable {P P' : σ → Prop} {Q Q' : α → σ → Prop} {E E' : ε → σ → Prop} {B : β → σ → Prop}
variable {m n : EStateM ε σ α} {f g : α → EStateM ε σ β}

theorem same (h : Ensures P m Q E) : Settles P m m Q E :=
  ⟨fun _ _ => rfl, h⟩

theorem bind (hm : Settles P m n Q E) (hf : ∀ a, Settles (Q a) (f a) (g a) B E) :
    Settles P (m >>= f) (n >>= g) B E := by
  refine ⟨fun s hs => ?_, hm.2.bind fun a => (hf a).2⟩
  have h := hm.2 s hs
  simp only [Bind.bind, EStateM.bind, ← hm.1 s hs]
  cases hr : m s with
  | ok a s' =>
    rw [hr] at h
    exact (hf a).1 s' h
  | error e s' => rfl

theorem weaken (h : Settles P m n Q E) (hP : ∀ s, P' s → P s) (hQ : ∀ a s, Q a s → Q' a s)
    (hE : ∀ e s, E e s → E' e s) : Settles P' m n Q' E' :=
  ⟨fun s hs => h.1 s (hP s hs), h.2.weaken hP hQ hE⟩

theorem of_fact {p : Prop} (h : p → Settles P m n Q E) : Settles (fun s => p ∧ P s) m n Q E :=
  ⟨fun s hs => (h hs.1).1 s hs.2, .of_fact fun hp => (h hp).2⟩

theorem of_false (h : ∀ s, ¬ P s) : Settles P m n Q E :=
  ⟨fun s hs => (h s hs).elim, fun s hs => (h s hs).elim⟩

theorem of_or (h : Settles P m n Q E) (h' : Settles P' m n Q E) :
    Settles (fun s => P s ∨ P' s) m n Q E := by
  constructor
  · intro s hs
    rcases hs with hs | hs
    · exact h.1 s hs
    · exact h'.1 s hs
  · intro s hs
    rcases hs with hs | hs
    · exact h.2 s hs
    · exact h'.2 s hs

theorem ite {c : Prop} [Decidable c] {m' n' : EStateM ε σ α} (ht : c → Settles P m n Q E)
    (he : ¬ c → Settles P m' n' Q E) :
    Settles P (if c then m else m') (if c then n else n') Q E := by
  by_cases hc : c
  · rw [if_pos hc, if_pos hc]; exact ht hc
  · rw [if_neg hc, if_neg hc]; exact he hc

end Settles

/-- Two ends that are the same value or the same failure, with related states. -/
inductive SameEnd (Q : α → σ → τ → Prop) (E : ε → σ → τ → Prop) :
    EStateM.Result ε σ α → EStateM.Result ε τ α → Prop where
  | ok {a : α} {s : σ} {t : τ} : Q a s t → SameEnd Q E (.ok a s) (.ok a t)
  | error {e : ε} {s : σ} {t : τ} : E e s t → SameEnd Q E (.error e s) (.error e t)

theorem SameEnd.imp {Q Q' : α → σ → τ → Prop} {E E' : ε → σ → τ → Prop}
    {x : EStateM.Result ε σ α} {y : EStateM.Result ε τ α} (h : SameEnd Q E x y)
    (hQ : ∀ a s t, Q a s t → Q' a s t) (hE : ∀ e s t, E e s t → E' e s t) : SameEnd Q' E' x y := by
  cases h with
  | ok hq => exact .ok (hQ _ _ _ hq)
  | error he => exact .error (hE _ _ _ he)

/-- What an end that is the same as a known one is. -/
theorem SameEnd.exists_ok {Q : α → σ → τ → Prop} {E : ε → σ → τ → Prop} {a : α} {s : σ}
    {y : EStateM.Result ε τ α} (h : SameEnd Q E (.ok a s) y) : ∃ t, y = .ok a t ∧ Q a s t := by
  cases h with
  | ok hq => exact ⟨_, rfl, hq⟩

theorem SameEnd.exists_error {Q : α → σ → τ → Prop} {E : ε → σ → τ → Prop} {e : ε} {s : σ}
    {y : EStateM.Result ε τ α} (h : SameEnd Q E (.error e s) y) : ∃ t, y = .error e t ∧ E e s t := by
  cases h with
  | error he => exact ⟨_, rfl, he⟩

/-- From related states, two activities come to the same end. -/
def Agree (P : σ → τ → Prop) (m : EStateM ε σ α) (n : EStateM ε τ α) (Q : α → σ → τ → Prop)
    (E : ε → σ → τ → Prop) : Prop :=
  ∀ s t, P s t → SameEnd Q E (m s) (n t)

/-- Two activities that come to the same end and leave the states related as they were. -/
abbrev Keep (ε : Type) {σ τ α : Type} (R : σ → τ → Prop) (m : EStateM ε σ α) (n : EStateM ε τ α) :
    Prop :=
  Agree R m n (fun _ => R) (fun _ => R)

namespace Agree
variable {P P' : σ → τ → Prop} {Q Q' : α → σ → τ → Prop} {E E' : ε → σ → τ → Prop}
variable {m : EStateM ε σ α} {n : EStateM ε τ α} {B : β → σ → τ → Prop}
variable {f : α → EStateM ε σ β} {g : α → EStateM ε τ β}

theorem pure {a : α} (h : ∀ s t, P s t → Q a s t) :
    Agree P (Pure.pure a : EStateM ε σ α) (Pure.pure a : EStateM ε τ α) Q E :=
  fun s t hst => .ok (h s t hst)

theorem throw {e : ε} (h : ∀ s t, P s t → E e s t) :
    Agree P (throw e : EStateM ε σ α) (throw e : EStateM ε τ α) Q E :=
  fun s t hst => .error (h s t hst)

theorem bind (hm : Agree P m n Q E) (hf : ∀ a, Agree (Q a) (f a) (g a) B E) :
    Agree P (m >>= f) (n >>= g) B E := by
  intro s t hst
  have h := hm s t hst
  simp only [Bind.bind, EStateM.bind]
  generalize m s = x at h ⊢
  generalize n t = y at h ⊢
  cases h with
  | ok hq => exact hf _ _ _ hq
  | error he => exact .error he

theorem weaken (h : Agree P m n Q E) (hP : ∀ s t, P' s t → P s t) (hQ : ∀ a s t, Q a s t → Q' a s t)
    (hE : ∀ e s t, E e s t → E' e s t) : Agree P' m n Q' E' := by
  intro s t hst
  exact (h s t (hP s t hst)).imp hQ hE

theorem ite {c : Prop} [Decidable c] {m' : EStateM ε σ α} {n' : EStateM ε τ α}
    (ht : c → Agree P m n Q E) (he : ¬ c → Agree P m' n' Q E) :
    Agree P (if c then m else m') (if c then n else n') Q E := by
  by_cases hc : c
  · rw [if_pos hc, if_pos hc]; exact ht hc
  · rw [if_neg hc, if_neg hc]; exact he hc

/-- Two activities that each agree with a third one agree with each other. -/
theorem meet {υ : Type} {k : EStateM ε υ α} {R : σ → υ → Prop} {S : τ → υ → Prop}
    {QR : α → σ → υ → Prop} {QS : α → τ → υ → Prop} {ER : ε → σ → υ → Prop} {ES : ε → τ → υ → Prop}
    (hm : Agree R m k QR ER) (hn : Agree S n k QS ES) :
    Agree (fun s t => ∃ u, R s u ∧ S t u) m n (fun a s t => ∃ u, QR a s u ∧ QS a t u)
      (fun e s t => ∃ u, ER e s u ∧ ES e t u) := by
  rintro s t ⟨u, hs, ht⟩
  have hsu := hm s u hs
  have htu := hn t u ht
  generalize m s = x at hsu ⊢
  generalize n t = y at htu ⊢
  generalize k u = z at hsu htu
  cases hsu with
  | ok hx =>
    cases htu with
    | ok hy => exact .ok ⟨_, hx, hy⟩
  | error hx =>
    cases htu with
    | error hy => exact .error ⟨_, hx, hy⟩

end Agree

section Values
variable {m : EStateM ε σ α} {f : α → EStateM ε σ β} {s : σ}

/-- What an activity yields tells that it does not fail. -/
theorem exists_ok_of_run' {a : α} (h : m.run' s = some a) : ∃ s', m s = .ok a s' := by
  delta EStateM.run' EStateM.run at h
  split at h
  · next heq =>
    cases h
    exact ⟨_, heq⟩
  · cases h

theorem exists_of_bind_run' {b : β} (h : (m >>= f).run' s = some b) :
    ∃ a s', m s = .ok a s' ∧ (f a).run' s' = some b := by
  obtain ⟨t, ht⟩ := exists_ok_of_run' h
  simp only [Bind.bind, EStateM.bind] at ht
  split at ht
  · next a s' heq =>
    refine ⟨a, s', heq, ?_⟩
    delta EStateM.run' EStateM.run
    rw [ht]
  · cases ht

/-- What cannot fail in one state does not fail in a related one. -/
theorem Keep.ok_of_ensures {n : EStateM ε τ α} {L : σ → τ → Prop} {P : τ → Prop}
    {Q : α → τ → Prop} (hkeep : Keep ε L m n)
    (hn : Ensures P n Q (fun _ _ => False)) {t : τ} (hst : L s t) (ht : P t) :
    ∃ a s' t', m s = .ok a s' ∧ L s' t' ∧ Q a t' := by
  have hsame := hkeep s t hst
  have hend := hn t ht
  generalize m s = x at hsame ⊢
  generalize n t = y at hsame hend
  cases hsame with
  | ok hL => exact ⟨_, _, _, rfl, hL, hend⟩
  | error _ => exact hend.elim

end Values

/-- Whether an activity ends, or fails, in a state as promised. -/
def Leaves (past : σ → Prop) : EStateM.Result ε σ α → Prop
  | .ok _ s => past s
  | .error _ s => past s

theorem Ensures.leaves {past : σ → Prop} {m : EStateM ε σ α}
    (h : Ensures past m (fun _ => past) (fun _ => past)) {s : σ} (hs : past s) : Leaves past (m s) := by
  have hm := h s hs
  cases hr : m s with
  | ok a s' =>
    rw [hr] at hm
    exact hm
  | error e s' =>
    rw [hr] at hm
    exact hm

/-- From related states, two activities come to the same end, unless the first one gets past a point to
which it never returns. -/
structure AgreeUntil (past : σ → Prop) (P : σ → τ → Prop) (m : EStateM ε σ α) (n : EStateM ε τ α)
    (Q : α → σ → τ → Prop) (E : ε → σ → τ → Prop) : Prop where
  stays : Ensures past m (fun _ => past) (fun _ => past)
  agree : ∀ {s t}, P s t → SameEnd Q E (m s) (n t) ∨ Leaves past (m s)

namespace AgreeUntil
variable {past : σ → Prop} {P P' : σ → τ → Prop} {Q Q' : α → σ → τ → Prop} {E : ε → σ → τ → Prop}
variable {m : EStateM ε σ α} {n : EStateM ε τ α} {B : β → σ → τ → Prop}
variable {f : α → EStateM ε σ β} {g : α → EStateM ε τ β}

theorem of_agree (h : Agree P m n Q E) (hstays : Ensures past m (fun _ => past) (fun _ => past)) :
    AgreeUntil past P m n Q E :=
  ⟨hstays, fun hst => .inl (h _ _ hst)⟩

theorem pure {a : α} (h : ∀ s t, P s t → Q a s t) :
    AgreeUntil past P (Pure.pure a : EStateM ε σ α) (Pure.pure a : EStateM ε τ α) Q E :=
  of_agree (.pure h) (.pure fun _ h => h)

theorem bind (hm : AgreeUntil past P m n Q E) (hf : ∀ a, AgreeUntil past (Q a) (f a) (g a) B E) :
    AgreeUntil past P (m >>= f) (n >>= g) B E := by
  refine ⟨hm.stays.bind fun a => (hf a).stays, fun {s t} hst => ?_⟩
  have h := hm.agree hst
  simp only [Bind.bind, EStateM.bind]
  generalize m s = x at h ⊢
  generalize n t = y at h ⊢
  rcases h with hsame | hpast
  · cases hsame with
    | ok hq => exact (hf _).agree hq
    | error he => exact .inl (.error he)
  · cases x with
    | error e s' => exact .inr hpast
    | ok a s' => exact .inr ((hf a).stays.leaves hpast)

theorem ite {c : Prop} [Decidable c] {m' : EStateM ε σ α} {n' : EStateM ε τ α}
    (ht : c → AgreeUntil past P m n Q E) (he : ¬ c → AgreeUntil past P m' n' Q E) :
    AgreeUntil past P (if c then m else m') (if c then n else n') Q E := by
  by_cases hc : c
  · rw [if_pos hc, if_pos hc]; exact ht hc
  · rw [if_neg hc, if_neg hc]; exact he hc

theorem weaken (h : AgreeUntil past P m n Q E) (hP : ∀ s t, P' s t → P s t)
    (hQ : ∀ a s t, Q a s t → Q' a s t) : AgreeUntil past P' m n Q' E :=
  ⟨h.stays, fun hst => (h.agree (hP _ _ hst)).imp_left fun hsame => hsame.imp hQ fun _ _ _ he => he⟩

end AgreeUntil

end PdfSyntax
