import Mathlib.Algebra.GroupWithZero.Nat
import Mathlib.Data.List.Infix
import Mathlib.Order.Basic

/-!
# Runs of a step function

A system is a step function `step : σ → α → Option σ` that takes a state and an
action; `none` means that the action cannot be taken. `exec step s as` runs a
list of actions, and `meets step ok s as` says that every action of the run is
allowed by `ok` in the state it is taken in. The rules of this file are the only
inductions over runs: an invariant rule, and a forward-simulation rule in which
the related state may only grow in a given preorder.
-/

namespace DistributedLabs

variable {σ α β τ : Type*}

/-- Run a list of actions. -/
def exec (step : σ → α → Option σ) : σ → List α → Option σ
  | s, [] => some s
  | s, a :: as => (step s a).bind fun s' => exec step s' as

/-- Every action of a run is allowed in the state before it. -/
def meets (step : σ → α → Option σ) (ok : σ → α → Prop) : σ → List α → Prop
  | _, [] => True
  | s, a :: as => ok s a ∧
      match step s a with
      | none => True
      | some s' => meets step ok s' as

/-- What the actions of a run put out, where `out s a` is what `a` puts out in `s`. -/
def emits (step : σ → α → Option σ) (out : σ → α → List β) : σ → List α → List β
  | _, [] => []
  | s, a :: as =>
    match step s a with
    | none => []
    | some s' => out s a ++ emits step out s' as

/-- The run `as` from `s` passes through `t`. -/
def passes (step : σ → α → Option σ) (s : σ) (as : List α) (t : σ) : Prop :=
  ∃ bs cs, as = bs ++ cs ∧ exec step s bs = some t

/-- Decide `meets` along the run. -/
def decidableMeets (step : σ → α → Option σ) (ok : σ → α → Prop)
    (dec : ∀ s a, Decidable (ok s a)) : ∀ s as, Decidable (meets step ok s as)
  | _, [] => .isTrue trivial
  | s, a :: as =>
    match dec s a with
    | .isFalse h => .isFalse fun h' => h h'.1
    | .isTrue h =>
      match hs : step s a with
      | none => .isTrue ⟨h, by rw [hs]; trivial⟩
      | some s' =>
        match decidableMeets step ok dec s' as with
        | .isTrue h' => .isTrue ⟨h, by rw [hs]; exact h'⟩
        | .isFalse h' => .isFalse fun hm => h' (by have := hm.2; rw [hs] at this; exact this)

instance {step : σ → α → Option σ} {ok : σ → α → Prop} [dec : ∀ s a, Decidable (ok s a)]
    (s : σ) (as : List α) : Decidable (meets step ok s as) :=
  decidableMeets step ok dec s as

section

variable {step : σ → α → Option σ} {ok : σ → α → Prop}

theorem exec_cons (s : σ) (a : α) (as : List α) :
    exec step s (a :: as) = (step s a).bind fun s' => exec step s' as := rfl

theorem exec_cons_eq_some {s t : σ} {a : α} {as : List α} :
    exec step s (a :: as) = some t ↔
      ∃ s', step s a = some s' ∧ exec step s' as = some t := by
  rw [exec_cons, Option.bind_eq_some_iff]

theorem exec_append (s : σ) (as bs : List α) :
    exec step s (as ++ bs) = (exec step s as).bind fun s' => exec step s' bs := by
  induction as generalizing s with
  | nil => rfl
  | cons a as ih =>
      rw [List.cons_append, exec_cons, exec_cons]
      cases step s a with
      | none => rfl
      | some s' => exact ih s'

theorem exec_append_eq_some {s t : σ} {as bs : List α} :
    exec step s (as ++ bs) = some t ↔
      ∃ s', exec step s as = some s' ∧ exec step s' bs = some t := by
  rw [exec_append, Option.bind_eq_some_iff]

@[simp] theorem meets_nil (s : σ) : meets step ok s [] := trivial

theorem meets_cons {s s' : σ} {a : α} {as : List α} (h : step s a = some s') :
    meets step ok s (a :: as) ↔ ok s a ∧ meets step ok s' as := by
  simp only [meets, h]

/-- A run meets a condition when both of its parts do. -/
theorem meets_append {s s' : σ} {as bs : List α} (h : exec step s as = some s') :
    meets step ok s (as ++ bs) ↔ meets step ok s as ∧ meets step ok s' bs := by
  induction as generalizing s with
  | nil =>
      obtain rfl := Option.some.inj h
      simp
  | cons a as ih =>
      obtain ⟨t, ht, has⟩ := exec_cons_eq_some.mp h
      rw [List.cons_append, meets_cons ht, meets_cons ht, ih has, and_assoc]

theorem meets_and {ok' : σ → α → Prop} {s : σ} {as : List α} (h : meets step ok s as)
    (h' : meets step ok' s as) : meets step (fun s a => ok s a ∧ ok' s a) s as := by
  induction as generalizing s with
  | nil => trivial
  | cons a as ih =>
      refine ⟨⟨h.1, h'.1⟩, ?_⟩
      have htail := h.2
      have htail' := h'.2
      cases hs : step s a with
      | none => trivial
      | some s' =>
          rw [hs] at htail htail'
          exact ih htail htail'

/-- A condition on the actions alone is met when every action has it. -/
theorem meets_of_forall {p : α → Prop} (s : σ) {as : List α} (h : ∀ a ∈ as, p a) :
    meets step (fun _ a => p a) s as := by
  induction as generalizing s with
  | nil => trivial
  | cons a as ih =>
      refine ⟨h a (by simp), ?_⟩
      cases hs : step s a with
      | none => trivial
      | some s' => exact ih s' fun b hb => h b (by simp [hb])

/-- The invariant rule: what every allowed step preserves holds after every run
that meets the condition. -/
theorem exec_invariant {I : σ → Prop}
    (hstep : ∀ s a s', I s → ok s a → step s a = some s' → I s')
    {s t : σ} {as : List α} (hs : I s) (hok : meets step ok s as)
    (h : exec step s as = some t) : I t := by
  induction as generalizing s with
  | nil =>
      obtain rfl := Option.some.inj h
      exact hs
  | cons a as ih =>
      obtain ⟨s', hs', has⟩ := exec_cons_eq_some.mp h
      have hok' := (meets_cons hs').mp hok
      exact ih (hstep s a s' hs hok'.1 hs') hok'.2 has

/-- A run that meets a condition meets every other condition that follows from it
under an invariant. -/
theorem meets_of_invariant {ok' : σ → α → Prop} {I : σ → Prop}
    (hstep : ∀ s a s', I s → ok s a → step s a = some s' → I s')
    (hok' : ∀ s a, I s → ok s a → ok' s a) {s : σ} {as : List α} (hs : I s)
    (h : meets step ok s as) : meets step ok' s as := by
  induction as generalizing s with
  | nil => trivial
  | cons a as ih =>
      refine ⟨hok' s a hs h.1, ?_⟩
      cases hs' : step s a with
      | none => trivial
      | some s' =>
          rw [meets_cons hs'] at h
          exact ih (hstep s a s' hs h.1 hs') h.2

/-- What every step preserves holds after every run. -/
theorem exec_preserves {I : σ → Prop} (hstep : ∀ s a s', I s → step s a = some s' → I s')
    {s t : σ} {as : List α} (hs : I s) (h : exec step s as = some t) : I t :=
  exec_invariant (fun s a s' hI _ => hstep s a s' hI) hs
    (meets_of_forall (p := fun _ => True) s fun _ _ => trivial) h

/-- The invariant rule for facts that refer to the actions so far. -/
theorem exec_history {s : σ} {I : List α → σ → Prop} (hs : I [] s)
    (hstep : ∀ as t a t', exec step s as = some t → I as t → step t a = some t' →
      I (as ++ [a]) t') {t : σ} {as : List α} (h : exec step s as = some t) : I as t := by
  induction as using List.reverseRecOn generalizing t with
  | nil =>
      obtain rfl := Option.some.inj h
      exact hs
  | append_singleton as a ih =>
      obtain ⟨t', ht', ha⟩ := exec_append_eq_some.mp h
      obtain ⟨t'', hstep', hlast⟩ := exec_cons_eq_some.mp ha
      obtain rfl := Option.some.inj hlast
      exact hstep as t' a t'' ht' (ih ht') hstep'

/-- What an action brings about under an invariant, and every action keeps, holds
after every run with that action in it. -/
theorem exec_of_mem {I J : σ → Prop} (hI : ∀ s a s', I s → step s a = some s' → I s')
    (hJ : ∀ s a s', I s → J s → step s a = some s' → J s') {a : α}
    (ha : ∀ s s', I s → step s a = some s' → J s') {s t : σ} {as : List α} (hs : I s)
    (hmem : a ∈ as) (h : exec step s as = some t) : J t := by
  obtain ⟨bs, cs, rfl⟩ := List.append_of_mem hmem
  obtain ⟨s₁, hs₁, h⟩ := exec_append_eq_some.mp h
  obtain ⟨s₂, hs₂, h⟩ := exec_cons_eq_some.mp h
  have hI₁ : I s₁ := exec_preserves hI hs hs₁
  have hIJ₂ : I s₂ ∧ J s₂ := ⟨hI s₁ a s₂ hI₁ hs₂, ha s₁ s₂ hI₁ hs₂⟩
  have hIJ : ∀ s b s', I s ∧ J s → step s b = some s' → I s' ∧ J s' :=
    fun s b s' hs hb => ⟨hI s b s' hs.1 hb, hJ s b s' hs.1 hs.2 hb⟩
  exact (exec_preserves hIJ hIJ₂ h).2

/-- The simulation rule: if every allowed step can be matched by a related state
above the old one, so can every run that meets the condition. -/
theorem exec_simulation [Preorder τ] {R : σ → τ → Prop}
    (hstep : ∀ s a s' g, R s g → ok s a → step s a = some s' → ∃ g', g ≤ g' ∧ R s' g')
    {s t : σ} {g : τ} {as : List α} (hs : R s g) (hok : meets step ok s as)
    (h : exec step s as = some t) : ∃ g', g ≤ g' ∧ R t g' := by
  induction as generalizing s g with
  | nil =>
      obtain rfl := Option.some.inj h
      exact ⟨g, le_rfl, hs⟩
  | cons a as ih =>
      obtain ⟨s', hs', has⟩ := exec_cons_eq_some.mp h
      have hok' := (meets_cons hs').mp hok
      obtain ⟨g₁, hle, hg₁⟩ := hstep s a s' g hs hok'.1 hs'
      obtain ⟨g₂, hle', hg₂⟩ := ih hg₁ hok'.2 has
      exact ⟨g₂, hle.trans hle', hg₂⟩

theorem passes_last {s t : σ} {as : List α} (h : exec step s as = some t) :
    passes step s as t :=
  ⟨as, [], by simp, h⟩

section

variable [Preorder τ] {R : σ → τ → Prop}
  (hstep : ∀ s a s' g, R s g → ok s a → step s a = some s' → ∃ g', g ≤ g' ∧ R s' g')

include hstep

/-- The simulation rule at two moments of a run, the second one after the first. -/
theorem exec_simulation_pair {s t₁ t₂ : σ} {g : τ} {as bs : List α} (hs : R s g)
    (hok : meets step ok s (as ++ bs)) (h₁ : exec step s as = some t₁)
    (h₂ : exec step t₁ bs = some t₂) : ∃ g₁ g₂, R t₁ g₁ ∧ R t₂ g₂ ∧ g₁ ≤ g₂ := by
  obtain ⟨hok₁, hok₂⟩ := (meets_append h₁).mp hok
  obtain ⟨g₁, -, hg₁⟩ := exec_simulation hstep hs hok₁ h₁
  obtain ⟨g₂, hle, hg₂⟩ := exec_simulation hstep hg₁ hok₂ h₂
  exact ⟨g₁, g₂, hg₁, hg₂, hle⟩

/-- The simulation rule at any two moments of a run. -/
theorem passes_simulation {s t₁ t₂ : σ} {g : τ} {as : List α} (hs : R s g)
    (hok : meets step ok s as) (h₁ : passes step s as t₁) (h₂ : passes step s as t₂) :
    ∃ g₁ g₂, R t₁ g₁ ∧ R t₂ g₂ ∧ (g₁ ≤ g₂ ∨ g₂ ≤ g₁) := by
  obtain ⟨bs₁, cs₁, rfl, hbs₁⟩ := h₁
  obtain ⟨bs₂, cs₂, heq, hbs₂⟩ := h₂
  have hpre : bs₁ <+: bs₂ ++ cs₂ := ⟨cs₁, heq⟩
  rcases List.prefix_or_prefix_of_prefix hpre (List.prefix_append bs₂ cs₂) with h | h
  · obtain ⟨ds, rfl⟩ := h
    rw [exec_append, hbs₁] at hbs₂
    rw [heq] at hok
    have hok' := ((meets_append (exec_append_eq_some.mpr ⟨t₁, hbs₁, hbs₂⟩)).mp hok).1
    obtain ⟨g₁, g₂, hg₁, hg₂, hle⟩ := exec_simulation_pair hstep hs hok' hbs₁ hbs₂
    exact ⟨g₁, g₂, hg₁, hg₂, Or.inl hle⟩
  · obtain ⟨ds, rfl⟩ := h
    rw [exec_append, hbs₂] at hbs₁
    have hok' := ((meets_append (exec_append_eq_some.mpr ⟨t₂, hbs₂, hbs₁⟩)).mp hok).1
    obtain ⟨g₂, g₁, hg₂, hg₁, hle⟩ := exec_simulation_pair hstep hs hok' hbs₂ hbs₁
    exact ⟨g₁, g₂, hg₁, hg₂, Or.inr hle⟩

end

/-- The invariant rule for facts that refer to what the steps have put out so far. -/
theorem emits_invariant {out : σ → α → List β} {I : σ → List β → Prop}
    (hstep : ∀ s a s' bs, I s bs → ok s a → step s a = some s' → I s' (bs ++ out s a))
    {s t : σ} {bs : List β} {as : List α} (hs : I s bs) (hok : meets step ok s as)
    (h : exec step s as = some t) : I t (bs ++ emits step out s as) := by
  induction as generalizing s bs with
  | nil =>
      obtain rfl := Option.some.inj h
      rw [emits, List.append_nil]
      exact hs
  | cons a as ih =>
      obtain ⟨s', hs', has⟩ := exec_cons_eq_some.mp h
      have hok' := (meets_cons hs').mp hok
      have htail := ih (hstep s a s' bs hs hok'.1 hs') hok'.2 has
      rw [emits, hs', ← List.append_assoc]
      exact htail

/-- If a step keeps a property exactly when it is allowed, and no step restores the
property, then the property holds at the end of a run exactly when it holds at the
start and the run is allowed throughout. -/
theorem exec_iff_meets {I P : σ → Prop} (hI : ∀ s a s', I s → step s a = some s' → I s')
    (hstep : ∀ s a s', I s → step s a = some s' → (P s' ↔ P s ∧ ok s a))
    {s t : σ} {as : List α} (hs : I s) (h : exec step s as = some t) :
    P t ↔ P s ∧ meets step ok s as := by
  induction as generalizing s with
  | nil =>
      obtain rfl := Option.some.inj h
      exact (and_iff_left trivial).symm
  | cons a as ih =>
      obtain ⟨s', hs', has⟩ := exec_cons_eq_some.mp h
      rw [ih (hI s a s' hs hs') has, hstep s a s' hs hs', meets_cons hs', and_assoc]

/-- If a step keeps an invariant that refers to the actions so far exactly when the
step is allowed, then a run is allowed throughout exactly when the invariant holds at
every moment of it. -/
theorem meets_iff_forall_history {I : List α → σ → Prop} {s t : σ} {as : List α}
    (h : exec step s as = some t) (hs : I [] s)
    (hstep : ∀ bs q a q', bs ++ [a] <+: as → exec step s bs = some q → step q a = some q' →
      I bs q → (I (bs ++ [a]) q' ↔ ok q a)) :
    meets step ok s as ↔ ∀ bs q, bs <+: as → exec step s bs = some q → I bs q := by
  induction as using List.reverseRecOn generalizing t with
  | nil =>
      refine ⟨fun _ bs q hbs hq => ?_, fun _ => trivial⟩
      obtain rfl := List.prefix_nil.mp hbs
      obtain rfl := Option.some.inj hq
      exact hs
  | append_singleton as a ih =>
      obtain ⟨q, hq, ha⟩ := exec_append_eq_some.mp h
      obtain ⟨q', hq', -⟩ := exec_cons_eq_some.mp ha
      have hlast : exec step s (as ++ [a]) = some q' :=
        exec_append_eq_some.mpr ⟨q, hq, exec_cons_eq_some.mpr ⟨q', hq', rfl⟩⟩
      have hshort := ih hq fun bs q a q' hbs =>
        hstep bs q a q' (hbs.trans (List.prefix_append _ _))
      rw [meets_append hq, hshort, meets_cons hq']
      constructor
      · rintro ⟨hI, hok, -⟩ bs r hbs hr
        rcases List.prefix_concat_iff.mp hbs with rfl | hbs
        · obtain rfl := Option.some.inj (hr.symm.trans hlast)
          have hlast' := hI as q (List.prefix_refl _) hq
          exact (hstep as q a _ (List.prefix_refl _) hq hq' hlast').mpr hok
        · exact hI bs r hbs hr
      · intro hI
        have hIas : I as q := hI as q (List.prefix_append _ _) hq
        exact ⟨fun bs r hbs => hI bs r (hbs.trans (List.prefix_append _ _)),
          (hstep as q a q' (List.prefix_refl _) hq hq' hIas).mp
            (hI _ q' (List.prefix_refl _) hlast), trivial⟩

/-- The same rule for an invariant of the states: the invariant then holds in every
state that the run passes through. -/
theorem meets_iff_forall_passes {I : σ → Prop}
    (hstep : ∀ s a s', I s → step s a = some s' → (I s' ↔ ok s a))
    {s t : σ} {as : List α} (hs : I s) (h : exec step s as = some t) :
    meets step ok s as ↔ ∀ q, passes step s as q → I q := by
  rw [meets_iff_forall_history (I := fun _ => I) h hs fun _ q a q' _ _ hs' hI =>
    hstep q a q' hI hs']
  constructor
  · rintro hI q ⟨bs, cs, rfl, hq⟩
    exact hI bs q (List.prefix_append _ _) hq
  · rintro hI bs q ⟨cs, rfl⟩ hq
    exact hI q ⟨bs, cs, rfl, hq⟩

end

/-- Concrete runs of three parties name them 0, 1 and 2. -/
instance neZeroThree : NeZero 3 := ⟨Nat.succ_ne_zero 2⟩

end DistributedLabs
