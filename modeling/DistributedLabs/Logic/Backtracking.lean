import Mathlib.Algebra.BigOperators.Group.List.Basic
import Mathlib.Algebra.Order.Ring.Nat
import Mathlib.Order.Monotone.Basic

/-!
# Backtracking with a cache

A search goes through configurations, depth first. At each configuration there is a
list of choices to be tried in turn, and a choice leads to another configuration or
nowhere. A configuration that is entered is put into a cache for good, and a choice that
leads to a configuration like one in the cache is passed over.

The cache may hold configurations that the search has not finished with. These are on
the way from the start to the present configuration; all others are closed, in that each
of their choices leads nowhere or to a configuration like one in the cache. When the
search has given up the start, everything that can be reached is like something in the
cache.
-/

namespace DistributedLabs

/-- What can be tried at a configuration, in this order, and where it leads. -/
structure Choices (C α : Type*) where
  options : C → List α
  next : C → α → Option C

namespace Choices

variable {C α : Type*} (G : Choices C α)

/-- `G.Walk c path d`: the choices `path` lead from `c` to `d`. -/
inductive Walk (c : C) : List α → C → Prop
  | nil : Walk c [] c
  | concat {path : List α} {d e : C} {a : α} :
      Walk c path d → a ∈ G.options d → G.next d a = some e → Walk c (path ++ [a]) e

/-- A relation that a search cannot see through: where one configuration can go, a like
one can go too. -/
structure Alike (R : C → C → Prop) : Prop where
  equivalence : Equivalence R
  options : ∀ {c d : C}, R c d → ∀ a ∈ G.options c, a ∈ G.options d
  next : ∀ {c d c' : C} {a : α}, R c d → G.next c a = some c' →
    ∃ d', G.next d a = some d' ∧ R c' d'

/-- No configuration has more than `B` choices, and every choice lowers the rank. -/
structure Ranked (B : ℕ) (rank : C → ℕ) : Prop where
  options : ∀ c, (G.options c).length ≤ B
  next : ∀ {c d : C} {a : α}, G.next c a = some d → rank d < rank c

end Choices

/-- A configuration, the choice that was made there, and those that are left. -/
structure Backtrack.Frame (C α : Type*) where
  config : C
  choice : α
  todo : List α

/-- The state of a search; the innermost frame comes first. `givenUp` are the ways to the
configurations that the search has gone back from. -/
structure Backtrack (C α : Type*) where
  config : C
  todo : List α
  frames : List (Backtrack.Frame C α) := []
  cache : List C := []
  givenUp : List (List α) := []

namespace Backtrack

variable {C α : Type*}

/-- The choices that lead to the present configuration. -/
def path (S : Backtrack C α) : List α := (S.frames.map Frame.choice).reverse

section

variable (G : Choices C α) (seen : List C → C → Bool)

def init (c : C) : Backtrack C α := { config := c, todo := G.options c }

/-- The next choice is tried, or the configuration is given up; `none` if that is the
start. -/
def step (S : Backtrack C α) : Option (Backtrack C α) :=
  match S.todo with
  | a :: todo =>
      match G.next S.config a with
      | none => some { S with todo := todo }
      | some c =>
          if seen S.cache c then some { S with todo := todo }
          else
            some
              { S with
                config := c
                todo := G.options c
                frames := { config := S.config, choice := a, todo := todo } :: S.frames
                cache := S.cache ++ [c] }
  | [] =>
      match S.frames with
      | [] => none
      | f :: frames =>
          some
            { S with
              config := f.config
              todo := f.todo
              frames := frames
              givenUp := S.givenUp ++ [S.path] }

end

variable {G : Choices C α} {seen : List C → C → Bool} {S S' : Backtrack C α}

theorem step_cases (h : S.step G seen = some S') :
    (∃ a todo, S.todo = a :: todo ∧
      (∀ c, G.next S.config a = some c → seen S.cache c = true) ∧
      S' = { S with todo := todo }) ∨
    (∃ a todo c, S.todo = a :: todo ∧ G.next S.config a = some c ∧
      S' = { S with
        config := c
        todo := G.options c
        frames := { config := S.config, choice := a, todo := todo } :: S.frames
        cache := S.cache ++ [c] }) ∨
    ∃ f frames, S.todo = [] ∧ S.frames = f :: frames ∧
      S' = { S with
        config := f.config, todo := f.todo, frames := frames
        givenUp := S.givenUp ++ [S.path] } := by
  unfold Backtrack.step at h
  split at h
  · rename_i a todo htodo
    split at h
    · rename_i hnext
      refine Or.inl ⟨a, todo, htodo, fun c hc => ?_, (Option.some.inj h).symm⟩
      rw [hnext] at hc
      cases hc
    · rename_i c hnext
      split at h
      · rename_i hseen
        refine Or.inl ⟨a, todo, htodo, fun d hd => ?_, (Option.some.inj h).symm⟩
        rw [hnext] at hd
        exact Option.some.inj hd ▸ hseen
      · exact Or.inr (Or.inl ⟨a, todo, c, htodo, hnext, (Option.some.inj h).symm⟩)
  · rename_i htodo
    split at h
    · cases h
    · rename_i f frames hframes
      exact Or.inr (Or.inr ⟨f, frames, htodo, hframes, (Option.some.inj h).symm⟩)

theorem step_eq_none (h : S.step G seen = none) : S.todo = [] ∧ S.frames = [] := by
  unfold Backtrack.step at h
  split at h
  · split at h
    · cases h
    · split at h
      · cases h
      · cases h
  · rename_i htodo
    split at h
    · rename_i hframes
      exact ⟨htodo, hframes⟩
    · cases h

/-! ## The way to the present configuration -/

/-- The frames are those of a walk from `c₀` to `c`. -/
def Leads (G : Choices C α) (c₀ : C) : List (Frame C α) → C → Prop
  | [], c => c = c₀
  | f :: frames, c =>
      f.choice ∈ G.options f.config ∧ G.next f.config f.choice = some c ∧
        Leads G c₀ frames f.config

theorem Leads.walk {c₀ : C} {frames : List (Frame C α)} {c : C} (h : Leads G c₀ frames c) :
    G.Walk c₀ (frames.map Frame.choice).reverse c := by
  induction frames generalizing c with
  | nil =>
      obtain rfl : c = c₀ := h
      exact .nil
  | cons f frames ih =>
      obtain ⟨hoption, hnext, hleads⟩ := h
      rw [List.map_cons, List.reverse_cons]
      exact .concat (ih hleads) hoption hnext

/-! ## What a search has seen -/

section

variable {R : C → C → Prop} {rank : C → ℕ} {goal : C → Prop}

/-- Some configuration in the cache is like `c`. -/
def Known (R : C → C → Prop) (cache : List C) (c : C) : Prop := ∃ d ∈ cache, R c d

theorem Known.mono {cache cache' : List C} {c : C} (h : Known R cache c)
    (hcache : ∀ d ∈ cache, d ∈ cache') : Known R cache' c := by
  obtain ⟨d, hd, hR⟩ := h
  exact ⟨d, hcache d hd, hR⟩

/-- Each choice at `c` is still to be tried, leads nowhere, or leads to something
known. -/
def Closed (G : Choices C α) (R : C → C → Prop) (cache : List C) (todo : List α) (c : C) :
    Prop :=
  ∀ a ∈ G.options c, a ∈ todo ∨ ∀ d, G.next c a = some d → Known R cache d

theorem Closed.mono {cache cache' : List C} {todo : List α} {c : C}
    (h : Closed G R cache todo c) (hcache : ∀ d ∈ cache, d ∈ cache') :
    Closed G R cache' todo c := fun a ha =>
  (h a ha).imp_right fun hknown d hd => (hknown d hd).mono hcache

/-- A choice has been tried. -/
theorem Closed.tried {cache : List C} {todo : List α} {a : α} {c : C}
    (h : Closed G R cache (a :: todo) c) (ha : ∀ d, G.next c a = some d → Known R cache d) :
    Closed G R cache todo c := by
  intro b hb
  rcases h b hb with hmem | hknown
  · rcases List.mem_cons.mp hmem with rfl | hmem
    · exact Or.inr ha
    · exact Or.inl hmem
  · exact Or.inr hknown

/-- The invariant of a search that began at `c₀` and ends where it meets a goal. -/
structure Inv (G : Choices C α) (R : C → C → Prop) (rank : C → ℕ) (goal : C → Prop) (c₀ : C)
    (S : Backtrack C α) : Prop where
  leads : Leads G c₀ S.frames S.config
  todo : ∀ a ∈ S.todo, a ∈ G.options S.config
  frames : ∀ f ∈ S.frames, ∀ a ∈ f.todo, a ∈ G.options f.config
  closed : Closed G R S.cache S.todo S.config
  framesClosed : ∀ f ∈ S.frames, Closed G R S.cache f.todo f.config
  cache : ∀ c ∈ S.cache, c = S.config ∨ c ∈ S.frames.map Frame.config ∨
    Closed G R S.cache [] c ∧ ∃ path ∈ S.givenUp, G.Walk c₀ path c
  below : ∀ c ∈ S.cache, rank c < rank c₀
  goal : ∀ c ∈ S.cache, goal c → c = S.config
  givenUp : ∀ path ∈ S.givenUp, path ≠ [] ∧ ∃ c, G.Walk c₀ path c

theorem inv_init (c₀ : C) : Inv G R rank goal c₀ (init G c₀) where
  leads := rfl
  todo := fun _ ha => ha
  frames := fun _ hf => absurd hf List.not_mem_nil
  closed := fun _ ha => Or.inl ha
  framesClosed := fun _ hf => absurd hf List.not_mem_nil
  cache := fun _ hc => absurd hc List.not_mem_nil
  below := fun _ hc => absurd hc List.not_mem_nil
  goal := fun _ hc => absurd hc List.not_mem_nil
  givenUp := fun _ hp => absurd hp List.not_mem_nil

theorem Leads.rank_le {B : ℕ} (hrank : G.Ranked B rank) {c₀ : C} {frames : List (Frame C α)}
    {c : C} (h : Leads G c₀ frames c) : rank c ≤ rank c₀ := by
  induction frames generalizing c with
  | nil => exact (congrArg rank (show c = c₀ from h)).le
  | cons f frames ih => exact (hrank.next h.2.1).le.trans (ih h.2.2)

/-- A choice is passed over. -/
theorem Inv.skip {c₀ : C} (h : Inv G R rank goal c₀ S) {a : α} {todo : List α}
    (htodo : S.todo = a :: todo)
    (ha : ∀ d, G.next S.config a = some d → Known R S.cache d) :
    Inv G R rank goal c₀ { S with todo := todo } :=
  { h with
    todo := fun b hb => h.todo b (htodo ▸ List.mem_cons_of_mem a hb)
    closed := (htodo ▸ h.closed).tried ha }

/-- A configuration is entered. -/
theorem Inv.push {B : ℕ} (hrank : G.Ranked B rank) (hrefl : ∀ c, R c c) {c₀ : C}
    (h : Inv G R rank goal c₀ S) (hgoal : ¬ goal S.config) {a : α} {todo : List α} {c : C}
    (htodo : S.todo = a :: todo) (hc : G.next S.config a = some c) :
    Inv G R rank goal c₀
      { S with
        config := c
        todo := G.options c
        frames := { config := S.config, choice := a, todo := todo } :: S.frames
        cache := S.cache ++ [c] } := by
  have hmono : ∀ d ∈ S.cache, d ∈ S.cache ++ [c] := fun d hd => List.mem_append_left _ hd
  have hknown : Known R (S.cache ++ [c]) c :=
    ⟨c, List.mem_append_right _ (List.mem_singleton_self c), hrefl c⟩
  refine
    { leads := ⟨h.todo a (htodo ▸ List.mem_cons_self), hc, h.leads⟩
      todo := fun _ hb => hb
      frames := List.forall_mem_cons.mpr
        ⟨fun b hb => h.todo b (htodo ▸ List.mem_cons_of_mem a hb), h.frames⟩
      closed := fun _ hb => Or.inl hb
      framesClosed := List.forall_mem_cons.mpr ⟨?_, fun f hf => (h.framesClosed f hf).mono hmono⟩
      cache := ?_
      below := ?_
      goal := ?_
      givenUp := h.givenUp }
  · refine ((htodo ▸ h.closed).mono hmono).tried fun d hd => ?_
    rwa [← Option.some.inj (hc.symm.trans hd)]
  · intro d hd
    rcases List.mem_append.mp hd with hold | hnew
    · rcases h.cache d hold with rfl | hframe | ⟨hclosed, hpath⟩
      · exact Or.inr (Or.inl List.mem_cons_self)
      · exact Or.inr (Or.inl (List.mem_cons_of_mem _ hframe))
      · exact Or.inr (Or.inr ⟨hclosed.mono hmono, hpath⟩)
    · exact Or.inl (List.mem_singleton.mp hnew)
  · intro d hd
    rcases List.mem_append.mp hd with hold | hnew
    · exact h.below d hold
    · rw [List.mem_singleton.mp hnew]
      exact (hrank.next hc).trans_le (h.leads.rank_le hrank)
  · intro d hd hdgoal
    rcases List.mem_append.mp hd with hold | hnew
    · exact absurd (h.goal d hold hdgoal ▸ hdgoal) hgoal
    · exact List.mem_singleton.mp hnew

/-- The search goes back. -/
theorem Inv.pop {c₀ : C} (h : Inv G R rank goal c₀ S) (hgoal : ¬ goal S.config) {f : Frame C α}
    {frames : List (Frame C α)} (htodo : S.todo = []) (hframes : S.frames = f :: frames) :
    Inv G R rank goal c₀
      { S with
        config := f.config, todo := f.todo, frames := frames
        givenUp := S.givenUp ++ [S.path] } := by
  have hmem : f ∈ S.frames := hframes ▸ List.mem_cons_self
  have hsub : ∀ g ∈ frames, g ∈ S.frames := fun g hg => hframes ▸ List.mem_cons_of_mem f hg
  have hwalk : G.Walk c₀ S.path S.config := h.leads.walk
  have hpath : S.path ≠ [] := by
    rw [Backtrack.path, hframes]
    simp
  refine
    { leads := ?_
      todo := h.frames f hmem
      frames := fun g hg => h.frames g (hsub g hg)
      closed := h.framesClosed f hmem
      framesClosed := fun g hg => h.framesClosed g (hsub g hg)
      cache := ?_
      below := h.below
      goal := fun c hc hcgoal => absurd (h.goal c hc hcgoal ▸ hcgoal) hgoal
      givenUp := ?_ }
  · have hleads := h.leads
    rw [hframes] at hleads
    exact hleads.2.2
  · intro c hc
    rcases h.cache c hc with rfl | hframe | ⟨hclosed, path, hp, hw⟩
    · exact Or.inr (Or.inr ⟨htodo ▸ h.closed, S.path,
        List.mem_append_right _ (List.mem_singleton_self _), hwalk⟩)
    · rw [hframes, List.map_cons, List.mem_cons] at hframe
      rcases hframe with rfl | hframe
      · exact Or.inl rfl
      · exact Or.inr (Or.inl hframe)
    · exact Or.inr (Or.inr ⟨hclosed, path, List.mem_append_left _ hp, hw⟩)
  · exact List.forall_mem_append.mpr
      ⟨h.givenUp, List.forall_mem_singleton.mpr ⟨hpath, S.config, hwalk⟩⟩

theorem Inv.step {B : ℕ} (hrank : G.Ranked B rank) (halike : G.Alike R)
    (hseen : ∀ cache c, seen cache c = true → Known R cache c) {c₀ : C}
    (h : Inv G R rank goal c₀ S) (hgoal : ¬ goal S.config) (hs : S.step G seen = some S') :
    Inv G R rank goal c₀ S' := by
  rcases step_cases hs with ⟨a, todo, htodo, ha, rfl⟩ | ⟨a, todo, c, htodo, hc, rfl⟩ |
    ⟨f, frames, htodo, hframes, rfl⟩
  · exact h.skip htodo fun d hd => hseen _ _ (ha d hd)
  · exact h.push hrank halike.equivalence.refl hgoal htodo hc
  · exact h.pop hgoal htodo hframes

/-- When the start has been given up, whatever can be reached is like something that was
entered and given up, which is no goal. -/
theorem Inv.known_of_walk (halike : G.Alike R) {c₀ : C} (h : Inv G R rank goal c₀ S)
    (hs : S.step G seen = none) {path : List α} {d : C} (hwalk : G.Walk c₀ path d)
    (hpath : path ≠ []) :
    ∃ c, R d c ∧ ¬ goal c ∧ ∃ path' ∈ S.givenUp, G.Walk c₀ path' c := by
  obtain ⟨htodo, hframes⟩ := step_eq_none hs
  obtain rfl : S.config = c₀ := by
    have hleads := h.leads
    rw [hframes] at hleads
    exact hleads
  have hfinished : ∀ c ∈ S.cache,
      Closed G R S.cache [] c ∧ ∃ path ∈ S.givenUp, G.Walk S.config path c := by
    intro c hc
    rcases h.cache c hc with rfl | hframe | hclosed
    · exact absurd (h.below _ hc) (lt_irrefl _)
    · rw [hframes] at hframe
      exact absurd hframe List.not_mem_nil
    · exact hclosed
  -- by induction on the walk: its end is like the start, or like something in the cache
  have hknown : ∀ {path d}, G.Walk S.config path d →
      path = [] ∧ d = S.config ∨ Known R S.cache d := by
    intro path d hwalk
    induction hwalk with
    | nil => exact Or.inl ⟨rfl, rfl⟩
    | @concat path d e a hwalk hoption hnext ih =>
        refine Or.inr ?_
        rcases ih with ⟨-, rfl⟩ | ⟨c, hc, hR⟩
        · rcases h.closed a hoption with hmem | hknown
          · rw [htodo] at hmem
            exact absurd hmem List.not_mem_nil
          · exact hknown e hnext
        · obtain ⟨e', hnext', hR'⟩ := halike.next hR hnext
          rcases (hfinished c hc).1 a (halike.options hR a hoption) with hmem | hknown
          · exact absurd hmem List.not_mem_nil
          · obtain ⟨c', hc', hR''⟩ := hknown e' hnext'
            exact ⟨c', hc', halike.equivalence.trans hR' hR''⟩
  rcases hknown hwalk with ⟨hnil, -⟩ | ⟨c, hc, hR⟩
  · exact absurd hnil hpath
  · refine ⟨c, hR, fun hgoal => ?_, (hfinished c hc).2⟩
    exact absurd (h.goal c hc hgoal ▸ h.below c hc) (lt_irrefl _)

end

/-! ## A search ends -/

section

variable {B : ℕ} {rank : C → ℕ}

/-- The steps that a choice can cost at a configuration of a given rank. -/
def cost (B : ℕ) : ℕ → ℕ
  | 0 => 2
  | r + 1 => B * cost B r + 3

theorem two_le_cost (B r : ℕ) : 2 ≤ cost B r := by
  cases r with
  | zero => exact le_rfl
  | succ r => exact (Nat.le_succ 2).trans (Nat.le_add_left 3 _)

theorem cost_mono (B : ℕ) : Monotone (cost B) := by
  refine monotone_nat_of_le_succ fun r => ?_
  induction r with
  | zero => exact (Nat.le_succ 2).trans (Nat.le_add_left 3 _)
  | succ r ih => exact Nat.add_le_add_right (Nat.mul_le_mul_left B ih) 3

/-- All the choices at a configuration cost less than the choice that led to it. -/
theorem cost_options_lt (hrank : G.Ranked B rank) {c d : C} {a : α}
    (h : G.next c a = some d) :
    (G.options d).length * cost B (rank d) + 2 < cost B (rank c) := by
  obtain ⟨r, hr⟩ := Nat.exists_eq_add_of_lt (hrank.next h)
  have hmono : cost B (rank d) ≤ cost B (rank d + r) := cost_mono B (Nat.le_add_right _ _)
  have hmul := Nat.mul_le_mul (hrank.options d) hmono
  rw [hr, cost]
  omega

/-- What is left to do at a configuration. -/
def left (B : ℕ) (rank : C → ℕ) (c : C) (todo : List α) : ℕ :=
  todo.length * cost B (rank c) + 1

/-- A bound on the steps that are left. -/
def measure (B : ℕ) (rank : C → ℕ) (S : Backtrack C α) : ℕ :=
  left B rank S.config S.todo + (S.frames.map fun f => left B rank f.config f.todo).sum

theorem measure_step (hrank : G.Ranked B rank) (hs : S.step G seen = some S') :
    S'.measure B rank < S.measure B rank := by
  rcases step_cases hs with ⟨a, todo, htodo, ha, rfl⟩ | ⟨a, todo, c, htodo, hc, rfl⟩ |
    ⟨f, frames, htodo, hframes, rfl⟩
  · have htwo := two_le_cost B (rank S.config)
    simp only [measure, left, htodo, List.length_cons, Nat.succ_mul]
    omega
  · have hlt := cost_options_lt hrank hc
    simp only [measure, left, htodo, List.length_cons, Nat.succ_mul, List.map_cons,
      List.sum_cons]
    omega
  · simp only [measure, left, htodo, hframes, List.length_nil, List.map_cons, List.sum_cons]
    omega

end

end Backtrack

end DistributedLabs
