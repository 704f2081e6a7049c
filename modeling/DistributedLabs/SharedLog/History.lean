import Mathlib.Data.List.Range
import Mathlib.Data.List.Nodup
import DistributedLabs.Logic.Lists

/-!
# Histories and linearizability

A history lists the invocations and the responses of calls in the order in which
they happen. It is linearizable if its completed calls, with some of the pending
ones, can be put in an order in which the sequential object gives the recorded
answers and in which no call stands before one that had returned before it was
invoked.

Calls that are ordered by positions of a log come in blocks, one block for each
position; `Linearizable.of_blocks` is the rule for such an order.
-/

namespace DistributedLabs

namespace SharedLog

variable {σ ι Op Ret : Type*}

/-- A sequential object. -/
structure SeqSpec (σ Op Ret : Type*) where
  init : σ
  step : σ → Op → σ × Ret

/-- A call with its answer. -/
structure Call (ι Op Ret : Type*) where
  id : ι
  op : Op
  ret : Ret

/-- What a client sees of a call. -/
inductive Event (ι Op Ret : Type*) where
  | inv (id : ι) (op : Op)
  | ret (id : ι) (r : Ret)

/-- The object goes from one state to another by a sequence of calls, and gives
each of them the recorded answer. -/
def SeqSpec.Runs (spec : SeqSpec σ Op Ret) : σ → List (Call ι Op Ret) → σ → Prop
  | x, [], y => x = y
  | x, c :: cs, y => (spec.step x c.op).2 = c.ret ∧ spec.Runs (spec.step x c.op).1 cs y

/-- The call `a` has returned before the call `b` is invoked. -/
def Precedes (H : List (Event ι Op Ret)) (a b : ι) : Prop :=
  ∃ (i j : ℕ) (r : Ret) (op : Op), i < j ∧ H[i]? = some (.ret a r) ∧ H[j]? = some (.inv b op)

/-- The calls of `L`, one after the other, explain the history `H`. -/
structure Linearizes (spec : SeqSpec σ Op Ret) (H : List (Event ι Op Ret))
    (L : List (Call ι Op Ret)) : Prop where
  legal : ∃ y, spec.Runs spec.init L y
  nodup : (L.map Call.id).Nodup
  invoked : ∀ c ∈ L, .inv c.id c.op ∈ H
  complete : ∀ id r, .ret id r ∈ H → ∃ c ∈ L, c.id = id ∧ c.ret = r
  order : L.Pairwise fun a b => ¬ Precedes H b.id a.id

def Linearizable (spec : SeqSpec σ Op Ret) (H : List (Event ι Op Ret)) : Prop :=
  ∃ L, Linearizes spec H L

theorem precedes_append_inv {H : List (Event ι Op Ret)} {a b c : ι} {op : Op}
    (h : Precedes (H ++ [.inv c op]) a b) :
    Precedes H a b ∨ b = c ∧ ∃ r, Event.ret a r ∈ H := by
  obtain ⟨i, j, r, op', hij, hi, hj⟩ := h
  have hi' : H[i]? = some (.ret a r) := by
    rcases getElem?_concat_cases hi with hi | ⟨-, he⟩
    · exact hi
    · cases he
  rcases getElem?_concat_cases hj with hj | ⟨-, he⟩
  · exact Or.inl ⟨i, j, r, op', hij, hi', hj⟩
  · cases he
    exact Or.inr ⟨rfl, r, List.mem_of_getElem? hi'⟩

theorem precedes_append_ret {H : List (Event ι Op Ret)} {a b c : ι} {r : Ret}
    (h : Precedes (H ++ [.ret c r]) a b) : Precedes H a b := by
  obtain ⟨i, j, r', op, hij, hi, hj⟩ := h
  have hj' : H[j]? = some (.inv b op) := by
    rcases getElem?_concat_cases hj with hj | ⟨-, he⟩
    · exact hj
    · cases he
  have hlt := (List.getElem?_eq_some_iff.mp hj').1
  rw [List.getElem?_append_left (hij.trans hlt)] at hi
  exact ⟨i, j, r', op, hij, hi, hj'⟩

theorem SeqSpec.Runs.append {spec : SeqSpec σ Op Ret} {x y z : σ}
    {L₁ L₂ : List (Call ι Op Ret)} (h₁ : spec.Runs x L₁ y) (h₂ : spec.Runs y L₂ z) :
    spec.Runs x (L₁ ++ L₂) z := by
  induction L₁ generalizing x with
  | nil =>
      obtain rfl : x = y := h₁
      exact h₂
  | cons c L₁ ih => exact ⟨h₁.1, ih h₁.2⟩

/-- Calls that leave the state alone. -/
theorem SeqSpec.runs_of_forall {spec : SeqSpec σ Op Ret} {x : σ} {L : List (Call ι Op Ret)}
    (h : ∀ c ∈ L, spec.step x c.op = (x, c.ret)) : spec.Runs x L x := by
  induction L with
  | nil => exact rfl
  | cons c L ih =>
      have hc := h c List.mem_cons_self
      refine ⟨by rw [hc], ?_⟩
      rw [hc]
      exact ih fun c' hc' => h c' (List.mem_cons_of_mem c hc')

/-- The calls of the blocks `0, 1, ..., N - 1`. -/
def blocks (block : ℕ → List (Call ι Op Ret)) (N : ℕ) : List (Call ι Op Ret) :=
  (List.range N).flatMap block

theorem runs_blocks {spec : SeqSpec σ Op Ret} {block : ℕ → List (Call ι Op Ret)} {st : ℕ → σ}
    {N : ℕ} (h : ∀ b < N, spec.Runs (st b) (block b) (st (b + 1))) :
    spec.Runs (st 0) (blocks block N) (st N) := by
  induction N with
  | zero => exact rfl
  | succ N ih =>
      rw [blocks, List.range_succ, List.flatMap_append, List.flatMap_singleton]
      exact (ih fun b hb => h b (hb.trans N.lt_succ_self)).append (h N N.lt_succ_self)

theorem mem_blocks {block : ℕ → List (Call ι Op Ret)} {N : ℕ} {c : Call ι Op Ret} :
    c ∈ blocks block N ↔ ∃ b < N, c ∈ block b := by
  simp [blocks]

/-- Calls in blocks explain a history if a call that returns before another one
is invoked stands in an earlier block. -/
theorem Linearizable.of_blocks {spec : SeqSpec σ Op Ret} {H : List (Event ι Op Ret)} {N : ℕ}
    {block : ℕ → List (Call ι Op Ret)} {st : ℕ → σ} (hinit : st 0 = spec.init)
    (hruns : ∀ b < N, spec.Runs (st b) (block b) (st (b + 1)))
    (hnodup : ∀ b < N, ((block b).map Call.id).Nodup)
    (hunique : ∀ b b' x y, x ∈ block b → y ∈ block b' → x.id = y.id → b = b')
    (hinvoked : ∀ b < N, ∀ x ∈ block b, .inv x.id x.op ∈ H)
    (hcomplete : ∀ id r, .ret id r ∈ H → ∃ b < N, ∃ x ∈ block b, x.id = id ∧ x.ret = r)
    (horder : ∀ b b' x y, x ∈ block b → y ∈ block b' → Precedes H x.id y.id → b < b') :
    Linearizable spec H := by
  refine ⟨blocks block N, ?_⟩
  exact
    { legal := ⟨st N, hinit ▸ runs_blocks hruns⟩
      nodup := by
        rw [blocks, List.map_flatMap, List.nodup_flatMap]
        refine ⟨fun b hb => hnodup b (List.mem_range.mp hb), ?_⟩
        refine (List.nodup_range (n := N)).imp ?_
        intro b b' hne id hid hid'
        obtain ⟨x, hx, rfl⟩ := List.mem_map.mp hid
        obtain ⟨y, hy, he⟩ := List.mem_map.mp hid'
        exact hne (hunique b b' x y hx hy he.symm)
      invoked := by
        intro c hc
        obtain ⟨b, hb, hc⟩ := mem_blocks.mp hc
        exact hinvoked b hb c hc
      complete := by
        intro id r hret
        obtain ⟨b, hb, x, hx, hid, hr⟩ := hcomplete id r hret
        exact ⟨x, mem_blocks.mpr ⟨b, hb, hx⟩, hid, hr⟩
      order := by
        rw [blocks, List.pairwise_flatMap]
        constructor
        · intro b _
          refine List.pairwise_of_forall_mem_list ?_
          intro x hx y hy hprec
          exact (horder b b y x hy hx hprec).false
        · refine (List.pairwise_lt_range (n := N)).imp ?_
          intro b b' hlt x hx y hy hprec
          exact (horder b' b y x hy hx hprec).asymm hlt }

end SharedLog

end DistributedLabs
