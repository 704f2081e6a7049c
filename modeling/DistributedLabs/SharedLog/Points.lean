import DistributedLabs.SharedLog.History

/-!
# Linearization points

The calls of an atomic object are ordered by the moments at which they take
effect. `Linearized` says that a list of calls in this order explains a history
and leads to a given state. It follows a run in four kinds of steps: a call is
invoked, it takes effect, it returns; and a call that only reads may be taken back
as long as it has not returned, to be put at a later place.
-/

namespace DistributedLabs

namespace SharedLog

variable {σ ι Op Ret : Type*} {spec : SeqSpec σ Op Ret} {H : List (Event ι Op Ret)}
  {L : List (Call ι Op Ret)} {x : σ}

/-- The calls of `L`, in this order, explain the history `H` and lead to `x`. -/
structure Linearized (spec : SeqSpec σ Op Ret) (H : List (Event ι Op Ret))
    (L : List (Call ι Op Ret)) (x : σ) : Prop where
  runs : spec.Runs spec.init L x
  nodup : (L.map Call.id).Nodup
  invoked : ∀ c ∈ L, .inv c.id c.op ∈ H
  complete : ∀ id r, .ret id r ∈ H → ∃ c ∈ L, c.id = id ∧ c.ret = r
  order : L.Pairwise fun a b => ¬ Precedes H b.id a.id

theorem Precedes.returned {a b : ι} (h : Precedes H a b) : ∃ r, Event.ret a r ∈ H := by
  obtain ⟨i, j, r, op, -, hi, -⟩ := h
  exact ⟨r, List.mem_of_getElem? hi⟩

/-- A legal sequence of calls stays legal without some calls that only read. -/
theorem SeqSpec.Runs.filter {y : σ} (p : Call ι Op Ret → Bool) (h : spec.Runs x L y)
    (hp : ∀ c ∈ L, p c = false → ∀ z, (spec.step z c.op).1 = z) :
    spec.Runs x (L.filter p) y := by
  induction L generalizing x with
  | nil => exact h
  | cons c L ih =>
      have htail := fun d hd => hp d (List.mem_cons_of_mem c hd)
      cases hc : p c with
      | true =>
          rw [List.filter_cons_of_pos hc]
          exact ⟨h.1, ih h.2 htail⟩
      | false =>
          have hread := h.2
          rw [hp c List.mem_cons_self hc x] at hread
          rw [List.filter_cons_of_neg (by simp [hc])]
          exact ih hread htail

namespace Linearized

theorem nil (spec : SeqSpec σ Op Ret) :
    Linearized spec ([] : List (Event ι Op Ret)) [] spec.init where
  runs := rfl
  nodup := List.nodup_nil
  invoked := by simp
  complete := by simp
  order := .nil

theorem linearizable (h : Linearized spec H L x) : Linearizable spec H :=
  ⟨L, ⟨x, h.runs⟩, h.nodup, h.invoked, h.complete, h.order⟩

theorem eq_of_id (h : Linearized spec H L x) {c d : Call ι Op Ret} (hc : c ∈ L) (hd : d ∈ L)
    (hid : c.id = d.id) : c = d :=
  List.inj_on_of_nodup_map h.nodup hc hd hid

/-- A call that has not taken effect has not returned. -/
theorem not_returned (h : Linearized spec H L x) {id : ι} (hid : id ∉ L.map Call.id) (r : Ret) :
    Event.ret id r ∉ H := by
  intro hret
  obtain ⟨c, hc, rfl, -⟩ := h.complete id r hret
  exact hid (List.mem_map_of_mem hc)

theorem invoke (h : Linearized spec H L x) {id : ι} (hid : id ∉ L.map Call.id) (op : Op) :
    Linearized spec (H ++ [.inv id op]) L x where
  runs := h.runs
  nodup := h.nodup
  invoked c hc := List.mem_append_left _ (h.invoked c hc)
  complete id' r hret := h.complete id' r (by simpa using hret)
  order := by
    refine h.order.imp_of_mem fun {a b} ha _ hab hprec => ?_
    rcases precedes_append_inv hprec with hprec | ⟨heq, -⟩
    · exact hab hprec
    · exact hid (heq ▸ List.mem_map_of_mem ha)

/-- A call takes effect: it goes to the end of the order. -/
theorem point (h : Linearized spec H L x) {id : ι} {op : Op} (hinv : Event.inv id op ∈ H)
    (hid : id ∉ L.map Call.id) :
    Linearized spec H (L ++ [{ id := id, op := op, ret := (spec.step x op).2 }])
      (spec.step x op).1 where
  runs := h.runs.append ⟨rfl, rfl⟩
  nodup := by
    rw [List.map_append, List.nodup_append]
    refine ⟨h.nodup, by simp, fun a ha b hb hab => ?_⟩
    obtain rfl : b = id := by simpa using hb
    exact hid (hab ▸ ha)
  invoked c hc := by
    rcases List.mem_append.mp hc with hc | hc
    · exact h.invoked c hc
    · obtain rfl := List.mem_singleton.mp hc
      exact hinv
  complete id' r hret := by
    obtain ⟨c, hc, hcid⟩ := h.complete id' r hret
    exact ⟨c, List.mem_append_left _ hc, hcid⟩
  order := by
    refine List.pairwise_append.mpr ⟨h.order, List.pairwise_singleton _ _, ?_⟩
    intro a _ b hb hprec
    obtain rfl := List.mem_singleton.mp hb
    obtain ⟨r, hret⟩ := hprec.returned
    exact h.not_returned hid r hret

theorem respond (h : Linearized spec H L x) {c : Call ι Op Ret} (hc : c ∈ L) :
    Linearized spec (H ++ [.ret c.id c.ret]) L x where
  runs := h.runs
  nodup := h.nodup
  invoked d hd := List.mem_append_left _ (h.invoked d hd)
  complete id r hret := by
    rcases List.mem_append.mp hret with hret | hret
    · exact h.complete id r hret
    · cases List.mem_singleton.mp hret
      exact ⟨c, hc, rfl, rfl⟩
  order := h.order.imp fun hab hprec => hab (precedes_append_ret hprec)

/-- A read that has not returned is taken back. -/
theorem cancel [DecidableEq ι] (h : Linearized spec H L x) {id : ι}
    (hread : ∀ c ∈ L, c.id = id → ∀ z, (spec.step z c.op).1 = z)
    (hret : ∀ r, Event.ret id r ∉ H) :
    Linearized spec H (L.filter fun c => c.id ≠ id) x where
  runs := h.runs.filter _ fun c hc hid => hread c hc (by simpa using hid)
  nodup := h.nodup.sublist (List.filter_sublist.map _)
  invoked c hc := h.invoked c (List.mem_of_mem_filter hc)
  complete id' r hret' := by
    obtain ⟨c, hc, rfl, rfl⟩ := h.complete id' r hret'
    refine ⟨c, List.mem_filter.mpr ⟨hc, ?_⟩, rfl, rfl⟩
    have hne : c.id ≠ id := fun heq => hret c.ret (heq ▸ hret')
    simpa using hne
  order := h.order.sublist List.filter_sublist

end Linearized

end SharedLog

end DistributedLabs
