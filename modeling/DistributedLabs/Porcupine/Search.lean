import Mathlib.Data.List.TakeWhile
import DistributedLabs.Logic.Backtracking
import DistributedLabs.Logic.Linearization
import DistributedLabs.Logic.Lists
import DistributedLabs.Porcupine.Checker

/-!
# What the checker searches

Of the entries of a history the search needs to know which are calls, and their ids; this
is a list of marks. An operation precedes another one if its return stands before the call
of the other one. The calls that can be linearized next, when the operations in a set
have been, are those that stand before the first return of what is left, and these are the
operations that no other one of those left precedes. So the ways through the search are
the partial linearizations of the history.
-/

namespace DistributedLabs

namespace Porcupine

/-! ## Models as sequential objects -/

namespace FullModel

variable {S I O : Type} (model : FullModel S I O)

/-- An operation is taken if `Step` says that it is possible. -/
def take (s : S) (io : I × O) : Option S :=
  let (ok, newState) := model.step s io.1 io.2
  if ok then some newState else none

/-- No sequence of operations tells the states apart. -/
def Same (s t : S) : Prop :=
  ∀ l : List (I × O), (exec model.take s l).isSome = (exec model.take t l).isSome

/-- `Equal` holds of states only if they are the same for all that follows. -/
def EqualSound : Prop := ∀ s t, model.equal s t = true → model.Same s t

variable {model}

theorem same_equivalence : Equivalence model.Same where
  refl _ _ := rfl
  symm h l := (h l).symm
  trans h h' l := (h l).trans (h' l)

theorem Same.take {s t s' : S} {io : I × O} (h : model.Same s t)
    (hs : model.take s io = some s') : ∃ t', model.take t io = some t' ∧ model.Same s' t' := by
  have hexec : ∀ l, (exec model.take s' l).isSome = (exec model.take t (io :: l)).isSome := by
    intro l
    rw [← h (io :: l), exec_cons, hs, Option.bind_some]
  have hsome := hexec []
  simp only [exec] at hsome
  cases ht : model.take t io with
  | none =>
      rw [ht] at hsome
      cases hsome
  | some t' =>
      refine ⟨t', rfl, fun l => ?_⟩
      rw [hexec l, exec_cons, ht, Option.bind_some]

end FullModel

/-! ## Marks -/

/-- Whether an entry is a call, and its id. -/
abbrev Mark := Bool × ℕ

def Entry.mark {I O : Type} (e : Entry I O) : Mark := (decide (e.kind = .callEntry), e.id)

/-- The return of `i` stands before the call of `j`. -/
def Precedes (marks : List Mark) (i j : ℕ) : Prop := [(false, i), (true, j)].Sublist marks

/-- Each of `n` operations has a call, and later a return. -/
structure WellFormed (n : ℕ) (marks : List Mark) : Prop where
  nodup : marks.Nodup
  mem_iff : ∀ b i, (b, i) ∈ marks ↔ i < n
  order : ∀ i, ¬ Precedes marks i i

/-- What is left of a history when the operations in `L` have been linearized. -/
def remaining (marks : List Mark) (L : Finset ℕ) : List Mark := marks.filter fun a => a.2 ∉ L

/-- The calls before the first return. -/
def firstCalls (marks : List Mark) : List ℕ := (marks.takeWhile Prod.fst).map Prod.snd

section

variable {n : ℕ} {marks : List Mark} {L : Finset ℕ} {i : ℕ}

theorem mem_firstCalls_iff (hnodup : marks.Nodup) :
    i ∈ firstCalls marks ↔ (true, i) ∈ marks ∧ ∀ j, ¬ Precedes marks j i := by
  have hmem : i ∈ firstCalls marks ↔ (true, i) ∈ marks.takeWhile Prod.fst := by
    refine List.mem_map.trans ⟨?_, fun h => ⟨_, h, rfl⟩⟩
    rintro ⟨⟨b, i⟩, ha, rfl⟩
    obtain rfl : b = true := List.mem_takeWhile_imp ha
    exact ha
  rw [hmem, mem_takeWhile_iff hnodup]
  refine and_congr_right fun _ => ⟨fun h j hj => ?_, fun h => ⟨rfl, ?_⟩⟩
  · exact absurd (h.2 _ hj) Bool.false_ne_true
  · rintro ⟨b, j⟩ hj
    cases b with
    | true => rfl
    | false => exact absurd hj (h j)

theorem WellFormed.mem_firstCalls_remaining (h : WellFormed n marks) :
    i ∈ firstCalls (remaining marks L) ↔
      i < n ∧ i ∉ L ∧ ∀ j, j ∉ L → ¬ Precedes marks j i := by
  rw [remaining, mem_firstCalls_iff (h.nodup.filter _), List.mem_filter, h.mem_iff]
  simp only [decide_eq_true_eq, and_assoc]
  refine and_congr_right fun _ => and_congr_right fun hi => forall_congr' fun j => ?_
  constructor
  · intro hnot hj hprecedes
    refine hnot ?_
    have hsub := hprecedes.filter fun a => decide (a.2 ∉ L)
    rwa [List.filter_eq_self.mpr] at hsub
    simp [hi, hj]
  · intro hnot hprecedes
    have hj : (false, j) ∈ marks.filter fun a => decide (a.2 ∉ L) :=
      hprecedes.subset List.mem_cons_self
    have hj' : j ∉ L := by simpa using (List.mem_filter.mp hj).2
    exact hnot hj' (hprecedes.trans List.filter_sublist)

/-- As long as something is left, there is a return to be met. -/
theorem WellFormed.remaining_eq_nil_iff (h : WellFormed n marks) (hL : L ⊆ Finset.range n) :
    remaining marks L = [] ↔ L = Finset.range n := by
  rw [remaining, List.filter_eq_nil_iff]
  constructor
  · intro hall
    refine Finset.Subset.antisymm hL fun j hj => ?_
    simpa using hall (true, j) ((h.mem_iff true j).mpr (Finset.mem_range.mp hj))
  · rintro rfl ⟨b, j⟩ hmem
    simpa using (h.mem_iff b j).mp hmem

end

/-! ## The search space -/

section

variable {S I O : Type} (model : FullModel S I O) (ops : List (I × O)) (marks : List Mark)

/-- The operation with a given id is taken. -/
def takeId (s : S) (i : ℕ) : Option S := (ops[i]?).bind (model.take s)

/-- A configuration is the set of the operations that have been linearized, and the
state. -/
def space : Choices (Finset ℕ × S) ℕ where
  options c := firstCalls (remaining marks c.1)
  next c i := if i ∈ c.1 then none else (takeId model ops c.2 i).map fun s => (insert i c.1, s)

/-- Two configurations from which the same can be linearized. -/
def Like (c d : Finset ℕ × S) : Prop := c.1 = d.1 ∧ model.Same c.2 d.2

/-- A partial linearization: the operations in `l` can be taken in this order, each of
them when no operation that precedes it is left. -/
structure PartialLinearization (l : List ℕ) : Prop where
  nodup : l.Nodup
  order : ∀ xs i ys, l = xs ++ i :: ys → ∀ j, j ∉ xs → ¬ Precedes marks j i
  legal : (exec (takeId model ops) model.init l).isSome

variable {model ops marks}

theorem next_eq_some {c d : Finset ℕ × S} {i : ℕ} :
    (space model ops marks).next c i = some d ↔
      i ∉ c.1 ∧ takeId model ops c.2 i = some d.2 ∧ d.1 = insert i c.1 := by
  obtain ⟨L, s⟩ := c
  obtain ⟨L', s'⟩ := d
  by_cases hi : i ∈ L
  · simp [space, hi]
  · simp [space, hi, eq_comm, and_comm]

theorem lt_of_takeId {s s' : S} {i : ℕ} (h : takeId model ops s i = some s') :
    i < ops.length := by
  obtain ⟨io, hio, -⟩ := Option.bind_eq_some_iff.mp h
  exact (List.getElem?_eq_some_iff.mp hio).1

theorem space_alike : (space model ops marks).Alike (Like model) where
  equivalence :=
    { refl := fun c => ⟨rfl, FullModel.same_equivalence.refl c.2⟩
      symm := fun h => ⟨h.1.symm, FullModel.same_equivalence.symm h.2⟩
      trans := fun h h' => ⟨h.1.trans h'.1, FullModel.same_equivalence.trans h.2 h'.2⟩ }
  options := by
    rintro ⟨L, s⟩ ⟨L', s'⟩ ⟨rfl, -⟩ a ha
    exact ha
  next := by
    rintro ⟨L, s⟩ ⟨L', t⟩ ⟨L'', s'⟩ i ⟨rfl, hsame⟩ hnext
    obtain ⟨hi, htake, rfl⟩ := next_eq_some.mp hnext
    obtain ⟨io, hio, hs⟩ := Option.bind_eq_some_iff.mp htake
    obtain ⟨t', ht, hsame'⟩ := hsame.take hs
    exact ⟨(insert i L, t'), next_eq_some.mpr ⟨hi, Option.bind_eq_some_iff.mpr ⟨io, hio, ht⟩, rfl⟩,
      rfl, hsame'⟩

theorem space_ranked :
    (space model ops marks).Ranked marks.length
      fun c => (Finset.range ops.length \ c.1).card where
  options c := by
    refine (List.length_map _).trans_le ?_
    exact ((List.takeWhile_sublist _).trans List.filter_sublist).length_le
  next := by
    intro c d i hnext
    obtain ⟨hi, htake, hd⟩ := next_eq_some.mp hnext
    refine Finset.card_lt_card (Finset.ssubset_iff_of_subset ?_ |>.mpr ⟨i, ?_, ?_⟩)
    · rw [hd]
      exact Finset.sdiff_subset_sdiff le_rfl (Finset.subset_insert i c.1)
    · exact Finset.mem_sdiff.mpr ⟨Finset.mem_range.mpr (lt_of_takeId htake), hi⟩
    · simp [hd]

/-- The ways through the search space are the partial linearizations. -/
theorem walk_iff (hwf : WellFormed ops.length marks) {l : List ℕ} {c : Finset ℕ × S} :
    (space model ops marks).Walk (∅, model.init) l c ↔
      PartialLinearization model ops marks l ∧ c.1 = l.toFinset ∧
        exec (takeId model ops) model.init l = some c.2 := by
  constructor
  · intro h
    induction h with
    | nil =>
        refine ⟨⟨List.nodup_nil, fun xs i ys h => ?_, rfl⟩, rfl, rfl⟩
        simp at h
    | @concat l c d i _ hoption hnext ih =>
        obtain ⟨⟨hnodup, horder, -⟩, hset, hexec⟩ := ih
        obtain ⟨hi, htake, hd⟩ := next_eq_some.mp hnext
        have hexec' : exec (takeId model ops) model.init (l ++ [i]) = some d.2 := by
          rw [exec_append, hexec, Option.bind_some, exec_cons, htake]
          rfl
        have hmem : i ∉ l := by rwa [hset, List.mem_toFinset] at hi
        refine ⟨⟨?_, fun xs j ys hsplit k hk => ?_, by rw [hexec']; rfl⟩, ?_, hexec'⟩
        · exact List.nodup_append.mpr ⟨hnodup, List.nodup_singleton i,
            fun a ha b hb heq => hmem (List.mem_singleton.mp hb ▸ heq ▸ ha)⟩
        · rcases List.append_eq_append_iff.mp hsplit with ⟨as, rfl, has⟩ | ⟨bs, rfl, hbs⟩
          · cases as with
            | nil =>
                obtain ⟨rfl, -⟩ := List.cons.inj has
                rw [List.append_nil] at hk
                refine (hwf.mem_firstCalls_remaining.mp hoption).2.2 k ?_
                rwa [hset, List.mem_toFinset]
            | cons a as => simp at has
          · cases bs with
            | nil =>
                obtain ⟨rfl, -⟩ := List.cons.inj hbs
                refine (hwf.mem_firstCalls_remaining.mp hoption).2.2 k ?_
                rw [hset, List.mem_toFinset, List.append_nil]
                exact hk
            | cons b bs =>
                obtain ⟨rfl, -⟩ := List.cons.inj hbs
                exact horder xs j bs rfl k hk
        · rw [hd, hset, List.toFinset_append]
          ext
          simp
  · rintro ⟨h, hset, hexec⟩
    obtain ⟨L, s⟩ := c
    obtain rfl : L = l.toFinset := hset
    induction l using List.reverseRecOn generalizing s with
    | nil =>
        obtain rfl := Option.some.inj hexec
        exact .nil
    | append_singleton l i ih =>
        obtain ⟨s₁, hs₁, hlast⟩ := exec_append_eq_some.mp hexec
        obtain ⟨s₂, htake, hs₂⟩ := exec_cons_eq_some.mp hlast
        obtain rfl := Option.some.inj hs₂
        have hnodup := List.nodup_append.mp h.nodup
        have hi : i ∉ l := fun hmem => hnodup.2.2 i hmem i (List.mem_singleton_self i) rfl
        have hpart : PartialLinearization model ops marks l :=
          ⟨hnodup.1, fun xs j ys hsplit => h.order xs j (ys ++ [i]) (by simp [hsplit]),
            by rw [hs₁]; rfl⟩
        refine .concat (ih hpart s₁ hs₁) ?_ (next_eq_some.mpr ⟨by simpa using hi, htake, ?_⟩)
        · refine hwf.mem_firstCalls_remaining.mpr ⟨lt_of_takeId htake, by simpa using hi, ?_⟩
          intro j hj
          exact h.order l i [] rfl j (by simpa using hj)
        · ext
          simp

/-- A partial linearization in which nothing is missing is a linearization. -/
theorem partialLinearization_iff (hwf : WellFormed ops.length marks) {l : List ℕ} :
    PartialLinearization model ops marks l ∧ l.toFinset = Finset.range ops.length ↔
      Linearizes (takeId model ops) (Precedes marks) model.init (List.range ops.length) l := by
  constructor
  · rintro ⟨h, hset⟩
    have hperm : l.Perm (List.range ops.length) := by
      refine (List.perm_ext_iff_of_nodup h.nodup List.nodup_range).mpr fun j => ?_
      rw [← List.mem_toFinset, hset, Finset.mem_range, List.mem_range]
    refine ⟨hperm, ?_, h.legal⟩
    refine List.pairwise_iff_forall_sublist.mpr fun {a b} hsub hprecedes => ?_
    obtain ⟨xs, ys, rfl, hb⟩ : ∃ xs ys, l = xs ++ a :: ys ∧ b ∈ ys := by
      obtain ⟨r₁, r₂, rfl, ha, hb⟩ := List.cons_sublist_iff.mp hsub
      obtain ⟨xs, ys, rfl⟩ := List.append_of_mem ha
      exact ⟨xs, ys ++ r₂, by simp, List.mem_append_right _ (List.singleton_sublist.mp hb)⟩
    refine h.order xs a ys rfl b (fun hmem => ?_) hprecedes
    have hnodup := h.nodup
    exact (List.nodup_append.mp hnodup).2.2 b hmem b (List.mem_cons_of_mem a hb) rfl
  · intro h
    have hmem : ∀ j, j ∈ l ↔ j < ops.length := fun j => h.perm.mem_iff.trans List.mem_range
    refine ⟨⟨h.perm.nodup_iff.mpr List.nodup_range, fun xs i ys hsplit j hj hprecedes => ?_,
      h.legal⟩, ?_⟩
    · have hlt : j < ops.length :=
        (hwf.mem_iff false j).mp (hprecedes.subset List.mem_cons_self)
      have hj' : j ∈ l := (hmem j).mpr hlt
      rw [hsplit, List.mem_append, List.mem_cons] at hj'
      rcases hj' with hj' | rfl | hj'
      · exact hj hj'
      · exact hwf.order _ hprecedes
      · have horder := h.order
        rw [hsplit, List.pairwise_append, List.pairwise_cons] at horder
        exact horder.2.1.1 j hj' hprecedes
    · ext j
      rw [List.mem_toFinset, hmem, Finset.mem_range]

end

end Porcupine

end DistributedLabs
