import Mathlib.Data.List.Perm.Basic
import Mathlib.Data.List.Nodup
import Mathlib.Data.List.Dedup
import Mathlib.Order.Lattice
import DistributedLabs.Logic.Run

/-!
# Linearizations

Operations take time. A linearization is an order of the operations in which an object
can take them one after the other, and in which no operation comes before one that was
over when it began.

If the object is one object for each key, it is enough to look at each key alone. Given a
linearization for each key, an operation is assigned the latest time at which it or an
operation before it, under the same key, was called. This is a time at which the
operation was going on, and with all operations in the order of these times there is a
linearization of the whole.
-/

namespace DistributedLabs

variable {α β σ κ τ : Type*}

/-- `l` is a linearization of `ops` from the state `s`. -/
structure Linearizes (take : σ → α → Option σ) (before : α → α → Prop) (s : σ)
    (ops l : List α) : Prop where
  perm : l.Perm ops
  order : l.Pairwise fun a b => ¬ before b a
  legal : (exec take s l).isSome

def HasLinearization (take : σ → α → Option σ) (before : α → α → Prop) (s : σ)
    (ops : List α) : Prop :=
  ∃ l, Linearizes take before s ops l

/-! ## Operations by name -/

/-- A reordering of an image is the image of a reordering. -/
theorem exists_perm_of_perm_map {f : β → α} {l : List α} {m : List β} (h : l.Perm (m.map f)) :
    ∃ m' : List β, m'.Perm m ∧ m'.map f = l := by
  generalize hr : m.map f = r at h
  induction h generalizing m with
  | nil => exact ⟨m, .refl m, hr⟩
  | cons a _ ih =>
      obtain ⟨b, m, rfl, rfl, htail⟩ := List.map_eq_cons_iff.mp hr
      obtain ⟨m', hperm, hmap⟩ := ih htail
      exact ⟨b :: m', hperm.cons b, by rw [List.map_cons, hmap]⟩
  | swap a b l =>
      obtain ⟨x, m, rfl, rfl, htail⟩ := List.map_eq_cons_iff.mp hr
      obtain ⟨y, m, rfl, rfl, htail'⟩ := List.map_eq_cons_iff.mp htail
      exact ⟨y :: x :: m, .swap x y m, by rw [List.map_cons, List.map_cons, htail']⟩
  | trans _ _ ih₁ ih₂ =>
      obtain ⟨m₁, hperm₁, hmap₁⟩ := ih₂ hr
      obtain ⟨m₂, hperm₂, hmap₂⟩ := ih₁ hmap₁
      exact ⟨m₂, hperm₂.trans hperm₁, hmap₂⟩

theorem exec_map {take : σ → α → Option σ} {f : β → α} (s : σ) (l : List β) :
    exec take s (l.map f) = exec (fun s b => take s (f b)) s l := by
  induction l generalizing s with
  | nil => rfl
  | cons b l ih =>
      rw [List.map_cons, exec_cons, exec_cons]
      exact congrArg _ (funext ih)

/-- Operations may be named. -/
theorem hasLinearization_map_iff {take : σ → α → Option σ} {before : α → α → Prop} {s : σ}
    (f : β → α) (ops : List β) :
    HasLinearization take before s (ops.map f) ↔
      HasLinearization (fun s b => take s (f b)) (fun a b => before (f a) (f b)) s ops := by
  constructor
  · rintro ⟨l, hl⟩
    obtain ⟨m, hperm, rfl⟩ := exists_perm_of_perm_map hl.perm
    exact ⟨m, hperm, List.pairwise_map.mp hl.order, exec_map s m ▸ hl.legal⟩
  · rintro ⟨m, hm⟩
    exact ⟨m.map f, hm.perm.map f, List.pairwise_map.mpr hm.order, (exec_map s m).symm ▸ hm.legal⟩

/-! ## One object for each key -/

section

variable [DecidableEq κ] (key : α → κ) (take : σ → α → Option σ)

/-- An operation is taken by the object of its key. -/
def keyed (s : κ → σ) (a : α) : Option (κ → σ) :=
  (take (s (key a)) a).map (Function.update s (key a))

theorem exec_keyed_isSome_iff (s : κ → σ) (l : List α) :
    (exec (keyed key take) s l).isSome ↔
      ∀ k, (exec take (s k) (l.filter fun a => key a = k)).isSome := by
  induction l generalizing s with
  | nil => simp [exec]
  | cons a l ih =>
      rw [exec_cons, keyed]
      cases hs : take (s (key a)) a with
      | none =>
          refine iff_of_false (by simp) fun h => ?_
          have hkey := h (key a)
          rw [List.filter_cons_of_pos (by simp), exec_cons, hs] at hkey
          exact absurd hkey (by simp)
      | some t =>
          rw [Option.map_some, Option.bind_some, ih]
          refine forall_congr' fun k => ?_
          by_cases hk : key a = k
          · subst hk
            rw [Function.update_self, List.filter_cons_of_pos (by simp), exec_cons, hs,
              Option.bind_some]
          · rw [Function.update_of_ne (Ne.symm hk), List.filter_cons_of_neg (by simpa using hk)]

/-- A linearization of the whole is one for each key. -/
theorem Linearizes.filter {before : α → α → Prop} {s : κ → σ} {ops l : List α}
    (h : Linearizes (keyed key take) before s ops l) (k : κ) :
    Linearizes take before (s k) (ops.filter fun a => key a = k) (l.filter fun a => key a = k)
    where
  perm := h.perm.filter _
  order := h.order.filter _
  legal := (exec_keyed_isSome_iff key take s l).mp h.legal k

end

/-! ## Points in time -/

section

variable [LinearOrder τ] (call ret : α → τ)

/-- Each operation with the latest call among `p` and those up to it. -/
def stampFrom (p : τ) : List α → List (τ × α)
  | [] => []
  | a :: l => (max p (call a), a) :: stampFrom (max p (call a)) l

def stamp : List α → List (τ × α)
  | [] => []
  | a :: l => (call a, a) :: stampFrom call (call a) l

theorem stampFrom_map_snd (p : τ) (l : List α) : (stampFrom call p l).map Prod.snd = l := by
  induction l generalizing p with
  | nil => rfl
  | cons a l ih => rw [stampFrom, List.map_cons, ih]

theorem stamp_map_snd (l : List α) : (stamp call l).map Prod.snd = l := by
  cases l with
  | nil => rfl
  | cons a l => rw [stamp, List.map_cons, stampFrom_map_snd]

theorem stampFrom_sorted (p : τ) (l : List α) :
    (∀ x ∈ stampFrom call p l, p ≤ x.1) ∧
      (stampFrom call p l).Pairwise fun x y => x.1 ≤ y.1 := by
  induction l generalizing p with
  | nil => exact ⟨by simp [stampFrom], .nil⟩
  | cons a l ih =>
      obtain ⟨hle, hsorted⟩ := ih (max p (call a))
      refine ⟨List.forall_mem_cons.mpr ⟨le_max_left _ _, fun x hx => ?_⟩, hsorted.cons hle⟩
      exact (le_max_left _ _).trans (hle x hx)

theorem stamp_sorted (l : List α) : (stamp call l).Pairwise fun x y => x.1 ≤ y.1 := by
  cases l with
  | nil => exact .nil
  | cons a l =>
      obtain ⟨hle, hsorted⟩ := stampFrom_sorted call (call a) l
      exact hsorted.cons hle

theorem mem_stampFrom {p : τ} {l : List α} (hp : ∀ a ∈ l, p ≤ ret a)
    (hwf : ∀ a ∈ l, call a ≤ ret a) (horder : l.Pairwise fun a b => ¬ ret b < call a) :
    ∀ x ∈ stampFrom call p l, call x.2 ≤ x.1 ∧ x.1 ≤ ret x.2 := by
  induction l generalizing p with
  | nil => simp [stampFrom]
  | cons a l ih =>
      obtain ⟨hpa, hp⟩ := List.forall_mem_cons.mp hp
      obtain ⟨hwfa, hwf⟩ := List.forall_mem_cons.mp hwf
      obtain ⟨hordera, horder⟩ := List.pairwise_cons.mp horder
      refine List.forall_mem_cons.mpr ⟨⟨le_max_right _ _, max_le hpa hwfa⟩, ?_⟩
      exact ih (fun b hb => max_le (hp b hb) (not_lt.mp (hordera b hb))) hwf horder

/-- An operation is going on at its point in time. -/
theorem mem_stamp {l : List α} (hwf : ∀ a ∈ l, call a ≤ ret a)
    (horder : l.Pairwise fun a b => ¬ ret b < call a) :
    ∀ x ∈ stamp call l, call x.2 ≤ x.1 ∧ x.1 ≤ ret x.2 := by
  cases l with
  | nil => simp [stamp]
  | cons a l =>
      obtain ⟨hwfa, hwf⟩ := List.forall_mem_cons.mp hwf
      obtain ⟨hordera, horder⟩ := List.pairwise_cons.mp horder
      refine List.forall_mem_cons.mpr ⟨⟨le_rfl, hwfa⟩, ?_⟩
      exact mem_stampFrom call ret (fun b hb => not_lt.mp (hordera b hb)) hwf horder

end

/-! ## Locality -/

section

variable [DecidableEq κ] {key : α → κ}

/-- A list is made up of its parts. -/
theorem flatMap_filter_perm {ks : List κ} (hks : ks.Nodup) (l : List α)
    (hl : ∀ a ∈ l, key a ∈ ks) : (ks.flatMap fun k => l.filter fun a => key a = k).Perm l := by
  induction l with
  | nil => simp
  | cons a l ih =>
      obtain ⟨ha, hl⟩ := List.forall_mem_cons.mp hl
      obtain ⟨ks₁, ks₂, rfl⟩ := List.append_of_mem ha
      have hother : ∀ ks' : List κ, key a ∉ ks' →
          (ks'.flatMap fun k => (a :: l).filter fun b => key b = k) =
            ks'.flatMap fun k => l.filter fun b => key b = k := by
        intro ks' hks'
        refine List.flatMap_congr fun k hk => ?_
        exact List.filter_cons_of_neg (by simpa using fun heq : key a = k => hks' (heq ▸ hk))
      have hnodup := List.nodup_middle.mp hks
      obtain ⟨hnotin, -⟩ := List.nodup_cons.mp hnodup
      rw [List.mem_append, not_or] at hnotin
      have hperm := ih hl
      rw [List.flatMap_append, List.flatMap_cons] at hperm ⊢
      rw [hother ks₁ hnotin.1, hother ks₂ hnotin.2, List.filter_cons_of_pos (by simp)]
      exact List.perm_middle.trans (hperm.cons a)

/-- Linearizations of the parts make up one of the whole. -/
theorem hasLinearization_of_parts [LinearOrder τ] {take : σ → α → Option σ} {call ret : α → τ}
    {s : κ → σ} {ops : List α} (hwf : ∀ a ∈ ops, call a ≤ ret a) {parts : κ → List α}
    (hparts : ∀ k, Linearizes take (fun a b => ret a < call b) (s k)
      (ops.filter fun a => key a = k) (parts k)) :
    HasLinearization (keyed key take) (fun a b => ret a < call b) s ops := by
  set le : τ × α → τ × α → Bool := fun x y => decide (x.1 ≤ y.1)
  have htrans : ∀ x y z, le x y = true → le y z = true → le x z = true := by
    simp only [le, decide_eq_true_eq]
    exact fun x y z => le_trans
  have htotal : ∀ x y, (le x y || le y x) = true := by
    simp only [le, Bool.or_eq_true, decide_eq_true_eq]
    exact fun x y => le_total x.1 y.1
  set ks := (ops.map key).dedup
  set all := ks.flatMap fun k => stamp call (parts k)
  set merged := all.mergeSort le
  have hmem : ∀ k, ∀ a ∈ parts k, a ∈ ops ∧ key a = k := by
    intro k a ha
    simpa using (hparts k).perm.mem_iff.mp ha
  -- the operations of the merged list are those of the history
  have hperm : (merged.map Prod.snd).Perm ops := by
    refine ((List.mergeSort_perm all le).map Prod.snd).trans ?_
    rw [List.map_flatMap]
    simp only [stamp_map_snd]
    refine (List.Perm.flatMap_left ks fun k _ => (hparts k).perm).trans ?_
    refine flatMap_filter_perm (List.nodup_dedup _) ops fun a ha => ?_
    exact List.mem_dedup.mpr (List.mem_map_of_mem ha)
  refine ⟨merged.map Prod.snd, hperm, ?_, ?_⟩
  · -- points in time decide the order
    have hpoints : ∀ x ∈ merged, call x.2 ≤ x.1 ∧ x.1 ≤ ret x.2 := by
      intro x hx
      obtain ⟨k, -, hxk⟩ := List.mem_flatMap.mp ((List.mergeSort_perm all le).mem_iff.mp hx)
      exact mem_stamp call ret (fun a ha => hwf a (hmem k a ha).1) (hparts k).order x hxk
    refine List.pairwise_map.mpr ?_
    refine (List.pairwise_mergeSort htrans htotal all).imp_of_mem fun {x y} hx hy hle hbefore => ?_
    have hlt : y.1 < x.1 := calc
      y.1 ≤ ret y.2 := (hpoints y hy).2
      _ < call x.2 := hbefore
      _ ≤ x.1 := (hpoints x hx).1
    exact absurd (of_decide_eq_true hle) (not_le.mpr hlt)
  · -- under each key the order is as it was
    refine (exec_keyed_isSome_iff key take s _).mpr fun k => ?_
    have hpart : (merged.map Prod.snd).filter (fun a => key a = k) = parts k := by
      by_cases hk : k ∈ ks
      · have hsub : (stamp call (parts k)).Sublist merged := by
          refine List.sublist_mergeSort htrans htotal ?_ ?_
          · exact (stamp_sorted call (parts k)).imp decide_eq_true
          · exact List.sublist_flatten_of_mem (List.mem_map_of_mem hk)
        have hsub' := (hsub.map Prod.snd).filter fun a => key a = k
        rw [stamp_map_snd, List.filter_eq_self.mpr (by simpa using fun a ha => (hmem k a ha).2)]
          at hsub'
        refine (hsub'.eq_of_length ?_).symm
        rw [(hperm.filter _).length_eq, (hparts k).perm.length_eq]
      · have hnil : ops.filter (fun a => key a = k) = [] := by
          refine List.filter_eq_nil_iff.mpr fun a ha hkey => hk ?_
          exact List.mem_dedup.mpr (List.mem_map.mpr ⟨a, ha, of_decide_eq_true hkey⟩)
        have hempty := (hparts k).perm
        have hmerged := hperm.filter fun a => key a = k
        rw [hnil] at hempty hmerged
        rw [hempty.eq_nil, hmerged.eq_nil]
    rw [hpart]
    exact (hparts k).legal

/-- A history has a linearization if and only if it has one for each key. -/
theorem hasLinearization_keyed_iff [LinearOrder τ] {take : σ → α → Option σ} {call ret : α → τ}
    {s : κ → σ} {ops : List α} (hwf : ∀ a ∈ ops, call a ≤ ret a) :
    HasLinearization (keyed key take) (fun a b => ret a < call b) s ops ↔
      ∀ k, HasLinearization take (fun a b => ret a < call b) (s k)
        (ops.filter fun a => key a = k) := by
  constructor
  · rintro ⟨l, hl⟩ k
    exact ⟨_, hl.filter key take k⟩
  · intro h
    choose parts hparts using h
    exact hasLinearization_of_parts hwf hparts

end

end DistributedLabs
