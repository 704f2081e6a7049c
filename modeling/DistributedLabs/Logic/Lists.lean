import Mathlib.Data.List.Basic
import Mathlib.Data.List.Induction
import Mathlib.Data.Finset.Card

/-!
# Lists as tables and as logs

A table of records in which one record at a time is replaced is a list with
`List.set`. A property of the records is carried over a replacement by looking
at the old and the new record only. A log grows at its end, and its old entries
keep their places.
-/

namespace DistributedLabs

variable {α β : Type*}

/-- A projection that the new record shares with the old one does not see the
replacement. -/
theorem map_set_of_eq {l : List α} {f : α → β} {k : ℕ} {x y : α} (hk : l[k]? = some x)
    (hf : f y = f x) : (l.set k y).map f = l.map f := by
  apply List.ext_getElem?
  intro j
  rw [List.getElem?_map, List.getElem?_map]
  by_cases hj : k = j
  · subst hj
    obtain ⟨hlt, -⟩ := List.getElem?_eq_some_iff.mp hk
    rw [List.getElem?_set_self hlt, hk, Option.map_some, Option.map_some, hf]
  · rw [List.getElem?_set_ne hj]

/-- A record found in the old table is found in the new one, if the new record
takes the place of the old one. -/
theorem exists_mem_set {l : List α} {k : ℕ} {x y : α} {P : α → Prop} (hk : l[k]? = some x)
    (hP : P x → P y) (h : ∃ r ∈ l, P r) : ∃ r ∈ l.set k y, P r := by
  obtain ⟨r, hr, hPr⟩ := h
  obtain ⟨j, hj⟩ := List.getElem?_of_mem hr
  obtain ⟨hlt, -⟩ := List.getElem?_eq_some_iff.mp hk
  by_cases hjk : k = j
  · subst hjk
    obtain rfl : x = r := Option.some.inj (hk.symm.trans hj)
    exact ⟨y, List.mem_set hlt y, hP hPr⟩
  · refine ⟨r, ?_, hPr⟩
    apply List.mem_of_getElem? (i := j)
    rw [List.getElem?_set_ne hjk, hj]

/-- A record of the new table is an old one, or has what the new record has. -/
theorem mem_or_of_mem_set {l : List α} {k : ℕ} {x y : α} {P : α → Prop}
    (hx : x ∈ l.set k y) (hy : P y) : x ∈ l ∨ P x := by
  rcases List.mem_or_eq_of_mem_set hx with hx | rfl
  · exact Or.inl hx
  · exact Or.inr hy

/-- What all old records and the new record have, all records of the new table have. -/
theorem forall_mem_set {l : List α} {k : ℕ} {y : α} {P : α → Prop} (h : ∀ x ∈ l, P x)
    (hy : P y) : ∀ x ∈ l.set k y, P x :=
  fun x hx => (mem_or_of_mem_set hx hy).elim (h x) id

/-- Every record of the new table continues one of the old table, if the new record
continues the old one. -/
theorem exists_rel_of_mem_set {l : List α} {k : ℕ} {x y z : α} {R : α → α → Prop}
    (hrefl : ∀ r, R r r) (hk : l[k]? = some x) (hxy : R x y) (hz : z ∈ l.set k y) :
    ∃ r ∈ l, R r z :=
  (mem_or_of_mem_set (P := R x) hz hxy).elim (fun hz => ⟨z, hz, hrefl z⟩)
    fun hxz => ⟨x, List.mem_of_getElem? hk, hxz⟩

/-- The records beside the new one are those that are left when the old one is
removed. -/
theorem mem_set_iff_eraseIdx {l : List α} {k : ℕ} {x y : α} (hk : k < l.length) :
    x ∈ l.set k y ↔ x = y ∨ x ∈ l.eraseIdx k := by
  rw [List.set_eq_take_append_cons_drop, if_pos hk, List.eraseIdx_eq_take_drop_succ,
    List.mem_append, List.mem_append, List.mem_cons, or_left_comm]

/-- An element of a list to which one is added is an old one or the new one. -/
theorem getElem?_concat_cases {l : List α} {x y : α} {k : ℕ} (h : (l ++ [x])[k]? = some y) :
    l[k]? = some y ∨ k = l.length ∧ y = x := by
  rcases Nat.lt_or_ge k l.length with hlt | hge
  · rw [List.getElem?_append_left hlt] at h
    exact Or.inl h
  · have hlt := (List.getElem?_eq_some_iff.mp h).1
    rw [List.length_append, List.length_singleton] at hlt
    obtain rfl : k = l.length := by omega
    rw [List.getElem?_concat_length] at h
    exact Or.inr ⟨rfl, (Option.some.inj h).symm⟩

/-- The old elements keep their places when the list grows. -/
theorem getElem?_of_isPrefix {l l' : List α} {k : ℕ} {x : α} (hle : l <+: l')
    (h : l[k]? = some x) : l'[k]? = some x := by
  obtain ⟨m, rfl⟩ := hle
  exact List.getElem?_append_left (List.getElem?_eq_some_iff.mp h).1 ▸ h

/-- Two lists that are related element by element. -/
theorem forall₂_getElem? {R : α → β → Prop} {l : List α} {m : List β} (h : List.Forall₂ R l m)
    {k : ℕ} {x : α} (hx : l[k]? = some x) : ∃ y, m[k]? = some y ∧ R x y := by
  induction h generalizing k with
  | nil => cases hx
  | @cons a b l m hR _ ih =>
      cases k with
      | zero =>
          obtain rfl := Option.some.inj hx
          exact ⟨b, rfl, hR⟩
      | succ k => exact ih hx

theorem take_succ_of_getElem? {l : List α} {i : ℕ} {x : α} (h : l[i]? = some x) :
    l.take (i + 1) = l.take i ++ [x] := by
  rw [List.take_add_one, h, Option.toList_some]

/-- What a log starts with does not change when it grows. -/
theorem take_of_isPrefix {l l' : List α} {k : ℕ} (hle : l <+: l') (hk : k ≤ l.length) :
    l'.take k = l.take k := by
  obtain ⟨m, rfl⟩ := hle
  exact List.take_append_of_le_length hk

/-- Lists with the same first `k` elements both have as many, or are the same. -/
theorem le_or_eq_of_take_eq_take {l l' : List α} {k : ℕ} (h : l.take k = l'.take k) :
    (k ≤ l.length ∧ k ≤ l'.length) ∨ l = l' := by
  have hlen := congrArg List.length h
  rw [List.length_take, List.length_take] at hlen
  rcases Nat.lt_or_ge l.length k with hlt | hle
  · rw [List.take_of_length_le hlt.le, List.take_of_length_le (by omega)] at h
    exact Or.inr h
  · exact Or.inl ⟨hle, by omega⟩

/-- What every round of a loop keeps holds after the loop. -/
theorem foldlM_invariant {f : β → α → Option β} {l : List α} {P : β → Prop}
    (hf : ∀ b a b', a ∈ l → P b → f b a = some b' → P b') {b b' : β} (hb : P b)
    (h : l.foldlM f b = some b') : P b' := by
  induction l generalizing b with
  | nil =>
      rw [List.foldlM_nil] at h
      obtain rfl := Option.some.inj h
      exact hb
  | cons a l ih =>
      rw [List.foldlM_cons] at h
      obtain ⟨b₁, hb₁, h⟩ := Option.bind_eq_some_iff.mp h
      exact ih (fun b a b' ha => hf b a b' (List.mem_cons_of_mem _ ha))
        (hf b a b₁ List.mem_cons_self hb hb₁) h

/-- A loop that remembers the last index with a property finds it, or there is
none. -/
theorem foldl_zipIdx_cases {p : α → Prop} [DecidablePred p] (f : ℕ → β) (l : List α) :
    ((∀ x ∈ l, ¬ p x) ∧
      l.zipIdx.foldl (fun r x => if p x.1 then some (f x.2) else r) none = none) ∨
    ∃ i x, l[i]? = some x ∧ p x ∧ (∀ j y, i < j → l[j]? = some y → ¬ p y) ∧
      l.zipIdx.foldl (fun r x => if p x.1 then some (f x.2) else r) none = some (f i) := by
  induction l using List.reverseRecOn with
  | nil => exact Or.inl ⟨by rintro x (_ | _), rfl⟩
  | append_singleton l x ih =>
      rw [List.zipIdx_append, List.foldl_append, Nat.zero_add]
      by_cases hx : p x
      · refine Or.inr ⟨l.length, x, by simp, hx, ?_, by simp [hx]⟩
        intro j y hj hy
        rw [List.getElem?_eq_none (by simp; omega)] at hy
        cases hy
      · have hlast : ∀ r, ([x].zipIdx l.length).foldl
            (fun r x => if p x.1 then some (f x.2) else r) r = r := by
          intro r
          simp [hx]
        rw [hlast]
        rcases ih with ⟨hnone, he⟩ | ⟨i, y, hy, hpy, hmax, he⟩
        · refine Or.inl ⟨?_, he⟩
          intro z hz
          rcases List.mem_append.mp hz with hz | hz
          · exact hnone z hz
          · rwa [List.mem_singleton.mp hz]
        · refine Or.inr ⟨i, y, ?_, hpy, ?_, he⟩
          · rw [List.getElem?_append_left (List.getElem?_eq_some_iff.mp hy).1]
            exact hy
          · intro j z hj hz
            rcases getElem?_concat_cases hz with hz | ⟨-, rfl⟩
            · exact hmax j z hj hz
            · exact hx

/-- Two loops with the same rounds are the same. -/
theorem foldlM_congr {f g : β → α → Option β} {l : List α}
    (hfg : ∀ b, ∀ a ∈ l, f b a = g b a) (b : β) : l.foldlM f b = l.foldlM g b := by
  induction l generalizing b with
  | nil => rfl
  | cons a l ih =>
      rw [List.foldlM_cons, List.foldlM_cons, hfg b a List.mem_cons_self]
      congr 1
      funext b'
      exact ih (fun b a ha => hfg b a (List.mem_cons_of_mem _ ha)) b'

/-- A loop whose rounds all succeed succeeds. -/
theorem foldlM_isSome {f : β → α → Option β} {l : List α}
    (hf : ∀ b, ∀ a ∈ l, (f b a).isSome) (b : β) : (l.foldlM f b).isSome := by
  induction l generalizing b with
  | nil => rfl
  | cons a l ih =>
      obtain ⟨b', hb'⟩ := Option.isSome_iff_exists.mp (hf b a List.mem_cons_self)
      rw [List.foldlM_cons, hb']
      exact ih (fun b a ha => hf b a (List.mem_cons_of_mem _ ha)) b'

theorem mapM_isSome {f : α → Option β} {l : List α} (hf : ∀ a ∈ l, (f a).isSome) :
    (l.mapM f).isSome := by
  induction l with
  | nil => rfl
  | cons a l ih =>
      obtain ⟨b, hb⟩ := Option.isSome_iff_exists.mp (hf a List.mem_cons_self)
      obtain ⟨bs, hbs⟩ :=
        Option.isSome_iff_exists.mp (ih fun a ha => hf a (List.mem_cons_of_mem _ ha))
      rw [List.mapM_cons, hb, hbs]
      rfl

/-- The results of a `mapM` that succeeds come from the elements of the list. -/
theorem exists_of_mem_mapM {α β : Type*} {f : α → Option β} {l : List α} {r : List β}
    (h : l.mapM f = some r) {b : β} (hb : b ∈ r) : ∃ a ∈ l, f a = some b := by
  induction l generalizing r with
  | nil =>
      rw [List.mapM_nil] at h
      obtain rfl := Option.some.inj h
      cases hb
  | cons a l ih =>
      rw [List.mapM_cons] at h
      obtain ⟨x, hx, h⟩ := Option.bind_eq_some_iff.mp h
      obtain ⟨xs, hxs, h⟩ := Option.bind_eq_some_iff.mp h
      obtain rfl := Option.some.inj h
      rcases List.mem_cons.mp hb with rfl | hb
      · exact ⟨a, List.mem_cons_self, hx⟩
      · obtain ⟨y, hy, hfy⟩ := ih hxs hb
        exact ⟨y, List.mem_cons_of_mem a hy, hfy⟩

/-- Different numbers below `n`, at least `n` of them, are all numbers below `n`. -/
theorem mem_of_nodup_of_length {l : List ℕ} {n : ℕ} (hnodup : l.Nodup) (hlt : ∀ k ∈ l, k < n)
    (hlen : n ≤ l.length) {k : ℕ} (hk : k < n) : k ∈ l := by
  have hsub : l.toFinset ⊆ Finset.range n := fun i hi =>
    Finset.mem_range.mpr (hlt i (List.mem_toFinset.mp hi))
  have hcard : (Finset.range n).card ≤ l.toFinset.card := by
    rwa [List.toFinset_card_of_nodup hnodup, Finset.card_range]
  have hall := Finset.eq_of_subset_of_card_le hsub hcard
  exact List.mem_toFinset.mp (hall ▸ Finset.mem_range.mpr hk)

/-- An element is among the first ones with a property if it has it and all elements before
it have it. -/
theorem mem_takeWhile_iff {p : α → Bool} {l : List α} (hnodup : l.Nodup) {x : α} :
    x ∈ l.takeWhile p ↔ x ∈ l ∧ p x = true ∧ ∀ y, [y, x].Sublist l → p y = true := by
  induction l with
  | nil => simp
  | cons a l ih =>
      obtain ⟨ha, hnodup⟩ := List.nodup_cons.mp hnodup
      by_cases hpa : p a = true
      · rw [List.takeWhile_cons_of_pos hpa, List.mem_cons, ih hnodup]
        constructor
        · rintro (rfl | ⟨hx, hpx, hbefore⟩)
          · refine ⟨List.mem_cons_self, hpa, fun y hy => ?_⟩
            rcases List.sublist_cons_iff.mp hy with hsub | ⟨r, hr, hsub⟩
            · exact absurd (hsub.subset (by simp)) ha
            · obtain ⟨rfl, rfl⟩ := List.cons.inj hr
              exact hpa
          · refine ⟨List.mem_cons_of_mem a hx, hpx, fun y hy => ?_⟩
            rcases List.sublist_cons_iff.mp hy with hsub | ⟨r, hr, -⟩
            · exact hbefore y hsub
            · obtain ⟨rfl, -⟩ := List.cons.inj hr
              exact hpa
        · rintro ⟨hx, hpx, hbefore⟩
          rcases List.mem_cons.mp hx with rfl | hx
          · exact Or.inl rfl
          · exact Or.inr ⟨hx, hpx, fun y hy => hbefore y (hy.cons a)⟩
      · rw [List.takeWhile_cons_of_neg hpa]
        refine iff_of_false List.not_mem_nil ?_
        rintro ⟨hx, hpx, hbefore⟩
        rcases List.mem_cons.mp hx with rfl | hx
        · exact hpa hpx
        · exact hpa (hbefore a ((List.singleton_sublist.mpr hx).cons_cons a))

/-! ## First occurrences -/

section

variable {κ : Type*} [DecidableEq κ] (key : α → κ)

/-- The elements that are the first ones with their key. -/
def firstBy (l : List α) : List α :=
  l.foldl (fun firsts x => if key x ∈ firsts.map key then firsts else firsts ++ [x]) []

theorem firstBy_concat (l : List α) (x : α) :
    firstBy key (l ++ [x]) =
      if key x ∈ (firstBy key l).map key then firstBy key l else firstBy key l ++ [x] := by
  unfold firstBy
  rw [List.foldl_append]
  rfl

/-- Every key has a first occurrence. -/
theorem mem_map_firstBy {l : List α} {k : κ} : k ∈ (firstBy key l).map key ↔ k ∈ l.map key := by
  induction l using List.reverseRecOn generalizing k with
  | nil => rfl
  | append_singleton l x ih =>
      rw [firstBy_concat]
      split
      · rename_i hx
        rw [ih] at hx ⊢
        rw [List.map_append, List.mem_append, List.map_singleton, List.mem_singleton]
        exact ⟨Or.inl, fun h => h.elim id fun hk => hk ▸ hx⟩
      · rw [List.map_append, List.map_append, List.mem_append, List.mem_append, ih]

/-- First occurrences may be picked before or after a translation of the elements. -/
theorem firstBy_map (f : β → α) (l : List β) :
    firstBy key (l.map f) = (firstBy (key ∘ f) l).map f := by
  induction l using List.reverseRecOn with
  | nil => rfl
  | append_singleton l x ih =>
      rw [List.map_append, List.map_singleton, firstBy_concat, firstBy_concat, ih, List.map_map,
        Function.comp_apply]
      by_cases hx : key (f x) ∈ (firstBy (key ∘ f) l).map (key ∘ f)
      · rw [if_pos hx, if_pos hx]
      · rw [if_neg hx, if_neg hx, List.map_append, List.map_singleton]

end

end DistributedLabs
