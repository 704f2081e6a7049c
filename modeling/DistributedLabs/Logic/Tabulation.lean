import Mathlib.Data.List.Perm.Basic
import Mathlib.Data.List.Nodup
import Mathlib.Data.List.TakeWhile
import Mathlib.Order.Basic

/-!
# Tables with one record for each key

A list of records tabulates a function on a list of keys if it has exactly one
record for each of the keys, with the value of the function. Which order the
records stand in is left open, so that a table is determined up to permutation,
and tables of the parts of a partition make up a table of the whole.

A list in which the keys are in order is grouped by key: what comes first under
its least key is all there is under that key.
-/

namespace DistributedLabs

variable {κ ρ : Type*}

/-- `records` has one record for each key in `keys`, with the value of `f`. -/
structure Tabulates (f : κ → ρ) (keys : List κ) (records : List (κ × ρ)) : Prop where
  nodup : (records.map Prod.fst).Nodup
  mem_iff : ∀ record, record ∈ records ↔ record.1 ∈ keys ∧ record.2 = f record.1

namespace Tabulates

variable {f g : κ → ρ} {keys keys' : List κ} {records records' : List (κ × ρ)}

theorem nil (f : κ → ρ) : Tabulates f [] [] := by
  constructor
  · simp
  · simp

theorem mem_keys_iff (h : Tabulates f keys records) (key : κ) :
    key ∈ records.map Prod.fst ↔ key ∈ keys := by
  rw [List.mem_map]
  constructor
  · rintro ⟨record, hrecord, rfl⟩
    exact ((h.mem_iff record).mp hrecord).1
  · intro hkey
    exact ⟨(key, f key), (h.mem_iff _).mpr ⟨hkey, rfl⟩, rfl⟩

/-- Only the set of keys matters, and the values at these keys. -/
theorem congr (h : Tabulates f keys records) (hkeys : ∀ key, key ∈ keys' ↔ key ∈ keys)
    (hfg : ∀ key ∈ keys, g key = f key) : Tabulates g keys' records := by
  refine ⟨h.nodup, fun record => ?_⟩
  rw [h.mem_iff, hkeys]
  constructor
  · rintro ⟨hkey, hvalue⟩
    exact ⟨hkey, by rw [hvalue, hfg _ hkey]⟩
  · rintro ⟨hkey, hvalue⟩
    exact ⟨hkey, by rw [hvalue, hfg _ hkey]⟩

/-- One more key in front of a table. -/
theorem cons (h : Tabulates f keys records) {key : κ} (hkey : key ∉ keys) :
    Tabulates f (key :: keys) ((key, f key) :: records) := by
  constructor
  · rw [List.map_cons, List.nodup_cons, h.mem_keys_iff]
    exact ⟨hkey, h.nodup⟩
  · intro record
    rw [List.mem_cons, List.mem_cons, h.mem_iff]
    constructor
    · rintro (rfl | ⟨hmem, hvalue⟩)
      · exact ⟨Or.inl rfl, rfl⟩
      · exact ⟨Or.inr hmem, hvalue⟩
    · rintro ⟨hmem | hmem, hvalue⟩
      · exact Or.inl (Prod.ext hmem (by rw [hvalue, hmem]))
      · exact Or.inr ⟨hmem, hvalue⟩

/-- Two tables of one function on the same keys are the same up to order. -/
theorem perm (h : Tabulates f keys records) (h' : Tabulates f keys records') :
    records.Perm records' :=
  (List.perm_ext_iff_of_nodup (.of_map _ h.nodup) (.of_map _ h'.nodup)).mpr fun record => by
    rw [h.mem_iff, h'.mem_iff]

/-- Tables of the parts of a partition make up a table. -/
theorem flatMap {part : κ → ℕ} {n : ℕ} (hpart : ∀ key ∈ keys, part key < n)
    {tables : ℕ → List (κ × ρ)}
    (h : ∀ r < n, Tabulates f (keys.filter fun key => part key = r) (tables r)) :
    Tabulates f keys ((List.range n).flatMap tables) := by
  constructor
  · rw [List.map_flatMap, List.nodup_flatMap]
    refine ⟨fun r hr => (h r (List.mem_range.mp hr)).nodup, ?_⟩
    refine List.nodup_range.pairwise_of_forall_ne fun r hr s hs hrs key hkr hks => ?_
    rw [(h r (List.mem_range.mp hr)).mem_keys_iff] at hkr
    rw [(h s (List.mem_range.mp hs)).mem_keys_iff] at hks
    simp only [List.mem_filter, decide_eq_true_eq] at hkr hks
    exact hrs (hkr.2.symm.trans hks.2)
  · intro record
    rw [List.mem_flatMap]
    constructor
    · rintro ⟨r, hr, hrecord⟩
      obtain ⟨hkey, hvalue⟩ := ((h r (List.mem_range.mp hr)).mem_iff record).mp hrecord
      exact ⟨List.mem_of_mem_filter hkey, hvalue⟩
    · rintro ⟨hkey, hvalue⟩
      refine ⟨part record.1, List.mem_range.mpr (hpart _ hkey), ?_⟩
      refine ((h _ (hpart _ hkey)).mem_iff record).mpr ⟨?_, hvalue⟩
      exact List.mem_filter.mpr ⟨hkey, decide_eq_true rfl⟩

end Tabulates

/-! ## Lists in the order of their keys -/

variable {α : Type*}

theorem take_length_takeWhile (p : α → Bool) (l : List α) :
    l.take (l.takeWhile p).length = l.takeWhile p :=
  Eq.symm <| List.prefix_iff_eq_take.mp <| List.takeWhile_prefix p

theorem drop_length_takeWhile (p : α → Bool) (l : List α) :
    l.drop (l.takeWhile p).length = l.dropWhile p :=
  calc l.drop (l.takeWhile p).length
    _ = (l.takeWhile p ++ l.dropWhile p).drop (l.takeWhile p).length := by
        rw [List.takeWhile_append_dropWhile]
    _ = l.dropWhile p := List.drop_left

/-- What comes before the first other key does not matter to the other keys. -/
theorem filter_dropWhile_of_ne [DecidableEq κ] {key : α → κ} {k k' : κ} (hne : k ≠ k')
    (l : List α) :
    (l.dropWhile fun a => key a = k).filter (fun a => key a = k') =
      l.filter fun a => key a = k' := by
  induction l with
  | nil => rfl
  | cons a l ih =>
      by_cases ha : key a = k
      · rw [List.dropWhile_cons_of_pos (by simpa using ha), ih,
          List.filter_cons_of_neg (by simpa [ha] using hne)]
      · rw [List.dropWhile_cons_of_neg (by simpa using ha)]

section

variable [PartialOrder κ] [DecidableEq κ] {key : α → κ} {k : κ} {l : List α}

theorem key_ne_of_mem_dropWhile (hl : l.Pairwise fun a b => key a ≤ key b)
    (hk : ∀ a ∈ l, k ≤ key a) {a : α} (ha : a ∈ l.dropWhile fun a => key a = k) :
    key a ≠ k := by
  induction l with
  | nil => cases ha
  | cons b l ih =>
      rw [List.pairwise_cons] at hl
      by_cases hb : key b = k
      · rw [List.dropWhile_cons_of_pos (by simpa using hb)] at ha
        exact ih hl.2 (fun a ha => hk a (List.mem_cons_of_mem b ha)) ha
      · rw [List.dropWhile_cons_of_neg (by simpa using hb)] at ha
        have hlt : k < key b := lt_of_le_of_ne (hk b List.mem_cons_self) (Ne.symm hb)
        rcases List.mem_cons.mp ha with rfl | ha
        · exact hb
        · exact (hlt.trans_le (hl.1 a ha)).ne'

/-- All that stands under the least key comes first. -/
theorem filter_eq_takeWhile (hl : l.Pairwise fun a b => key a ≤ key b)
    (hk : ∀ a ∈ l, k ≤ key a) :
    l.filter (fun a => key a = k) = l.takeWhile fun a => key a = k := by
  have hlater : (l.dropWhile fun a => key a = k).filter (fun a => key a = k) = [] := by
    rw [List.filter_eq_nil_iff]
    intro a ha
    simpa using key_ne_of_mem_dropWhile hl hk ha
  have hfirst : (l.takeWhile fun a => key a = k).filter (fun a => key a = k) =
      l.takeWhile fun a => key a = k :=
    List.filter_eq_self.mpr fun a ha => (List.mem_takeWhile_imp ha :)
  calc l.filter (fun a => key a = k)
    _ = (l.takeWhile (fun a => key a = k) ++ l.dropWhile fun a => key a = k).filter
          fun a => key a = k := by rw [List.takeWhile_append_dropWhile]
    _ = l.takeWhile fun a => key a = k := by
        rw [List.filter_append, hfirst, hlater, List.append_nil]

end

end DistributedLabs
