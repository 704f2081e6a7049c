import Mathlib.Data.List.Basic
import Mathlib.Data.List.Nodup
import Mathlib.Logic.Function.Basic

/-!
# Doubly linked lists

The nodes of a heap have a pointer to the next and one to the previous node. A node that
is taken out of a list keeps its own two pointers, so that it can be put back where it
was, as long as the nodes are put back in the opposite order.
-/

namespace DistributedLabs

/-- The fields `next` and `prev` of the nodes. -/
structure Links (α : Type*) where
  next : α → Option α
  prev : α → Option α

namespace Links

variable {α : Type*}

/-- The nodes `xs` form a list, from the first to the last. -/
def Chain (l : Links α) (xs : List α) : Prop :=
  xs.Nodup ∧ ∀ ys x zs, xs = ys ++ x :: zs → l.prev x = ys.getLast? ∧ l.next x = zs.head?

variable {l : Links α} {x : α} {xs ys zs : List α}

theorem chain_singleton (hnext : l.next x = none) (hprev : l.prev x = none) : l.Chain [x] := by
  refine ⟨List.nodup_singleton x, fun ys y zs h => ?_⟩
  obtain ⟨rfl, rfl, rfl⟩ : ys = [] ∧ y = x ∧ zs = [] := by
    cases ys with
    | nil => simpa using h.symm
    | cons a ys => simp at h
  exact ⟨hprev, hnext⟩

theorem Chain.prev_eq (h : l.Chain (ys ++ x :: zs)) : l.prev x = ys.getLast? :=
  (h.2 ys x zs rfl).1

theorem Chain.next_eq (h : l.Chain (ys ++ x :: zs)) : l.next x = zs.head? :=
  (h.2 ys x zs rfl).2

/-- Only the pointers of the nodes in the list matter. -/
theorem Chain.congr {l' : Links α} (h : l.Chain xs)
    (hsame : ∀ x ∈ xs, l'.prev x = l.prev x ∧ l'.next x = l.next x) : l'.Chain xs := by
  refine ⟨h.1, fun ys x zs hsplit => ?_⟩
  obtain ⟨hprev, hnext⟩ := hsame x (hsplit ▸ List.mem_append_right _ List.mem_cons_self)
  rw [hprev, hnext]
  exact h.2 ys x zs hsplit

variable [DecidableEq α]

def setNext (l : Links α) (x : α) (y : Option α) : Links α :=
  { l with next := Function.update l.next x y }

def setPrev (l : Links α) (x : α) (y : Option α) : Links α :=
  { l with prev := Function.update l.prev x y }

/-- Take a node out of its list; `none` if it is the first one. -/
def unlink (l : Links α) (x : α) : Option (Links α) := do
  let prev ← l.prev x
  let l := l.setNext prev (l.next x)
  match l.next x with
  | none => some l
  | some next => some (l.setPrev next (l.prev x))

/-- Put a node back between the nodes that it points to. -/
def relink (l : Links α) (x : α) : Option (Links α) := do
  let prev ← l.prev x
  let l := l.setNext prev (some x)
  match l.next x with
  | none => some l
  | some next => some (l.setPrev next (some x))

namespace Chain

/-- A node is put in front of the first one. -/
theorem cons {y : α} (h : l.Chain (y :: ys)) (hx : x ∉ y :: ys) (hprev : l.prev x = none) :
    ((l.setPrev y (some x)).setNext x (some y)).Chain (x :: y :: ys) := by
  have hxy : x ≠ y := fun heq => hx (heq ▸ List.mem_cons_self)
  refine ⟨List.nodup_cons.mpr ⟨hx, h.1⟩, fun us u vs hsplit => ?_⟩
  simp only [setNext, setPrev]
  cases us with
  | nil =>
      obtain ⟨rfl, rfl⟩ := List.cons.inj hsplit
      exact ⟨by rw [Function.update_of_ne hxy, hprev]; rfl, Function.update_self _ _ _⟩
  | cons a us =>
      obtain ⟨rfl, htail⟩ := List.cons.inj hsplit
      change y :: ys = us ++ u :: vs at htail
      obtain ⟨hprevu, hnextu⟩ := h.2 us u vs htail
      have hmem : u ∈ y :: ys := htail ▸ List.mem_append_right _ List.mem_cons_self
      rw [Function.update_of_ne (fun heq : u = x => hx (heq ▸ hmem)), hnextu]
      refine ⟨?_, rfl⟩
      cases us with
      | nil =>
          obtain ⟨rfl, -⟩ := List.cons.inj htail
          rw [Function.update_self]
          rfl
      | cons b us =>
          obtain ⟨rfl, htail'⟩ := List.cons.inj htail
          change ys = us ++ u :: vs at htail'
          have hmem' : u ∈ ys := htail' ▸ List.mem_append_right _ List.mem_cons_self
          have hne : u ≠ y := fun heq => (List.nodup_cons.mp h.1).1 (heq ▸ hmem')
          rw [Function.update_of_ne hne, hprevu, List.getLast?_cons_cons]

/-- What is left when the links around a node are closed. -/
theorem close {p : α} (h : l.Chain (ys ++ p :: x :: zs)) {l' : Links α}
    (hnext : ∀ u, l'.next u = if u = p then zs.head? else l.next u)
    (hprev : ∀ u, l'.prev u = if some u = zs.head? then some p else l.prev u) :
    l'.Chain (ys ++ p :: zs) := by
  have hnodup : (ys ++ p :: x :: zs).Nodup := h.1
  refine ⟨hnodup.sublist ((List.sublist_cons_self x zs).cons_cons p |>.append_left ys), ?_⟩
  intro us u vs hsplit
  rcases List.append_eq_append_iff.mp hsplit with ⟨as, rfl, has⟩ | ⟨bs, rfl, hbs⟩
  · cases as with
    | nil =>
        -- the node before the gap
        obtain ⟨rfl, rfl⟩ := List.cons.inj has
        rw [hnext, if_pos rfl, hprev, if_neg, List.append_nil]
        · exact ⟨h.prev_eq, rfl⟩
        · intro hhead
          have hmem : p ∈ zs := List.mem_of_mem_head? hhead.symm
          simp [List.nodup_append, hmem] at hnodup
    | cons a as =>
        -- a node behind the gap
        obtain ⟨rfl, htail⟩ := List.cons.inj has
        change zs = as ++ u :: vs at htail
        subst htail
        have hold := h.2 (ys ++ p :: x :: as) u vs (by simp)
        have hne : u ≠ p := by
          rintro rfl
          simp [List.nodup_append] at hnodup
        rw [hnext, if_neg hne, hprev]
        refine ⟨?_, hold.2⟩
        cases as with
        | nil =>
            rw [List.nil_append, List.head?_cons, if_pos rfl]
            simp
        | cons b as =>
            have hne' : u ≠ b := by
              rintro rfl
              simp [List.nodup_append] at hnodup
            rw [if_neg (by simpa using hne'), hold.1]
            simp [List.getLast?_cons]
  · cases bs with
    | nil =>
        obtain ⟨rfl, rfl⟩ := List.cons.inj hbs
        rw [hnext, if_pos rfl, hprev, if_neg]
        · rw [List.append_nil] at h
          exact ⟨h.prev_eq, rfl⟩
        · intro hhead
          have hmem : u ∈ vs := List.mem_of_mem_head? hhead.symm
          simp [List.nodup_append, hmem] at hnodup
    | cons b bs =>
        -- a node before the gap, with another one in between
        obtain ⟨rfl, rfl⟩ := List.cons.inj hbs
        have hold := h.2 us u (bs ++ p :: x :: zs) (by simp)
        have hne : u ≠ p := by
          rintro rfl
          simp [List.nodup_append] at hnodup
        have hne' : some u ≠ zs.head? := by
          intro hhead
          have hmem : u ∈ zs := List.mem_of_mem_head? hhead.symm
          simp [List.nodup_append, hmem] at hnodup
        rw [hnext, if_neg hne, hprev, if_neg hne', hold.1, hold.2]
        refine ⟨rfl, ?_⟩
        cases bs with
        | nil => rfl
        | cons c bs => rfl

/-- A node that is taken out leaves a list, and can be put back. -/
theorem unlink (h : l.Chain (ys ++ x :: zs)) (hys : ys ≠ []) :
    ∃ l', l.unlink x = some l' ∧ l'.Chain (ys ++ zs) ∧ l'.relink x = some l ∧
      l'.prev x = l.prev x ∧ l'.next x = l.next x := by
  obtain ⟨ys, p, rfl⟩ := (List.eq_nil_or_concat' ys).resolve_left hys
  have hprev : l.prev x = some p := by
    rw [h.prev_eq, List.getLast?_concat]
  have hnext : l.next x = zs.head? := h.next_eq
  rw [List.append_assoc] at h ⊢
  have hback : Function.update l.next p (some x) = l.next := by
    rw [Function.update_eq_self_iff, (h.2 ys p (x :: zs) rfl).2]
    rfl
  have hnodup := h.1
  have hne : x ≠ p := by
    rintro rfl
    simp [List.nodup_append] at hnodup
  cases zs with
  | nil =>
      refine ⟨l.setNext p none, ?_, h.close (fun u => ?_) (fun u => ?_), ?_, rfl, ?_⟩
      · simp [Links.unlink, hprev, hnext, setNext, Function.update_of_ne hne]
      · simp [setNext, Function.update_apply]
      · simp [setNext]
      · simp [Links.relink, hprev, hnext, setNext, Function.update_of_ne hne, hback]
      · simp [setNext, Function.update_of_ne hne]
  | cons z zs =>
      have hforth : Function.update l.prev z (some x) = l.prev := by
        rw [Function.update_eq_self_iff, (h.2 (ys ++ [p, x]) z zs (by simp)).1]
        simp
      have hne' : x ≠ z := by
        rintro rfl
        simp [List.nodup_append] at hnodup
      refine ⟨(l.setNext p (some z)).setPrev z (some p), ?_, h.close (fun u => ?_) (fun u => ?_),
        ?_, ?_, ?_⟩
      · simp [Links.unlink, hprev, hnext, setNext, setPrev, Function.update_of_ne hne]
      · simp [setNext, setPrev, Function.update_apply]
      · simp [setNext, setPrev, Function.update_apply]
      · simp [Links.relink, hprev, hnext, setNext, setPrev, Function.update_of_ne hne,
          Function.update_of_ne hne', hback, hforth]
      · simp [setNext, setPrev, Function.update_of_ne hne']
      · simp [setNext, setPrev, Function.update_of_ne hne]

end Chain

end Links

end DistributedLabs
