import DistributedLabs.Logic.Lists
import DistributedLabs.Logic.Quorum
import Mathlib.Data.List.Infix
import Mathlib.Logic.Function.Basic
import Mathlib.Order.Basic

/-!
# A replicated log with elected leaders

Servers of an arbitrary type keep a term and a log of entries that carry a term.
A `Ledger` remembers, besides the terms and the logs, every vote, the log with
which a server stood for election, who led a term, the log of the leader of a
term, and which server has acknowledged how much of that log. The past is never
forgotten, so a ledger only grows; `Step` lists how a server moves it.
-/

namespace DistributedLabs

namespace Consensus

variable {S E : Type*}

/-! ## Logs -/

section

variable (tm : E → ℕ)

/-- The term of the last entry, 0 for the empty log. -/
def tipTerm (l : List E) : ℕ := (l.getLast?.map tm).getD 0

/-- The log `l` is at least as new as `l'`. -/
def UpToDate (l l' : List E) : Prop :=
  tipTerm tm l' < tipTerm tm l ∨ (tipTerm tm l = tipTerm tm l' ∧ l'.length ≤ l.length)

@[simp] theorem tipTerm_nil : tipTerm tm [] = 0 := rfl

@[simp] theorem tipTerm_concat (l : List E) (e : E) : tipTerm tm (l ++ [e]) = tm e := by
  simp [tipTerm]

theorem tipTerm_take_succ {l : List E} {i : ℕ} {e : E} (h : l[i]? = some e) :
    tipTerm tm (l.take (i + 1)) = tm e := by
  rw [take_succ_of_getElem? h, tipTerm_concat]

/-- The term of a nonempty log is the term of one of its entries. -/
theorem exists_mem_tipTerm {l : List E} (h : l ≠ []) : ∃ e ∈ l, tm e = tipTerm tm l := by
  refine ⟨l.getLast h, List.getLast_mem h, ?_⟩
  simp [tipTerm, List.getLast?_eq_some_getLast h]

end

open Classical in
/-- Take over `p`, unless the log already starts with it. -/
noncomputable def adopt (l p : List E) : List E :=
  if p <+: l then l else p

theorem adopt_eq_self {l p : List E} (h : p <+: l) : adopt l p = l := by
  simp [adopt, h]

theorem adopt_eq_of_not {l p : List E} (h : ¬ p <+: l) : adopt l p = p := by
  simp [adopt, h]

theorem adopt_cases (l p : List E) : (p <+: l ∧ adopt l p = l) ∨ (¬ p <+: l ∧ adopt l p = p) := by
  by_cases h : p <+: l
  · exact Or.inl ⟨h, adopt_eq_self h⟩
  · exact Or.inr ⟨h, adopt_eq_of_not h⟩

theorem starts_adopt (l p : List E) : p <+: adopt l p := by
  rcases adopt_cases l p with ⟨h, he⟩ | ⟨-, he⟩
  · rwa [he]
  · rw [he]

/-- Adopting in two stages is adopting the longer list at once. -/
theorem adopt_adopt {l p q : List E} (h : p <+: q) : adopt (adopt l p) q = adopt l q := by
  rcases adopt_cases l p with ⟨-, he⟩ | ⟨hp, he⟩
  · rw [he]
  · have hq : ¬ q <+: l := fun hq => hp (h.trans hq)
    rw [he, adopt_eq_of_not hq]
    rcases adopt_cases p q with ⟨hqp, he'⟩ | ⟨-, he'⟩
    · rw [he']
      exact h.eq_of_length_le hqp.length_le
    · exact he'

/-- What a log shares with a leader is kept when it takes over a part of the log
of the leader. -/
theorem adopt_keeps {l m p : List E} (hl : p <+: l) (hm : p <+: m) (k : ℕ) :
    p <+: adopt l (m.take k) := by
  rcases adopt_cases l (m.take k) with ⟨-, he⟩ | ⟨hnot, he⟩
  · rwa [he]
  · rw [he]
    have htake : m.take k <+: m := List.take_prefix k m
    rcases List.prefix_or_prefix_of_prefix hm htake with h | h
    · exact h
    · exact absurd (h.trans hl) hnot

/-- An entry of an adopted log comes from one of the two logs. -/
theorem mem_adopt {l p : List E} {e : E} (h : e ∈ adopt l p) : e ∈ l ∨ e ∈ p := by
  rcases adopt_cases l p with ⟨-, he⟩ | ⟨-, he⟩
  · exact Or.inl (he ▸ h)
  · exact Or.inr (he ▸ h)

/-! ## Ledgers -/

/-- The terms and logs of the servers, with the history of the elections and of
the acknowledgements. -/
structure Ledger (S E : Type*) where
  term : S → ℕ
  log : S → List E
  /-- `votes v t c`: the server `v` has voted for `c` in the term `t`. -/
  votes : S → ℕ → S → Prop
  /-- `stood c t l`: the server `c` has stood in the term `t` with the log `l`. -/
  stood : S → ℕ → List E → Prop
  leads : S → ℕ → Prop
  /-- The log of the leader of a term, as long as it has grown so far. -/
  lead : ℕ → List E
  /-- `acked v t k`: in the term `t`, `v` has acknowledged the first `k` entries
  of the leader. -/
  acked : S → ℕ → ℕ → Prop

namespace Ledger

/-- Nothing has happened. -/
def init (S E : Type*) : Ledger S E where
  term _ := 0
  log _ := []
  votes _ _ _ := False
  stood _ _ _ := False
  leads _ _ := False
  lead _ := []
  acked _ _ _ := False

/-- `st'` is a later state than `st`. -/
structure Le (st st' : Ledger S E) : Prop where
  term : ∀ s, st.term s ≤ st'.term s
  votes : ∀ {v t c}, st.votes v t c → st'.votes v t c
  stood : ∀ {c t l}, st.stood c t l → st'.stood c t l
  leads : ∀ {c t}, st.leads c t → st'.leads c t
  lead : ∀ {c t}, st.leads c t → st.lead t <+: st'.lead t
  acked : ∀ {v t k}, st.acked v t k → st'.acked v t k

instance : Preorder (Ledger S E) where
  le := Le
  le_refl _ := ⟨fun _ => le_rfl, id, id, id, fun _ => List.prefix_rfl, id⟩
  le_trans _ _ _ h h' :=
    ⟨fun s => (h.term s).trans (h'.term s), fun hv => h'.votes (h.votes hv),
      fun hs => h'.stood (h.stood hs), fun hl => h'.leads (h.leads hl),
      fun hl => (h.lead hl).trans (h'.lead (h.leads hl)), fun ha => h'.acked (h.acked ha)⟩

section

variable [DecidableEq S] (qs : QuorumSystem S) (tm : E → ℕ)

/-- How the server `s` moves a ledger. -/
inductive Step (s : S) (st : Ledger S E) : Ledger S E → Prop where
  /-- Learn of a term. -/
  | bump (t : ℕ) (ht : st.term s ≤ t) :
      Step s st { st with term := Function.update st.term s t }
  /-- Stand in the next term and vote for itself. -/
  | stand :
      Step s st { st with
        term := Function.update st.term s (st.term s + 1)
        votes := fun v t c => st.votes v t c ∨ (v = s ∧ t = st.term s + 1 ∧ c = s)
        stood := fun c t l => st.stood c t l ∨ (c = s ∧ t = st.term s + 1 ∧ l = st.log s) }
  /-- Vote for a candidate whose log is up to date, once per term. -/
  | grant (c : S) (l : List E) (hstood : st.stood c (st.term s) l)
      (hfree : ∀ c', st.votes s (st.term s) c' → c' = c) (hnew : UpToDate tm l (st.log s)) :
      Step s st { st with
        votes := fun v t c' => st.votes v t c' ∨ (v = s ∧ t = st.term s ∧ c' = c) }
  /-- Become the leader with the votes of a quorum. -/
  | win (Q : Finset S) (hQ : qs.IsQuorum Q) (hvotes : ∀ v ∈ Q, st.votes v (st.term s) s)
      (hstood : st.stood s (st.term s) (st.log s)) (hfree : ∀ c, ¬ st.leads c (st.term s)) :
      Step s st { st with
        leads := fun c t => st.leads c t ∨ (c = s ∧ t = st.term s)
        lead := Function.update st.lead (st.term s) (st.log s) }
  /-- Append an entry as the leader. -/
  | append (e : E) (hlead : st.leads s (st.term s)) (he : tm e = st.term s) :
      Step s st { st with
        log := Function.update st.log s (st.log s ++ [e])
        lead := Function.update st.lead (st.term s) (st.lead (st.term s) ++ [e]) }
  /-- Take over the first `k` entries of the leader. -/
  | accept (c : S) (k : ℕ) (hlead : st.leads c (st.term s)) (hne : c ≠ s) :
      Step s st { st with
        log := Function.update st.log s (adopt (st.log s) ((st.lead (st.term s)).take k)) }
  /-- Acknowledge the first `k` entries of the leader. -/
  | ack (c : S) (k : ℕ) (hlead : st.leads c (st.term s)) (hk : k ≤ (st.lead (st.term s)).length)
      (hlog : (st.lead (st.term s)).take k <+: st.log s) :
      Step s st { st with
        acked := fun v t j => st.acked v t j ∨ (v = s ∧ t = st.term s ∧ j ≤ k) }

end

end Ledger

end Consensus

end DistributedLabs
