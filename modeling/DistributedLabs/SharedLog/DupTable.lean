import Mathlib.Order.Bounds.Basic
import DistributedLabs.SharedLog.History

/-!
# A log applied with a table of sequence numbers

Each client numbers its operations. A replica applies the entries of a log one by
one and records for each client the number of the last entry it applied; an entry
whose number is not above the recorded one is skipped. Of the copies of an
operation that a log may hold, at most one is therefore effective.
-/

namespace DistributedLabs

namespace SharedLog

variable {σ Client Input Ret : Type*} [DecidableEq Client]

/-- An operation in the log. -/
structure Entry (Client Input : Type*) where
  client : Client
  seq : ℕ
  input : Input

/-- The call that an entry belongs to. -/
def Entry.id (e : Entry Client Input) : Client × ℕ := (e.client, e.seq)

/-- The object together with the table. -/
structure Replica (σ Client : Type*) where
  state : σ
  seen : Client → Option ℕ

/-- The table lets the entry through. -/
def Replica.Fresh (r : Replica σ Client) (e : Entry Client Input) : Prop :=
  ∀ s ∈ r.seen e.client, s < e.seq

instance (r : Replica σ Client) (e : Entry Client Input) : Decidable (r.Fresh e) :=
  inferInstanceAs (Decidable (∀ s ∈ r.seen e.client, s < e.seq))

/-- Apply an entry, unless the table stops it. -/
def Replica.apply (spec : SeqSpec σ Input Ret) (r : Replica σ Client)
    (e : Entry Client Input) : Replica σ Client :=
  if r.Fresh e then
    { state := (spec.step r.state e.input).1
      seen := Function.update r.seen e.client (some e.seq) }
  else r

/-- The replica that has applied a log. -/
def replay (spec : SeqSpec σ Input Ret) (log : List (Entry Client Input)) : Replica σ Client :=
  log.foldl (Replica.apply spec) { state := spec.init, seen := fun _ => none }

/-- The entry at place `q` of the log is applied. -/
def Effective (spec : SeqSpec σ Input Ret) (log : List (Entry Client Input)) (q : ℕ)
    (e : Entry Client Input) : Prop :=
  log[q]? = some e ∧ (replay spec (log.take q)).Fresh e

variable {spec : SeqSpec σ Input Ret}

theorem replay_concat (log : List (Entry Client Input)) (e : Entry Client Input) :
    replay spec (log ++ [e]) = (replay spec log).apply spec e := by
  rw [replay, List.foldl_append]
  rfl

theorem Replica.apply_of_fresh {r : Replica σ Client} {e : Entry Client Input} (h : r.Fresh e) :
    r.apply spec e =
      { state := (spec.step r.state e.input).1
        seen := Function.update r.seen e.client (some e.seq) } :=
  if_pos h

theorem Replica.apply_of_not_fresh {r : Replica σ Client} {e : Entry Client Input}
    (h : ¬ r.Fresh e) : r.apply spec e = r :=
  if_neg h

/-! ## The table -/

theorem Replica.seen_apply_self (r : Replica σ Client) (e : Entry Client Input) :
    ∃ s, e.seq ≤ s ∧ (r.apply spec e).seen e.client = some s := by
  by_cases h : r.Fresh e
  · refine ⟨e.seq, le_rfl, ?_⟩
    rw [Replica.apply_of_fresh h]
    exact Function.update_self _ _ _
  · rw [Replica.apply_of_not_fresh h]
    simp only [Replica.Fresh, not_forall] at h
    obtain ⟨s, hs, hle⟩ := h
    exact ⟨s, Nat.not_lt.mp hle, hs⟩

theorem Replica.seen_apply_mono {r : Replica σ Client} (e : Entry Client Input) {c : Client}
    {s : ℕ} (h : r.seen c = some s) : ∃ s', s ≤ s' ∧ (r.apply spec e).seen c = some s' := by
  by_cases hfresh : r.Fresh e
  · rw [Replica.apply_of_fresh hfresh]
    by_cases hc : c = e.client
    · subst hc
      exact ⟨e.seq, (hfresh s h).le, Function.update_self _ _ _⟩
    · exact ⟨s, le_rfl, (Function.update_of_ne hc _ _).trans h⟩
  · rw [Replica.apply_of_not_fresh hfresh]
    exact ⟨s, le_rfl, h⟩

/-- The recorded numbers only grow with the log. -/
theorem replay_seen_mono {log log' : List (Entry Client Input)} (hle : log <+: log') {c : Client}
    {s : ℕ} (h : (replay spec log).seen c = some s) :
    ∃ s', s ≤ s' ∧ (replay spec log').seen c = some s' := by
  obtain ⟨m, rfl⟩ := hle
  induction m using List.reverseRecOn with
  | nil =>
      rw [List.append_nil]
      exact ⟨s, le_rfl, h⟩
  | append_singleton m e ih =>
      obtain ⟨s₁, hle₁, h₁⟩ := ih
      rw [← List.append_assoc, replay_concat]
      obtain ⟨s₂, hle₂, h₂⟩ := Replica.seen_apply_mono e h₁
      exact ⟨s₂, hle₁.trans hle₂, h₂⟩

/-! ## Effective entries -/

theorem Effective.mono {log log' : List (Entry Client Input)} {q : ℕ} {e : Entry Client Input}
    (h : Effective spec log q e) (hle : log <+: log') : Effective spec log' q e := by
  have hq := (List.getElem?_eq_some_iff.mp h.1).1
  refine ⟨getElem?_of_isPrefix hle h.1, ?_⟩
  rw [take_of_isPrefix hle hq.le]
  exact h.2

/-- A call has at most one effective entry. -/
theorem Effective.unique {log : List (Entry Client Input)} {q q' : ℕ}
    {e e' : Entry Client Input} (h : Effective spec log q e) (h' : Effective spec log q' e')
    (hid : e.id = e'.id) : q = q' := by
  -- an effective entry leaves its number in the table, which stops later copies
  have hno : ∀ {q q' : ℕ} {e e' : Entry Client Input}, Effective spec log q e →
      Effective spec log q' e' → e.id = e'.id → ¬ q < q' := by
    intro q q' e e' h h' hid hlt
    obtain ⟨hclient, hseq⟩ := Prod.mk.inj hid
    obtain ⟨s, hs, hseen⟩ := Replica.seen_apply_self (replay spec (log.take q)) e
    rw [← replay_concat, ← take_succ_of_getElem? h.1, hclient] at hseen
    have hle : log.take (q + 1) <+: log.take q' := List.take_prefix_take_left hlt
    obtain ⟨s', hs', hseen'⟩ := replay_seen_mono hle hseen
    have := h'.2 s' hseen'
    omega
  exact Nat.le_antisymm (Nat.not_lt.mp (hno h' h hid.symm)) (Nat.not_lt.mp (hno h h' hid))

/-- A recorded number comes from an effective entry. -/
theorem exists_effective_of_seen {log : List (Entry Client Input)} {c : Client} {s : ℕ}
    (h : (replay spec log).seen c = some s) :
    ∃ q e, Effective spec log q e ∧ e.id = (c, s) := by
  induction log using List.reverseRecOn with
  | nil => cases h
  | append_singleton log e ih =>
      have hold : (replay spec log).seen c = some s →
          ∃ q e', Effective spec (log ++ [e]) q e' ∧ e'.id = (c, s) := by
        intro hseen
        obtain ⟨q, e', heff, hid⟩ := ih hseen
        exact ⟨q, e', heff.mono (List.prefix_append _ _), hid⟩
      rw [replay_concat] at h
      by_cases hfresh : (replay spec log).Fresh e
      · rw [Replica.apply_of_fresh hfresh] at h
        change Function.update (replay spec log).seen e.client (some e.seq) c = some s at h
        by_cases hc : c = e.client
        · subst hc
          rw [Function.update_self] at h
          obtain rfl : e.seq = s := Option.some.inj h
          refine ⟨log.length, e, ⟨List.getElem?_concat_length, ?_⟩, rfl⟩
          rw [List.take_left']
          · exact hfresh
          · rfl
        · rw [Function.update_of_ne hc] at h
          exact hold h
      · rw [Replica.apply_of_not_fresh hfresh] at h
        exact hold h

/-! ## Logs in which each client's calls begin in order -/

theorem exists_seen_of_mem {log : List (Entry Client Input)} {e : Entry Client Input}
    (he : e ∈ log) : ∃ t, e.seq ≤ t ∧ (replay spec log).seen e.client = some t := by
  obtain ⟨q, hq⟩ := List.getElem?_of_mem he
  obtain ⟨t, ht, hseen⟩ := Replica.seen_apply_self (replay spec (log.take q)) e
  rw [← replay_concat, ← take_succ_of_getElem? hq] at hseen
  have htake := List.take_prefix (q + 1) log
  obtain ⟨t', ht', hseen'⟩ := replay_seen_mono htake hseen
  exact ⟨t', ht.trans ht', hseen'⟩

/-- The table holds the largest number of each client in the log. -/
theorem seen_eq_some_iff {log : List (Entry Client Input)} {c : Client} {s : ℕ} :
    (replay spec log).seen c = some s ↔
      IsGreatest {t | ∃ e ∈ log, e.client = c ∧ e.seq = t} s := by
  have hgreatest : ∀ s, (replay spec log).seen c = some s →
      IsGreatest {t | ∃ e ∈ log, e.client = c ∧ e.seq = t} s := by
    intro s hs
    constructor
    · obtain ⟨q, e, heff, hid⟩ := exists_effective_of_seen hs
      obtain ⟨hclient, hseq⟩ := Prod.mk.inj hid
      exact ⟨e, List.mem_of_getElem? heff.1, hclient, hseq⟩
    · rintro _ ⟨e, he, rfl, rfl⟩
      obtain ⟨t, ht, hseen⟩ := exists_seen_of_mem he
      obtain rfl := Option.some.inj (hseen.symm.trans hs)
      exact ht
  refine ⟨hgreatest s, fun h => ?_⟩
  obtain ⟨e, he, rfl, rfl⟩ := h.1
  obtain ⟨t, -, hseen⟩ := exists_seen_of_mem he
  rw [hseen, (hgreatest t hseen).unique h]

/-- The first copies of the calls of each client stand in the order of their
numbers. -/
def FirstsInOrder (log : List (Entry Client Input)) : Prop :=
  (firstBy Entry.id log).Pairwise fun e e' => e.client = e'.client → e.seq < e'.seq

theorem FirstsInOrder.of_concat {log : List (Entry Client Input)} {e : Entry Client Input}
    (h : FirstsInOrder (log ++ [e])) : FirstsInOrder log := by
  unfold FirstsInOrder at h
  rw [firstBy_concat] at h
  split at h
  · exact h
  · exact (List.pairwise_append.mp h).1

theorem FirstsInOrder.of_append {log log' : List (Entry Client Input)}
    (h : FirstsInOrder (log ++ log')) : FirstsInOrder log := by
  induction log' using List.reverseRecOn with
  | nil => rwa [List.append_nil] at h
  | append_singleton log' e ih =>
      rw [← List.append_assoc] at h
      exact ih h.of_concat

/-- The table lets exactly the first copies through. -/
theorem FirstsInOrder.fresh_iff {log : List (Entry Client Input)} {e : Entry Client Input}
    (h : FirstsInOrder (log ++ [e])) : (replay spec log).Fresh e ↔ e.id ∉ log.map Entry.id := by
  constructor
  · intro hfresh hmem
    obtain ⟨e', he', hid⟩ := List.mem_map.mp hmem
    obtain ⟨hclient, hseq⟩ := Prod.mk.inj hid
    obtain ⟨t, ht, hseen⟩ := exists_seen_of_mem he'
    have := hfresh t (hclient ▸ hseen)
    omega
  · intro hnew s hs
    -- the number in the table belongs to a call whose first copy stands before `e`
    obtain ⟨e', he', hclient, rfl⟩ := (seen_eq_some_iff.mp hs).1
    obtain ⟨e₀, he₀, hid⟩ := List.mem_map.mp
      ((mem_map_firstBy Entry.id).mpr (List.mem_map_of_mem he'))
    obtain ⟨hclient₀, hseq₀⟩ := Prod.mk.inj hid
    unfold FirstsInOrder at h
    rw [firstBy_concat, if_neg (by rwa [mem_map_firstBy])] at h
    have hlt := (List.pairwise_append.mp h).2.2 e₀ he₀ e (List.mem_singleton_self e)
      (hclient₀.trans hclient)
    exact hseq₀ ▸ hlt

/-- The object goes through the first copies only. -/
theorem FirstsInOrder.replay_state {log : List (Entry Client Input)} (h : FirstsInOrder log) :
    (replay spec log).state =
      (firstBy Entry.id log).foldl (fun x e => (spec.step x e.input).1) spec.init := by
  induction log using List.reverseRecOn with
  | nil => rfl
  | append_singleton log e ih =>
      rw [replay_concat, firstBy_concat]
      by_cases hmem : e.id ∈ (firstBy Entry.id log).map Entry.id
      · have hold : ¬ (replay spec log).Fresh e := fun hfresh =>
          h.fresh_iff.mp hfresh ((mem_map_firstBy Entry.id).mp hmem)
        rw [Replica.apply_of_not_fresh hold, if_pos hmem, ih h.of_concat]
      · have hfresh : (replay spec log).Fresh e :=
          h.fresh_iff.mpr fun hlog => hmem ((mem_map_firstBy Entry.id).mpr hlog)
        rw [Replica.apply_of_fresh hfresh, if_neg hmem, List.foldl_append, ← ih h.of_concat]
        rfl

end SharedLog

end DistributedLabs
