import DistributedLabs.KvRaft.Recovery
import DistributedLabs.KvRaft.Refinement

/-!
# A committed log is applied exactly once

Retries may put a request into the log several times, and a copy may come after
later requests of the same client. The table of `apply` holds one number for each
client. If each client's requests enter the log for the first time in the order of
their numbers, the table stops exactly the copies: the data are those of the first
requests, one after the other, as on a plain map.
-/

namespace DistributedLabs

namespace KvRaft

open SharedLog

/-- What identifies a request. -/
def Op.id (op : Op) : ℕ × ℕ := (op.clientId, op.sequenceId)

/-- A plain map executes a request. -/
def Op.execute (data : String → Option String) (op : Op) : String → Option String :=
  (kvSpec.step data op.input).1

/-- `apply` lets the request through to the data. -/
def SnapshotStatus.Admits (st : SnapshotStatus) (op : Op) : Prop :=
  ∀ pre ∈ st.duptable op.clientId, pre < op.sequenceId

instance (st : SnapshotStatus) (op : Op) : Decidable (st.Admits op) :=
  inferInstanceAs (Decidable (∀ pre ∈ st.duptable op.clientId, pre < op.sequenceId))

/-- A request that is let through is executed and recorded, and any other one changes
nothing. -/
theorem SnapshotStatus.applyOp_eq (st : SnapshotStatus) (op : Op) :
    st.applyOp op =
      if st.Admits op then
        { data := op.execute st.data
          duptable := Function.update st.duptable op.clientId (some op.sequenceId) }
      else st := by
  have hreplica := st.replica_applyOp op
  unfold Replica.apply at hreplica
  by_cases h : st.Admits op
  · rw [if_pos h]
    have hfresh : st.replica.Fresh op.entry := h
    rw [if_pos hfresh] at hreplica
    obtain ⟨hdata, htable⟩ := Replica.mk.inj hreplica
    exact congrArg₂ SnapshotStatus.mk hdata htable
  · rw [if_neg h]
    exact if_neg h

/-- The requests of each client come to the log for the first time in the order of
their numbers. -/
def FirstRequestsInOrder (ops : List Op) : Prop :=
  (firstBy Op.id ops).Pairwise fun op op' =>
    op.clientId = op'.clientId → op.sequenceId < op'.sequenceId

instance (ops : List Op) : Decidable (FirstRequestsInOrder ops) :=
  inferInstanceAs (Decidable (List.Pairwise _ _))

/-- The tables after a log are those of a replica that replays it. -/
theorem SnapshotStatus.replica_applyOps (ops : List Op) :
    (applyOps ops).replica = replay kvSpec (ops.map Op.entry) := by
  induction ops using List.reverseRecOn with
  | nil => rfl
  | append_singleton ops op ih =>
      have hlast : applyOps (ops ++ [op]) = (applyOps ops).applyOp op := by
        unfold applyOps
        rw [List.foldl_append]
        rfl
      rw [hlast, replica_applyOp, ih, List.map_append, List.map_singleton, replay_concat]

theorem firstBy_entry (ops : List Op) :
    firstBy Entry.id (ops.map Op.entry) = (firstBy Op.id ops).map Op.entry :=
  firstBy_map Entry.id Op.entry ops

theorem FirstRequestsInOrder.entries {ops : List Op} (h : FirstRequestsInOrder ops) :
    FirstsInOrder (ops.map Op.entry) := by
  unfold FirstsInOrder
  rw [firstBy_entry, List.pairwise_map]
  exact h

theorem applyOps_data {ops : List Op} (h : FirstRequestsInOrder ops) :
    (SnapshotStatus.applyOps ops).data = (firstBy Op.id ops).foldl Op.execute fun _ => none := by
  have hstate : (replay kvSpec (ops.map Op.entry)).state = _ := h.entries.replay_state
  rw [← SnapshotStatus.replica_applyOps, firstBy_entry, List.foldl_map] at hstate
  exact hstate

/-- The table stops exactly the requests that were in the log before. -/
theorem admits_iff {ops before after : List Op} {op : Op} (h : FirstRequestsInOrder ops)
    (hops : ops = before ++ op :: after) :
    (SnapshotStatus.applyOps before).Admits op ↔ op.id ∉ before.map Op.id := by
  have hentries := h.entries
  rw [hops, List.append_cons, List.map_append] at hentries
  have hbefore := hentries.of_append
  rw [List.map_append, List.map_singleton] at hbefore
  have hfresh : (replay kvSpec (before.map Op.entry)).Fresh op.entry ↔ _ := hbefore.fresh_iff
  rw [← SnapshotStatus.replica_applyOps, List.map_map] at hfresh
  exact hfresh

theorem duptable_eq_some_iff (ops : List Op) (client seq : ℕ) :
    (SnapshotStatus.applyOps ops).duptable client = some seq ↔
      IsGreatest {n | ∃ op ∈ ops, op.clientId = client ∧ op.sequenceId = n} seq := by
  have hseen : (replay kvSpec (ops.map Op.entry)).seen client = some seq ↔ _ := seen_eq_some_iff
  rw [← SnapshotStatus.replica_applyOps] at hseen
  have hset : {n | ∃ e ∈ ops.map Op.entry, e.client = client ∧ e.seq = n} =
      {n | ∃ op ∈ ops, op.clientId = client ∧ op.sequenceId = n} := by
    ext n
    simp [Op.entry]
  rw [hset] at hseen
  exact hseen

/-- A log in which each client's requests begin in order leaves the data of its first
requests on a plain map; each request is applied exactly where it stands for the
first time, and the table holds the largest number of each client. -/
theorem applyOps_exactlyOnce {ops : List Op} (h : FirstRequestsInOrder ops) :
    (SnapshotStatus.applyOps ops).data = (firstBy Op.id ops).foldl Op.execute (fun _ => none) ∧
      (∀ before op after, ops = before ++ op :: after →
        ((SnapshotStatus.applyOps before).Admits op ↔ op.id ∉ before.map Op.id)) ∧
      ∀ client seq, (SnapshotStatus.applyOps ops).duptable client = some seq ↔
        IsGreatest {n | ∃ op ∈ ops, op.clientId = client ∧ op.sequenceId = n} seq :=
  ⟨applyOps_data h, fun _ _ _ hops => admits_iff h hops, duptable_eq_some_iff ops⟩

/-- Two clients, with copies that come late. -/
def retried : List Op :=
  [{ type := .put, key := "k", value := "a", clientId := 1, sequenceId := 0 },
    { type := .append, key := "k", value := "b", clientId := 2, sequenceId := 0 },
    { type := .get, key := "k", value := "", clientId := 1, sequenceId := 1 },
    { type := .append, key := "k", value := "c", clientId := 1, sequenceId := 2 },
    { type := .append, key := "k", value := "b", clientId := 2, sequenceId := 0 },
    { type := .put, key := "k", value := "a", clientId := 1, sequenceId := 0 }]

theorem applyOps_exactlyOnce_retried :
    FirstRequestsInOrder retried ∧
      (SnapshotStatus.applyOps retried).data =
        (firstBy Op.id retried).foldl Op.execute (fun _ => none) ∧
      (SnapshotStatus.applyOps retried).data "k" = some "abc" :=
  ⟨by decide, (applyOps_exactlyOnce (by decide)).1, by decide⟩

end KvRaft

end DistributedLabs
