import DistributedLabs.Raft.Spec
import DistributedLabs.Raft.Peer
import DistributedLabs.Logic.Run
import DistributedLabs.Logic.Lists

/-!
# The indices of one peer

Every access to `rf.logs` goes through an offset from `lastIncludedIndex`, and
the handlers move that offset while `applierEvent` is between two of its steps.
This file bounds the four indices of one peer against an environment that is
left open but for two things: a request of the current term or a later one agrees
with the committed part of the log it is sent to, and the service compacts only
up to a command that it has been given. The accesses are then within bounds.
-/

namespace DistributedLabs

namespace Raft

variable {n : ℕ} {Cmd : Type*}

/-! ## Accesses within bounds -/

theorem entryAt?_isSome (rf : Raft n Cmd) {i : ℕ} (hinc : rf.lastIncludedIndex ≤ i)
    (hlast : i ≤ rf.lastLogIndex) : (rf.entryAt? i).isSome := by
  rw [lastLogIndex_eq] at hlast
  rw [entryAt?_of_le rf hinc, Logs.get?, isSome_getElem?, Logs.slots, List.length_cons]
  omega

/-- The search for a conflict stays above `commitIndex`, and so within the log. -/
theorem conflictSearch_isSome {rf : Raft n Cmd} (hinc : rf.lastIncludedIndex ≤ rf.commitIndex)
    (conflictTerm : ℕ) {i : ℕ} (hi : i ≤ rf.lastLogIndex) (conflictIndex : ℤ) :
    (rf.conflictSearch conflictTerm i conflictIndex).isSome := by
  induction i generalizing conflictIndex with
  | zero => rfl
  | succ i ih =>
      rw [conflictSearch]
      split
      · rename_i hcommit
        obtain ⟨entry, hentry⟩ := Option.isSome_iff_exists.mp
          (rf.entryAt?_isSome (hinc.trans hcommit.le) hi)
        rw [hentry, Option.bind_some]
        split
        · rfl
        · exact ih (Nat.le_of_succ_le hi) _
      · rfl

theorem replicate_isSome {rf : Raft n Cmd} (hinc : rf.lastIncludedIndex ≤ rf.commitIndex)
    (args : AppendEntriesArgs n Cmd) : (rf.replicate args).isSome := by
  unfold replicate
  split
  · rfl
  split
  · rfl
  rename_i hsnap hlen
  obtain ⟨old, hold⟩ := Option.isSome_iff_exists.mp
    (rf.entryAt?_isSome (Nat.not_lt.mp hsnap) (Nat.not_lt.mp hlen))
  rw [hold, Option.bind_some]
  split
  · rw [Option.isSome_map]
    exact conflictSearch_isSome hinc _ (Nat.not_lt.mp hlen) _
  · rfl

theorem appendEntries_isSome {rf : Raft n Cmd} (hinc : rf.lastIncludedIndex ≤ rf.commitIndex)
    (args : AppendEntriesArgs n Cmd) : (rf.appendEntries args).isSome := by
  unfold appendEntries
  split
  · rfl
  · rw [Option.isSome_map]
    refine replicate_isSome ?_ args
    rw [adoptTerm_lastIncludedIndex, adoptTerm_commitIndex]
    exact hinc

theorem snapshotUpTo_isSome {rf : Raft n Cmd} (hlast : rf.commitIndex ≤ rf.lastLogIndex)
    (index : ℕ) (data : Bytes) : (rf.snapshotUpTo index data).isSome := by
  unfold snapshotUpTo
  split
  · rfl
  · rename_i hguard
    rw [not_or, Nat.not_lt, Nat.not_le] at hguard
    have hentry := rf.entryAt?_isSome hguard.2.le (hguard.1.trans hlast)
    rw [entryAt?_of_le rf hguard.2.le] at hentry
    rw [Option.isSome_map]
    exact hentry

theorem succeedNum_isSome {rf : Raft n Cmd} {N : ℕ} (hN : (rf.entryAt? N).isSome) :
    (rf.succeedNum N).isSome := by
  apply foldlM_isSome
  intro k p _
  split
  · rwa [Option.isSome_map]
  · rfl

theorem checkAndCommitLogs_isSome {rf : Raft n Cmd}
    (hinc : rf.lastIncludedIndex ≤ rf.commitIndex) : rf.checkAndCommitLogs.isSome := by
  unfold checkAndCommitLogs
  rw [Option.isSome_map]
  apply foldlM_isSome
  intro N i hi
  rw [List.mem_range'_1, realLogLen_eq] at hi
  rw [Option.isSome_map]
  exact succeedNum_isSome (rf.entryAt?_isSome (by omega) (by omega))

theorem handleSendAppendEntries_isSome {rf : Raft n Cmd}
    (hinc : rf.lastIncludedIndex ≤ rf.commitIndex) (peer : Fin n)
    (args : AppendEntriesArgs n Cmd) (reply : AppendEntriesReply) :
    (rf.handleSendAppendEntries peer args reply).isSome := by
  unfold handleSendAppendEntries
  split
  · rfl
  split
  · rfl
  split
  · exact checkAndCommitLogs_isSome hinc
  · rfl

theorem Peer.batch_isSome {rf : Raft n Cmd} (hinc : rf.lastIncludedIndex ≤ rf.lastApplied)
    (hlast : rf.commitIndex ≤ rf.lastLogIndex) : (batch rf).isSome := by
  apply mapM_isSome
  intro i hi
  rw [List.mem_range'_1] at hi
  rw [Option.isSome_map]
  exact rf.entryAt?_isSome (by omega) (by omega)

theorem keptSlot?_lt {rf : Raft n Cmd} {args : InstallSnapshotArgs n} {i : ℕ}
    (h : rf.keptSlot? args = some i) : i < rf.logs.length := by
  have hmem := List.mem_of_find?_eq_some h
  rw [List.mem_range'_1, Logs.length_eq] at hmem
  rw [Logs.length_eq]
  omega

/-! ## The committed part of the log -/

/-- The term that a request gives for an index it covers. -/
def AppendEntriesArgs.termAt? (args : AppendEntriesArgs n Cmd) (i : ℕ) : Option ℕ :=
  if i = args.prevLogIndex then some args.prevLogTerm
  else if args.prevLogIndex < i then
    (args.entries[i - (args.prevLogIndex + 1)]?).map LogEntry.term
  else none

/-- The request agrees in term with the log at every index it covers that lies
between the snapshot point and `commitIndex`. -/
def AgreesWith (rf : Raft n Cmd) (args : AppendEntriesArgs n Cmd) : Prop :=
  ∀ i ≤ rf.commitIndex, rf.lastIncludedIndex ≤ i →
    ∀ entry ∈ rf.entryAt? i, ∀ term ∈ args.termAt? i, entry.term = term

/-- A round of the copy loop keeps the slots below `c`, if it finds the same term
there. -/
theorem copyEntry_below {logs : Logs Cmd} {index c : ℕ} {entry : LogEntry Cmd}
    (hc : c ≤ logs.length)
    (hsame : index < c → ∀ old, logs.get? index = some old → old.term = entry.term) :
    c ≤ (copyEntry logs index entry).length ∧
      ∀ j < c, (copyEntry logs index entry).get? j = logs.get? j := by
  unfold copyEntry
  cases hold : logs.get? index with
  | some old =>
      dsimp only
      by_cases hterm : old.term = entry.term
      · rw [if_neg (not_not.mpr hterm)]
        exact ⟨hc, fun _ _ => rfl⟩
      · have hle : c ≤ index := Nat.not_lt.mp fun hlt => hterm (hsame hlt old hold)
        have hlt : index < logs.rest.length + 1 := by
          have := (List.getElem?_eq_some_iff.mp hold).1
          rwa [Logs.slots, List.length_cons] at this
        rw [if_pos hterm]
        cases index with
        | zero => exact ⟨by omega, fun j hj => by omega⟩
        | succ i =>
            have hlen : (logs.rest.take i).length = i := List.length_take_of_le (by omega)
            refine ⟨?_, ?_⟩
            · rw [Logs.length_eq, Logs.cutPush, List.length_append, hlen, List.length_singleton]
              omega
            · intro j hj
              cases j with
              | zero => rfl
              | succ j =>
                  rw [Logs.get?_succ, Logs.get?_succ, Logs.cutPush,
                    List.getElem?_append_left (by omega), List.getElem?_take_of_lt (by omega)]
  | none =>
      dsimp only
      split
      · rw [Logs.length_eq] at hc
        refine ⟨?_, ?_⟩
        · rw [Logs.length_eq, Logs.push, List.length_append]
          omega
        · intro j hj
          cases j with
          | zero => rfl
          | succ j =>
              rw [Logs.get?_succ, Logs.get?_succ, Logs.push,
                List.getElem?_append_left (by omega)]
      · exact ⟨hc, fun _ _ => rfl⟩

/-- The copy loop keeps the slots below `c`, if every round finds the same term
there. -/
theorem copyEntries_below {logs : Logs Cmd} {index c : ℕ} {entries : List (LogEntry Cmd)}
    (hc : c ≤ logs.length)
    (hsame : ∀ k entry, entries[k]? = some entry → index + k < c →
      ∀ old, logs.get? (index + k) = some old → old.term = entry.term) :
    c ≤ (copyEntries logs index entries).length := by
  induction entries generalizing logs index with
  | nil => exact hc
  | cons entry entries ih =>
      have hfirst := copyEntry_below hc (hsame 0 entry rfl)
      rw [Nat.add_zero] at hfirst
      obtain ⟨hlen, hget⟩ := hfirst
      refine ih hlen ?_
      intro k e hk hlt old hold
      rw [Nat.add_right_comm] at hlt hold
      rw [hget _ hlt] at hold
      exact hsame (k + 1) e hk hlt old hold

/-- `AppendEntries` keeps the committed part of the log and never lowers
`commitIndex`, once the term has been adopted. -/
theorem replicate_indices {rf rf' : Raft n Cmd} {args : AppendEntriesArgs n Cmd}
    {reply : AppendEntriesReply} (hinc : rf.lastIncludedIndex ≤ rf.commitIndex)
    (hlast : rf.commitIndex ≤ rf.lastLogIndex) (hagree : rf.AgreesWith args)
    (h : rf.replicate args = some (rf', reply)) :
    rf.commitIndex ≤ rf'.commitIndex ∧ rf'.commitIndex ≤ rf'.lastLogIndex := by
  rcases replicate_cases h with ⟨rfl, -, -⟩ | ⟨old, hprev, -, -, -, rfl, -⟩
  · exact ⟨le_rfl, hlast⟩
  set rf₁ : Raft n Cmd := { rf with
    logs := copyEntries rf.logs (rf.logIndex (args.prevLogIndex + 1)) args.entries } with hrf₁
  have hlast₁ : rf.commitIndex ≤ rf₁.lastLogIndex := by
    have hlen : rf.commitIndex - rf.lastIncludedIndex + 1 ≤ rf₁.logs.length := by
      refine copyEntries_below ?_ ?_
      · rw [lastLogIndex_eq] at hlast
        rw [Logs.length_eq]
        omega
      · intro k entry hk hlt old hold
        rw [logIndex] at hlt hold
        refine hagree (args.prevLogIndex + 1 + k) (by omega) (by omega) old ?_ entry.term ?_
        · rw [entryAt?_of_le rf (by omega)]
          rw [← Nat.sub_add_comm (by omega)] at hold
          exact hold
        · rw [AppendEntriesArgs.termAt?, if_neg (by omega), if_pos (by omega),
            Nat.add_sub_cancel_left, hk]
          rfl
    have hinc₁ : rf₁.lastIncludedIndex = rf.lastIncludedIndex := rfl
    rw [lastLogIndex_eq, hinc₁]
    rw [Logs.length_eq] at hlen
    omega
  rcases followCommit_cases rf₁ args.leaderCommit with ⟨-, he⟩ | ⟨hlt, he⟩
  · rw [he]
    exact ⟨le_rfl, hlast₁⟩
  · rw [he]
    exact ⟨le_min hlt.le hlast₁, min_le_right _ _⟩

theorem appendEntries_indices {rf rf' : Raft n Cmd} {args : AppendEntriesArgs n Cmd}
    {reply : AppendEntriesReply} (hinc : rf.lastIncludedIndex ≤ rf.commitIndex)
    (hlast : rf.commitIndex ≤ rf.lastLogIndex)
    (hagree : rf.currentTerm ≤ args.term → rf.AgreesWith args)
    (h : rf.appendEntries args = some (rf', reply)) :
    rf.commitIndex ≤ rf'.commitIndex ∧ rf'.commitIndex ≤ rf'.lastLogIndex := by
  rcases appendEntries_cases h with ⟨-, rfl, -⟩ | ⟨hterm, rf₁, hrep, rfl⟩
  · exact ⟨le_rfl, hlast⟩
  · have hagree := hagree hterm
    obtain ⟨_, _, he⟩ := adoptTerm_frame rf.toFollower args.term
    rw [he] at hrep
    have h₁ := replicate_indices (by exact hinc) (by exact hlast) (by exact hagree) hrep
    exact h₁

/-! ## The indices between two steps -/

/-- The index up to which `applierEvent` has delivered. `lastApplied` is behind it
from the moment a command is sent until `lastApplied` is updated. -/
def Applier.reached (applied : ℕ) : Applier Cmd → ℕ
  | .sent msg _ | .cleared msg _ => max msg.index applied
  | .waiting | .looping _ | .flagged _ _ => applied

theorem Applier.le_reached (applied : ℕ) (applier : Applier Cmd) :
    applied ≤ applier.reached applied := by
  cases applier with
  | waiting => exact le_rfl
  | looping msgs => exact le_rfl
  | flagged msg msgs => exact le_rfl
  | sent msg msgs => exact le_max_right _ _
  | cleared msg msgs => exact le_max_right _ _

theorem Applier.reached_mono {applied applied' : ℕ} (h : applied ≤ applied')
    (applier : Applier Cmd) : applier.reached applied ≤ applier.reached applied' := by
  cases applier with
  | waiting => exact h
  | looping msgs => exact h
  | flagged msg msgs => exact h
  | sent msg msgs => exact max_le_max le_rfl h
  | cleared msg msgs => exact max_le_max le_rfl h

namespace Peer

/-- The invariant of the four indices. A peer can have compacted up to the command
that `applierEvent` has just sent, and not beyond it. -/
structure IndexInv (p : Peer n Cmd) : Prop where
  included_le_commit : p.rf.lastIncludedIndex ≤ p.rf.commitIndex
  commit_le_last : p.rf.commitIndex ≤ p.rf.lastLogIndex
  applied_le_commit : p.rf.lastApplied ≤ p.rf.commitIndex
  batch_le_commit : ∀ msg ∈ p.applier.msgs, msg.index ≤ p.rf.commitIndex
  senders_le_applied : ∀ s ∈ p.senders, s.msg.index ≤ p.rf.lastApplied
  included_le_reached : p.rf.lastIncludedIndex ≤ p.applier.reached p.rf.lastApplied
  delivered_le_reached : ∀ msg ∈ p.delivered, msg.index ≤ p.applier.reached p.rf.lastApplied

theorem indexInv_make (me : Fin n) (persister : Persister Cmd) : IndexInv (make me persister) := by
  have h : (make me persister).rf.lastApplied = (make me persister).rf.lastIncludedIndex ∧
      (make me persister).rf.commitIndex = (make me persister).rf.lastIncludedIndex := by
    cases hps : persister.raftstate with
    | none => simp [make, Raft.make, readPersist, hps]
    | some status => simp [make, Raft.make, readPersist, hps]
  obtain ⟨happlied, hcommit⟩ := h
  exact
    { included_le_commit := hcommit.ge
      commit_le_last := by
        rw [hcommit, lastLogIndex_eq]
        exact Nat.le_add_right _ _
      applied_le_commit := by rw [happlied, hcommit]
      batch_le_commit := by rintro msg (_ | _)
      senders_le_applied := by rintro s (_ | _)
      included_le_reached := happlied.ge
      delivered_le_reached := by rintro msg (_ | _) }

/-- A step under the lock that leaves `lastApplied` alone. -/
theorem IndexInv.setRf {p : Peer n Cmd} (h : IndexInv p) {rf : Raft n Cmd}
    (happlied : rf.lastApplied = p.rf.lastApplied) (hcommit : p.rf.commitIndex ≤ rf.commitIndex)
    (hinc : rf.lastIncludedIndex ≤ rf.commitIndex) (hlast : rf.commitIndex ≤ rf.lastLogIndex)
    (hreached : rf.lastIncludedIndex ≤ p.applier.reached p.rf.lastApplied) :
    IndexInv (p.setRf rf) :=
  { included_le_commit := hinc
    commit_le_last := hlast
    applied_le_commit := happlied.trans_le (h.applied_le_commit.trans hcommit)
    batch_le_commit := fun msg hmsg => (h.batch_le_commit msg hmsg).trans hcommit
    senders_le_applied := fun s hs => (h.senders_le_applied s hs).trans_eq happlied.symm
    included_le_reached := by
      change rf.lastIncludedIndex ≤ p.applier.reached rf.lastApplied
      rwa [happlied]
    delivered_le_reached := by
      change ∀ msg ∈ p.delivered, msg.index ≤ p.applier.reached rf.lastApplied
      rw [happlied]
      exact h.delivered_le_reached }

/-- A step under the lock that touches neither the indices nor the log. -/
theorem IndexInv.setRf_same {p : Peer n Cmd} (h : IndexInv p) {rf : Raft n Cmd}
    (happlied : rf.lastApplied = p.rf.lastApplied) (hcommit : rf.commitIndex = p.rf.commitIndex)
    (hinc : rf.lastIncludedIndex = p.rf.lastIncludedIndex) (hlogs : rf.logs = p.rf.logs) :
    IndexInv (p.setRf rf) := by
  refine h.setRf happlied hcommit.ge ?_ ?_ ?_
  · rw [hinc, hcommit]
    exact h.included_le_commit
  · have hlast := h.commit_le_last
    rw [lastLogIndex_eq] at hlast ⊢
    rwa [hcommit, hinc, hlogs]
  · rw [hinc]
    exact h.included_le_reached

/-- An accepted snapshot raises all four indices, above every message that
`applierEvent` holds. -/
theorem IndexInv.installSnapshot {p : Peer n Cmd} (h : IndexInv p) (args : InstallSnapshotArgs n) :
    IndexInv (p.installSnapshot args).1 ∧
      p.rf.commitIndex ≤ (p.installSnapshot args).1.rf.commitIndex ∧
      p.rf.lastIncludedIndex ≤ (p.installSnapshot args).1.rf.lastIncludedIndex := by
  rcases Peer.installSnapshot_outcome p args with hp | hp | ⟨hinc, hcommit, hp⟩
  · rw [hp]
    exact ⟨h.setRf_same rfl rfl rfl rfl, le_rfl, le_rfl⟩
  · rw [hp]
    obtain ⟨_, _, he⟩ := adoptTerm_frame p.rf args.term
    rw [he]
    exact ⟨h.setRf_same rfl rfl rfl rfl, le_rfl, le_rfl⟩
  · have happlied : p.rf.lastApplied ≤ args.lastIncludedIndex :=
      h.applied_le_commit.trans hcommit.le
    rw [hp]
    refine ⟨?_, hcommit.le, hinc.le⟩
    exact
      { included_le_commit := le_rfl
        commit_le_last := by
          rw [lastLogIndex_eq]
          exact Nat.le_add_right _ _
        applied_le_commit := le_rfl
        batch_le_commit := fun msg hmsg => (h.batch_le_commit msg hmsg).trans hcommit.le
        senders_le_applied := by
          intro s hs
          rcases List.mem_append.mp hs with hs | hs
          · exact (h.senders_le_applied s hs).trans happlied
          · rw [List.mem_singleton.mp hs]
            exact le_rfl
        included_le_reached := p.applier.le_reached args.lastIncludedIndex
        delivered_le_reached := fun msg hmsg =>
          (h.delivered_le_reached msg hmsg).trans (p.applier.reached_mono happlied) }

/-- A step of `applierEvent` moves neither `commitIndex` nor the snapshot point. -/
theorem IndexInv.applier {p p' : Peer n Cmd} (h : IndexInv p) (hs : p.applierStep = some p') :
    IndexInv p' ∧ p'.rf.commitIndex = p.rf.commitIndex ∧
      p'.rf.lastIncludedIndex = p.rf.lastIncludedIndex := by
  have hbatch := h.batch_le_commit
  have hinc := h.included_le_reached
  have hdelivered := h.delivered_le_reached
  cases applierStep_applies hs with
  | collect msgs happ _ hmsgs =>
      rw [happ] at hinc hdelivered
      refine ⟨{ h with batch_le_commit := ?_, included_le_reached := hinc,
                       delivered_le_reached := hdelivered }, rfl, rfl⟩
      intro msg hmsg
      obtain ⟨i, hi, hentry⟩ := exists_of_mem_mapM hmsgs hmsg
      obtain ⟨entry, -, rfl⟩ := Option.map_eq_some_iff.mp hentry
      rw [List.mem_range'_1] at hi
      change i ≤ p.rf.commitIndex
      omega
  | wait happ =>
      rw [happ] at hinc hdelivered
      exact ⟨{ h with batch_le_commit := by rintro msg (_ | _)
                      included_le_reached := hinc
                      delivered_le_reached := hdelivered }, rfl, rfl⟩
  | skip msg msgs happ _ =>
      rw [happ] at hbatch hinc hdelivered
      exact ⟨{ h with batch_le_commit := fun m hm => hbatch m (List.mem_cons_of_mem _ hm)
                      included_le_reached := hinc
                      delivered_le_reached := hdelivered }, rfl, rfl⟩
  | flag msg msgs happ _ =>
      rw [happ] at hbatch hinc hdelivered
      exact ⟨{ h with batch_le_commit := hbatch
                      included_le_reached := hinc
                      delivered_le_reached := hdelivered }, rfl, rfl⟩
  | send msg msgs happ =>
      rw [happ] at hbatch hinc hdelivered
      refine ⟨{ h with batch_le_commit := hbatch
                       included_le_reached := hinc.trans (le_max_right _ _)
                       delivered_le_reached := ?_ }, rfl, rfl⟩
      intro m hm
      rcases List.mem_append.mp hm with hm | hm
      · exact (hdelivered m hm).trans (le_max_right _ _)
      · rw [List.mem_singleton.mp hm]
        exact le_max_left _ _
  | clear msg msgs happ =>
      rw [happ] at hbatch hinc hdelivered
      exact ⟨{ h with batch_le_commit := hbatch
                      included_le_reached := hinc
                      delivered_le_reached := hdelivered }, rfl, rfl⟩
  | advance msg msgs happ =>
      rw [happ] at hbatch hinc hdelivered
      exact ⟨{ h with
        applied_le_commit := max_le (hbatch msg List.mem_cons_self) h.applied_le_commit
        batch_le_commit := fun m hm => hbatch m (List.mem_cons_of_mem _ hm)
        senders_le_applied := fun s hs => (h.senders_le_applied s hs).trans (le_max_right _ _)
        included_le_reached := hinc
        delivered_le_reached := hdelivered }, rfl, rfl⟩

/-! ## The steps of a peer and its restarts -/

/-- What happens to a peer: a step, or a crash followed by a restart. -/
inductive Life (n : ℕ) (Cmd : Type*) where
  | act (a : Act n Cmd)
  | restart

/-- One event in the life of a peer. -/
def live (p : Peer n Cmd) : Life n Cmd → Option (Peer n Cmd)
  | .act a => p.step a
  | .restart => some p.restart

end Peer

/-- The message is the command of index `i`. -/
def ApplyMsg.IsCommandAt (i : ℕ) : ApplyMsg Cmd → Prop
  | .command _ commandIndex => commandIndex = i
  | .snapshot _ _ _ => False

namespace Peer

/-- What the environment of a peer keeps to: a request that is not stale agrees
with the committed part of the log, and the service compacts up to a command that
it has been given since the last restart. -/
def expected (p : Peer n Cmd) : Life n Cmd → Prop
  | .act (.appendEntries args) => p.rf.currentTerm ≤ args.term → p.rf.AgreesWith args
  | .act (.snapshot index _) => ∃ msg ∈ p.delivered, msg.IsCommandAt index
  | _ => True

instance (i : ℕ) (msg : ApplyMsg Cmd) : Decidable (msg.IsCommandAt i) :=
  match msg with
  | .command _ commandIndex => inferInstanceAs (Decidable (commandIndex = i))
  | .snapshot _ _ _ => .isFalse not_false

instance (rf : Raft n Cmd) (args : AppendEntriesArgs n Cmd) : Decidable (rf.AgreesWith args) :=
  inferInstanceAs (Decidable (∀ i ≤ rf.commitIndex, rf.lastIncludedIndex ≤ i →
    ∀ entry ∈ rf.entryAt? i, ∀ term ∈ args.termAt? i, entry.term = term))

instance (p : Peer n Cmd) (e : Life n Cmd) : Decidable (expected p e) :=
  match e with
  | .act (.appendEntries args) =>
    inferInstanceAs (Decidable (p.rf.currentTerm ≤ args.term → p.rf.AgreesWith args))
  | .act (.snapshot index _) =>
    inferInstanceAs (Decidable (∃ msg ∈ p.delivered, msg.IsCommandAt index))
  | .act .ticker | .act .heartbeat | .act (.start _) | .act (.requestVote _)
  | .act (.installSnapshot _) | .act (.voteReply _ _) | .act (.appendReply _ _ _)
  | .act (.snapshotReply _ _ _) | .act .applier | .act (.poll _) | .act (.send _)
  | .restart => .isTrue trivial

theorem IndexInv.snapshot {p : Peer n Cmd} (h : IndexInv p) {index : ℕ} {data : Bytes}
    (hok : expected p (.act (.snapshot index data))) {rf : Raft n Cmd}
    (hs : p.rf.snapshotUpTo index data = some rf) :
    IndexInv (p.setRf rf) ∧ p.rf.commitIndex ≤ rf.commitIndex ∧
      p.rf.lastIncludedIndex ≤ rf.lastIncludedIndex := by
  rcases snapshotUpTo_cases hs with rfl | ⟨hcommit, hinc, entry, hentry, rfl⟩
  · exact ⟨h, le_rfl, le_rfl⟩
  · obtain ⟨msg, hmsg, hindex⟩ := hok
    have hreached : index ≤ p.applier.reached p.rf.lastApplied := by
      have hle := h.delivered_le_reached msg hmsg
      cases msg with
      | command command commandIndex =>
          obtain rfl : commandIndex = index := hindex
          exact hle
      | snapshot data term snapshotIndex => exact absurd hindex not_false
    refine ⟨h.setRf rfl le_rfl hcommit ?_ hreached, le_rfl, hinc.le⟩
    have hlast := h.commit_le_last
    rw [lastLogIndex_eq] at hlast ⊢
    simp only [persist, Logs.slots, List.drop_succ_cons, List.length_drop, logIndex]
    omega

/-- A step keeps the invariant and lowers neither `commitIndex` nor the snapshot
point. -/
theorem IndexInv.step {p p' : Peer n Cmd} {a : Act n Cmd} (h : IndexInv p)
    (hok : expected p (.act a)) (hs : p.step a = some p') :
    IndexInv p' ∧ p.rf.commitIndex ≤ p'.rf.commitIndex ∧
      p.rf.lastIncludedIndex ≤ p'.rf.lastIncludedIndex := by
  cases a with
  | ticker =>
      obtain rfl := Option.some.inj hs
      exact ⟨h.setRf_same rfl rfl rfl rfl, le_rfl, le_rfl⟩
  | heartbeat =>
      obtain ⟨out, -, rfl⟩ := Option.map_eq_some_iff.mp hs
      exact ⟨h, le_rfl, le_rfl⟩
  | start command =>
      obtain rfl := Option.some.inj hs
      rcases start_cases p.rf command with ⟨-, he⟩ | ⟨-, rf₁, rfl, he⟩
      · rw [he]
        exact ⟨h, le_rfl, le_rfl⟩
      · rw [he]
        refine ⟨h.setRf rfl le_rfl h.included_le_commit ?_ h.included_le_reached, le_rfl, le_rfl⟩
        have hlast := h.commit_le_last
        rw [lastLogIndex_eq] at hlast
        change p.rf.commitIndex ≤ p.rf.lastIncludedIndex +
          (p.rf.logs.push { term := p.rf.currentTerm, cmd := command }).length - 1
        rw [Logs.length_eq, Logs.push, List.length_append]
        omega
  | snapshot index data =>
      obtain ⟨rf, hrf, rfl⟩ := Option.map_eq_some_iff.mp hs
      exact h.snapshot hok hrf
  | requestVote args =>
      obtain rfl := Option.some.inj hs
      obtain ⟨_, _, _, _, he⟩ := requestVote_frame p.rf args
      rw [he]
      exact ⟨h.setRf_same rfl rfl rfl rfl, le_rfl, le_rfl⟩
  | appendEntries args =>
      obtain ⟨⟨rf, reply⟩, hr, rfl⟩ := Option.map_eq_some_iff.mp hs
      obtain ⟨hcommit, hlast⟩ :=
        appendEntries_indices h.included_le_commit h.commit_le_last hok hr
      obtain ⟨_, _, _, _, _, _, rfl⟩ := appendEntries_frame hr
      exact ⟨h.setRf rfl hcommit (h.included_le_commit.trans hcommit) hlast
        h.included_le_reached, hcommit, le_rfl⟩
  | installSnapshot args =>
      obtain rfl := Option.some.inj hs
      exact h.installSnapshot args
  | voteReply args reply =>
      obtain ⟨⟨rf, out⟩, hr, rfl⟩ := Option.map_eq_some_iff.mp hs
      obtain ⟨_, _, _, _, _, _, _, rfl⟩ := handleVoteReply_frame hr
      exact ⟨h.setRf_same rfl rfl rfl rfl, le_rfl, le_rfl⟩
  | appendReply peer args reply =>
      obtain ⟨rf, hrf, rfl⟩ := Option.map_eq_some_iff.mp hs
      rcases handleSendAppendEntries_cases hrf with
        rfl | ⟨-, -, -, rfl⟩ | ⟨-, -, -, hcommit⟩ | ⟨-, -, -, rfl⟩
      · exact ⟨h, le_rfl, le_rfl⟩
      · exact ⟨h.setRf_same rfl rfl rfl rfl, le_rfl, le_rfl⟩
      · rcases checkAndCommitLogs_cases hcommit with rfl | ⟨N, hN, hlast, -, -, rfl⟩
        · exact ⟨h.setRf_same rfl rfl rfl rfl, le_rfl, le_rfl⟩
        · exact ⟨h.setRf rfl hN.le (h.included_le_commit.trans hN.le) hlast
            h.included_le_reached, hN.le, le_rfl⟩
      · exact ⟨h.setRf_same rfl rfl rfl rfl, le_rfl, le_rfl⟩
  | snapshotReply peer args reply =>
      obtain rfl := Option.some.inj hs
      obtain ⟨_, _, _, _, _, he⟩ := handleSendInstallSnapshot_frame p.rf peer args reply
      rw [he]
      exact ⟨h.setRf_same rfl rfl rfl rfl, le_rfl, le_rfl⟩
  | applier =>
      obtain ⟨hinv, hcommit, hinc⟩ := h.applier hs
      exact ⟨hinv, hcommit.ge, hinc.ge⟩
  | poll k =>
      obtain ⟨sender, hk, -, rfl⟩ := pollStep_eq_some.mp hs
      have hsenders := forall_mem_set (k := k) (y := { sender with ready := true })
        h.senders_le_applied (h.senders_le_applied sender (List.mem_of_getElem? hk))
      exact ⟨{ h with senders_le_applied := hsenders }, le_rfl, le_rfl⟩
  | send k =>
      obtain ⟨sender, hk, -, rfl⟩ := sendStep_eq_some.mp hs
      refine ⟨{ h with senders_le_applied := ?_, delivered_le_reached := ?_ }, le_rfl, le_rfl⟩
      · exact fun s hs => h.senders_le_applied s (List.mem_of_mem_eraseIdx hs)
      · intro msg hmsg
        rcases List.mem_append.mp hmsg with hmsg | hmsg
        · exact h.delivered_le_reached msg hmsg
        · rw [List.mem_singleton.mp hmsg]
          exact (h.senders_le_applied sender (List.mem_of_getElem? hk)).trans
            (p.applier.le_reached _)

theorem IndexInv.live {p p' : Peer n Cmd} {e : Life n Cmd} (h : IndexInv p) (hok : expected p e)
    (hs : p.live e = some p') : IndexInv p' := by
  cases e with
  | act a => exact (h.step hok hs).1
  | restart =>
      obtain rfl := Option.some.inj hs
      have hmake := indexInv_make p.rf.me p.rf.persister
      exact { hmake with }

/-- The accesses to `rf.logs` that the next step of a peer can make are within
bounds: the step does not panic. -/
structure InBounds (p : Peer n Cmd) : Prop where
  appendEntries : ∀ args, expected p (.act (.appendEntries args)) →
    (p.rf.appendEntries args).isSome
  snapshot : ∀ index data, expected p (.act (.snapshot index data)) →
    (p.rf.snapshotUpTo index data).isSome
  installSnapshot : ∀ args i, p.rf.keptSlot? args = some i → i < p.rf.logs.length
  checkAndCommitLogs : ∀ peer args reply, (p.rf.handleSendAppendEntries peer args reply).isSome
  applierEvent : p.applier = .waiting → (batch p.rf).isSome

theorem IndexInv.inBounds {p : Peer n Cmd} (h : IndexInv p) : InBounds p where
  appendEntries args _ := appendEntries_isSome h.included_le_commit args
  snapshot index data _ := snapshotUpTo_isSome h.commit_le_last index data
  installSnapshot _ _ hi := keptSlot?_lt hi
  checkAndCommitLogs := handleSendAppendEntries_isSome h.included_le_commit
  applierEvent happ := by
    have hinc := h.included_le_reached
    rw [happ] at hinc
    exact batch_isSome hinc h.commit_le_last

/-- In every life of a peer whose environment keeps to what is expected, the four
indices are in order, `commitIndex` and the snapshot point do not fall between two
restarts, and no access to the log is out of bounds. -/
theorem indices_inOrder (me : Fin n) (persister : Persister Cmd) {before : List (Life n Cmd)}
    {acts : List (Act n Cmd)} {p p' : Peer n Cmd}
    (hbefore : exec live (make me persister) before = some p)
    (hacts : exec live p (acts.map .act) = some p')
    (hok : meets live expected (make me persister) (before ++ acts.map .act)) :
    (1 ≤ p'.rf.logs.length ∧ p'.rf.lastIncludedIndex ≤ p'.rf.commitIndex ∧
        p'.rf.commitIndex ≤ p'.rf.lastLogIndex ∧ p'.rf.lastApplied ≤ p'.rf.commitIndex) ∧
      (p.rf.commitIndex ≤ p'.rf.commitIndex ∧
        p.rf.lastIncludedIndex ≤ p'.rf.lastIncludedIndex) ∧
      InBounds p' := by
  obtain ⟨hok₁, hok₂⟩ := (meets_append hbefore).mp hok
  have hinv : IndexInv p := exec_invariant (fun _ _ _ hp hok hs => hp.live hok hs)
    (indexInv_make me persister) hok₁ hbefore
  have hfree : meets live (fun _ e => e ≠ .restart) p (acts.map .act) := by
    refine meets_of_forall (p := fun e => e ≠ Life.restart) p ?_
    intro e he hcon
    obtain ⟨a, -, rfl⟩ := List.mem_map.mp he
    cases hcon
  have hrun := exec_invariant (I := fun q => IndexInv q ∧ p.rf.commitIndex ≤ q.rf.commitIndex ∧
    p.rf.lastIncludedIndex ≤ q.rf.lastIncludedIndex) ?_ ⟨hinv, le_rfl, le_rfl⟩
    (meets_and hok₂ hfree) hacts
  · obtain ⟨hinv', hcommit, hinc⟩ := hrun
    refine ⟨⟨?_, hinv'.included_le_commit, hinv'.commit_le_last, hinv'.applied_le_commit⟩,
      ⟨hcommit, hinc⟩, hinv'.inBounds⟩
    rw [Logs.length_eq]
    exact Nat.le_add_left _ _
  · rintro q e q' ⟨hq, hcommit, hinc⟩ ⟨hok, hne⟩ hs
    cases e with
    | act a =>
        obtain ⟨hq', hcommit', hinc'⟩ := hq.step hok hs
        exact ⟨hq', hcommit.trans hcommit', hinc.trans hinc'⟩
    | restart => exact absurd rfl hne

/-- A follower takes two entries and commits the first one, and its service compacts
up to the command as soon as it has been sent. -/
def compactWhileApplying : List (Life 3 ℕ) :=
  [.act (.appendEntries
      { term := 1, leaderId := 0, prevLogIndex := 0, prevLogTerm := 0,
        entries := [{ term := 1, cmd := some 7 }, { term := 1, cmd := some 8 }],
        leaderCommit := 1 }),
    .act .applier, .act .applier, .act .applier, .act (.snapshot 1 [0])]

/-- The leader commits the second entry and sends its snapshot up to index 5, while
`applierEvent` still holds the first command. -/
def jumpWhileApplying : List (Act 3 ℕ) :=
  [.appendEntries
      { term := 1, leaderId := 0, prevLogIndex := 1, prevLogTerm := 1, entries := [],
        leaderCommit := 2 },
    .installSnapshot
      { term := 1, leaderId := 0, lastIncludedIndex := 5, lastIncludedTerm := 1, data := [1] },
    .applier, .applier, .applier]

theorem indices_inOrder_compactAndJump :
    ∃ p p', exec live (make 1 {}) (.restart :: compactWhileApplying) = some p ∧
      exec live p (jumpWhileApplying.map .act) = some p' ∧
      (p.rf.lastApplied, p.rf.lastIncludedIndex, p'.rf.lastIncludedIndex) = (0, 1, 5) ∧
      (1 ≤ p'.rf.logs.length ∧ p'.rf.lastIncludedIndex ≤ p'.rf.commitIndex ∧
          p'.rf.commitIndex ≤ p'.rf.lastLogIndex ∧ p'.rf.lastApplied ≤ p'.rf.commitIndex) ∧
        (p.rf.commitIndex ≤ p'.rf.commitIndex ∧
          p.rf.lastIncludedIndex ≤ p'.rf.lastIncludedIndex) ∧
        InBounds p' :=
  ⟨_, _, rfl, rfl, by decide, indices_inOrder 1 {}
    (show exec live (make 1 {}) (.restart :: compactWhileApplying) = some _ from rfl)
    (show exec live _ (jumpWhileApplying.map .act) = some _ from rfl) (by decide)⟩

end Peer

end Raft

end DistributedLabs
