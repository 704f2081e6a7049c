import DistributedLabs.Raft.Definition

/-!
# Log indices, persistence and construction

The index arithmetic of `raft/raft_util.go` over the compacted log, `persist`
and `readPersist` of `raft/raft.go`, and `Make` of `raft/raft_definition.go`.
A real index counts from the first entry the cluster ever logged; a log index
is a slot of `rf.logs`, where slot 0 stands for `lastIncludedIndex`.
-/

namespace DistributedLabs

namespace Raft

variable {n : ℕ} {Cmd : Type*}

/-- The term of the last slot, slot 0 included. -/
def lastLogTerm (rf : Raft n Cmd) : ℕ :=
  (rf.logs.rest.getLastD rf.logs.zero).term

/-- The real index of the last entry. -/
def lastLogIndex (rf : Raft n Cmd) : ℕ :=
  rf.lastIncludedIndex + rf.logs.length - 1

/-- The slot of a real index at or above the snapshot point. -/
def logIndex (rf : Raft n Cmd) (realIndex : ℕ) : ℕ :=
  realIndex - rf.lastIncludedIndex

/-- The real index of a slot. -/
def realIndex (rf : Raft n Cmd) (logIndex : ℕ) : ℕ :=
  rf.lastIncludedIndex + logIndex

/-- The length of the log with the compacted entries counted. -/
def realLogLen (rf : Raft n Cmd) : ℕ :=
  rf.lastIncludedIndex + rf.logs.length

/-- Whether a log with the given last entry is at least as new as this one. -/
def isLogUpToDate (rf : Raft n Cmd) (lastLogTerm lastLogIndex : ℕ) : Bool :=
  rf.lastLogTerm < lastLogTerm ||
    (lastLogTerm == rf.lastLogTerm && rf.lastLogIndex ≤ lastLogIndex)

/-- `rf.logs[rf.logIndex(i)]`. A real index below the snapshot point or above
the last entry is an index out of range, which panics in the source. -/
def entryAt? (rf : Raft n Cmd) (i : ℕ) : Option (LogEntry Cmd) :=
  if i < rf.lastIncludedIndex then none else rf.logs.get? (rf.logIndex i)

/-- The status that `persist` saves. -/
def status (rf : Raft n Cmd) : PersistentStatus Cmd where
  logs := rf.logs
  currentTerm := rf.currentTerm
  votedFor := rf.votedFor
  lastIncludedIndex := rf.lastIncludedIndex
  lastIncludedTerm := rf.logs.zero.term

/-- Save the status and the snapshot to stable storage. -/
def persist (rf : Raft n Cmd) : Raft n Cmd :=
  { rf with persister := { raftstate := some rf.status, snapshot := rf.snapshot } }

/-- Restore the persisted status. The restored vote is the persisted term, as
in the source. -/
def readPersist (rf : Raft n Cmd) : Raft n Cmd :=
  match rf.persister.raftstate with
  | none => rf
  | some persistentStatus =>
    { rf with
      currentTerm := persistentStatus.currentTerm
      votedFor := persistentStatus.currentTerm
      logs := { persistentStatus.logs with
        zero := { persistentStatus.logs.zero with
          term := persistentStatus.lastIncludedTerm } }
      lastIncludedIndex := persistentStatus.lastIncludedIndex
      commitIndex := persistentStatus.lastIncludedIndex
      lastApplied := persistentStatus.lastIncludedIndex
      snapshot := rf.persister.snapshot }

/-- `Make`: a peer started on the contents of a persister. -/
def make (me : Fin n) (persister : Persister Cmd) : Raft n Cmd :=
  readPersist
    { me := me
      currentTerm := 0
      votedFor := noVote
      state := .follower
      logs := { zero := { term := 0, cmd := none }, rest := [] }
      commitIndex := 0
      lastApplied := 0
      nextIndex := fun _ => 0
      matchIndex := fun _ => 0
      snapshot := []
      lastIncludedIndex := 0
      replicatePreSnapshot := false
      persister := persister
      voteGrantedCnt := 0 }

theorem lastLogIndex_eq (rf : Raft n Cmd) :
    rf.lastLogIndex = rf.lastIncludedIndex + rf.logs.rest.length := by
  simp [lastLogIndex]

theorem realLogLen_eq (rf : Raft n Cmd) :
    rf.realLogLen = rf.lastLogIndex + 1 := by
  simp [realLogLen, lastLogIndex_eq, Nat.add_assoc]

theorem entryAt?_of_le (rf : Raft n Cmd) {i : ℕ} (h : rf.lastIncludedIndex ≤ i) :
    rf.entryAt? i = rf.logs.get? (i - rf.lastIncludedIndex) := by
  simp [entryAt?, Nat.not_lt.mpr h, logIndex]

theorem isLogUpToDate_iff (rf : Raft n Cmd) (lastLogTerm lastLogIndex : ℕ) :
    rf.isLogUpToDate lastLogTerm lastLogIndex = true ↔
      rf.lastLogTerm < lastLogTerm ∨
        (lastLogTerm = rf.lastLogTerm ∧ rf.lastLogIndex ≤ lastLogIndex) := by
  simp [isLogUpToDate]

end Raft

end DistributedLabs
