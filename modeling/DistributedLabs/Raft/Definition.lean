import Mathlib.Logic.Function.Basic
import Mathlib.Data.Fin.Basic
import Mathlib.Data.List.FinRange

/-!
# The data of a Raft peer

The types of `raft/raft_definition.go` and `raft/persister.go`: log entries,
the four RPC payloads, the persisted status and the peer itself, for a cluster
of `n` peers indexed by `Fin n` and commands of an arbitrary type.

Terms, log indices and counters are natural numbers. The fields that the source
lets become negative stay integers: `votedFor` (`noVote` is `-1`), `nextIndex`
and the conflict report `XTerm`, `XIndex` of an `AppendEntries` reply. Timers
are not part of the data; a timeout is a step that may happen at any moment.
-/

namespace DistributedLabs

namespace Raft

/-- The content of a snapshot. -/
abbrev Bytes := List UInt8

/-- The role of a peer. -/
inductive State where
  | follower
  | candidate
  | leader
deriving DecidableEq, Repr

/-- The value of `votedFor` while no vote has been cast in the current term. -/
def noVote : ℤ := -1

/-- A log entry; `none` is the `nil` command of slot 0. -/
structure LogEntry (Cmd : Type*) where
  term : ℕ
  cmd : Option Cmd
deriving DecidableEq, Repr

/-- The slice `rf.logs`. Slot 0 always exists: it is the empty entry of a fresh
peer and holds the term of the snapshot point afterwards, so the slice is a slot
followed by the entries above the snapshot point. -/
structure Logs (Cmd : Type*) where
  zero : LogEntry Cmd
  rest : List (LogEntry Cmd)
deriving DecidableEq, Repr

namespace Logs

variable {Cmd : Type*}

/-- The slots in order, slot 0 first. -/
def slots (l : Logs Cmd) : List (LogEntry Cmd) := l.zero :: l.rest

/-- `len(rf.logs)`. -/
def length (l : Logs Cmd) : ℕ := l.slots.length

/-- `rf.logs[i]`; `none` is an index out of range. -/
def get? (l : Logs Cmd) (i : ℕ) : Option (LogEntry Cmd) := l.slots[i]?

/-- `append(rf.logs, entry)`. -/
def push (l : Logs Cmd) (entry : LogEntry Cmd) : Logs Cmd :=
  { l with rest := l.rest ++ [entry] }

/-- `append(rf.logs[:index], entry)`. -/
def cutPush (l : Logs Cmd) (index : ℕ) (entry : LogEntry Cmd) : Logs Cmd :=
  match index with
  | 0 => { zero := entry, rest := [] }
  | i + 1 => { l with rest := l.rest.take i ++ [entry] }

@[simp] theorem length_eq (l : Logs Cmd) : l.length = l.rest.length + 1 := by
  simp [length, slots]

@[simp] theorem get?_zero (l : Logs Cmd) : l.get? 0 = some l.zero := rfl

@[simp] theorem get?_succ (l : Logs Cmd) (i : ℕ) : l.get? (i + 1) = l.rest[i]? := by
  simp [get?, slots]

end Logs

/-- The arguments of `RequestVote`. -/
structure RequestVoteArgs (n : ℕ) where
  term : ℕ
  candidateId : Fin n
  lastLogIndex : ℕ
  lastLogTerm : ℕ
deriving DecidableEq, Repr

/-- The reply of `RequestVote`. -/
structure RequestVoteReply where
  term : ℕ
  voteGranted : Bool
deriving DecidableEq, Repr

/-- The arguments of `AppendEntries`. -/
structure AppendEntriesArgs (n : ℕ) (Cmd : Type*) where
  term : ℕ
  leaderId : Fin n
  prevLogIndex : ℕ
  prevLogTerm : ℕ
  entries : List (LogEntry Cmd)
  leaderCommit : ℕ
deriving DecidableEq, Repr

/-- The reply of `AppendEntries`. A path that does not report a conflict leaves
the three conflict fields at the zero value. -/
structure AppendEntriesReply where
  term : ℕ
  success : Bool
  xTerm : ℤ := 0
  xIndex : ℤ := 0
  xLen : ℕ := 0
deriving DecidableEq, Repr

/-- The arguments of `InstallSnapshot`. -/
structure InstallSnapshotArgs (n : ℕ) where
  term : ℕ
  leaderId : Fin n
  lastIncludedIndex : ℕ
  lastIncludedTerm : ℕ
  data : Bytes
deriving DecidableEq, Repr

/-- The reply of `InstallSnapshot`. -/
structure InstallSnapshotReply where
  term : ℕ
deriving DecidableEq, Repr

/-- What a peer sends to its service on `applyCh`. -/
inductive ApplyMsg (Cmd : Type*) where
  | command (command : Option Cmd) (commandIndex : ℕ)
  | snapshot (snapshot : Bytes) (snapshotTerm snapshotIndex : ℕ)
deriving DecidableEq, Repr

/-- The index a message carries: `CommandIndex` or `SnapshotIndex`. -/
def ApplyMsg.index {Cmd : Type*} : ApplyMsg Cmd → ℕ
  | .command _ i => i
  | .snapshot _ _ i => i

/-- The status that `persist` encodes. -/
structure PersistentStatus (Cmd : Type*) where
  logs : Logs Cmd
  currentTerm : ℕ
  votedFor : ℤ
  lastIncludedIndex : ℕ
  lastIncludedTerm : ℕ
deriving DecidableEq, Repr

/-- Stable storage. The encoded status is kept as the status itself, since
decoding an encoded status gives it back; `none` is the empty byte slice. -/
structure Persister (Cmd : Type*) where
  raftstate : Option (PersistentStatus Cmd) := none
  snapshot : Bytes := []
deriving DecidableEq, Repr

end Raft

/-- A Raft peer. `voteGrantedCnt` is the counter that the goroutines of the
latest `startElection` share; those of earlier elections find a larger
`currentTerm` and return before they touch theirs. -/
structure Raft (n : ℕ) (Cmd : Type*) where
  me : Fin n
  currentTerm : ℕ
  votedFor : ℤ
  state : Raft.State
  logs : Raft.Logs Cmd
  commitIndex : ℕ
  lastApplied : ℕ
  nextIndex : Fin n → ℤ
  matchIndex : Fin n → ℕ
  snapshot : Raft.Bytes
  lastIncludedIndex : ℕ
  replicatePreSnapshot : Bool
  persister : Raft.Persister Cmd
  voteGrantedCnt : ℕ

end DistributedLabs
