import DistributedLabs.Raft.Util

/-!
# The steps of a Raft peer

The functions of `raft/raft.go` that run under `rf.mu`, each as a function of
the peer. `none` is a Go panic, which ends the process: an index out of range or
the explicit panic of `broadcastHeartbeat`. A deferred `persist` is applied at
the return paths that follow it. Messages to other peers are returned as data;
the cluster puts them on the network.
-/

namespace DistributedLabs

namespace Raft

variable {n : ℕ} {Cmd : Type*}

/-- A request that a leader sends to one peer. -/
inductive Outgoing (n : ℕ) (Cmd : Type*) where
  | appendEntries (peer : Fin n) (args : AppendEntriesArgs n Cmd)
  | installSnapshot (peer : Fin n) (args : InstallSnapshotArgs n)

/-! ## Handlers of incoming requests -/

/-- Adopt a larger term and forget the vote. -/
def adoptTerm (rf : Raft n Cmd) (term : ℕ) : Raft n Cmd :=
  if rf.currentTerm < term then
    { rf with currentTerm := term, votedFor := noVote }
  else rf

/-- Become a follower. -/
def toFollower (rf : Raft n Cmd) : Raft n Cmd := { rf with state := .follower }

/-- Adopt a larger term as a follower. -/
def followTerm (rf : Raft n Cmd) (term : ℕ) : Raft n Cmd :=
  if rf.currentTerm < term then
    { rf with currentTerm := term, votedFor := noVote, state := .follower }
  else rf

/-- The `RequestVote` handler. -/
def requestVote (rf : Raft n Cmd) (args : RequestVoteArgs n) :
    Raft n Cmd × RequestVoteReply :=
  if args.term < rf.currentTerm then
    (rf, { term := rf.currentTerm, voteGranted := false })
  else
    let rf := rf.followTerm args.term
    if (rf.votedFor = noVote ∨ rf.votedFor = (args.candidateId : ℕ)) ∧
        rf.isLogUpToDate args.lastLogTerm args.lastLogIndex then
      let rf := { rf with votedFor := (args.candidateId : ℕ) }
      (rf.persist, { term := rf.currentTerm, voteGranted := true })
    else
      (rf.persist, { term := rf.currentTerm, voteGranted := false })

/-- The search for the first index of the conflicting term, downwards from
`PrevLogIndex` and never at or below `commitIndex`. -/
def conflictSearch (rf : Raft n Cmd) (conflictTerm : ℕ) : ℕ → ℤ → Option ℤ
  | 0, conflictIndex => some conflictIndex
  | i + 1, conflictIndex =>
      if rf.commitIndex < i + 1 then
        (rf.entryAt? (i + 1)).bind fun entry =>
          if entry.term ≠ conflictTerm then some conflictIndex
          else conflictSearch rf conflictTerm i (i + 1)
      else some conflictIndex

/-- One round of the copy loop of `AppendEntries`: keep, replace or extend at a
slot. -/
def copyEntry (logs : Logs Cmd) (index : ℕ) (entry : LogEntry Cmd) : Logs Cmd :=
  match logs.get? index with
  | some old => if old.term ≠ entry.term then logs.cutPush index entry else logs
  | none => if index = logs.length then logs.push entry else logs

/-- The copy loop of `AppendEntries`, from the slot `index` on. -/
def copyEntries (logs : Logs Cmd) : ℕ → List (LogEntry Cmd) → Logs Cmd
  | _, [] => logs
  | index, entry :: entries => copyEntries (copyEntry logs index entry) (index + 1) entries

/-- The commit rule of a follower. -/
def followCommit (rf : Raft n Cmd) (leaderCommit : ℕ) : Raft n Cmd :=
  if rf.commitIndex < leaderCommit then
    { rf with commitIndex := min leaderCommit rf.lastLogIndex }
  else rf

/-- The part of `AppendEntries` after the term has been adopted: the snapshot
check, the two consistency checks, the copy loop and the commit rule. -/
def replicate (rf : Raft n Cmd) (args : AppendEntriesArgs n Cmd) :
    Option (Raft n Cmd × AppendEntriesReply) :=
  if args.prevLogIndex < rf.lastIncludedIndex then
    some (rf, { term := rf.currentTerm, success := false })
  else if rf.lastLogIndex < args.prevLogIndex then
    some (rf, { term := rf.currentTerm, success := false,
                xTerm := -1, xIndex := -1, xLen := rf.realLogLen })
  else
    (rf.entryAt? args.prevLogIndex).bind fun old =>
      if old.term ≠ args.prevLogTerm then
        (rf.conflictSearch old.term args.prevLogIndex (-1)).map fun conflictIndex =>
          (rf, { term := rf.currentTerm, success := false,
                 xTerm := old.term, xIndex := conflictIndex, xLen := rf.realLogLen })
      else
        let rf := { rf with
          logs := copyEntries rf.logs (rf.logIndex (args.prevLogIndex + 1)) args.entries }
        some (rf.followCommit args.leaderCommit, { term := rf.currentTerm, success := true })

/-- The `AppendEntries` handler. -/
def appendEntries (rf : Raft n Cmd) (args : AppendEntriesArgs n Cmd) :
    Option (Raft n Cmd × AppendEntriesReply) :=
  if args.term < rf.currentTerm then
    some (rf, { term := rf.currentTerm, success := false })
  else
    let rf := rf.toFollower.adoptTerm args.term
    (rf.replicate args).map fun r => (r.1.persist, r.2)

/-- The loop of `InstallSnapshot` that looks for the slot whose suffix is kept.
It compares the term of slot 0, as in the source. -/
def keptSlot? (rf : Raft n Cmd) (args : InstallSnapshotArgs n) : Option ℕ :=
  (List.range' 1 (rf.logs.length - 1)).find? fun i =>
    rf.realIndex i = args.lastIncludedIndex ∧ rf.logs.zero.term = args.lastIncludedTerm

/-- The entries that an accepted `InstallSnapshot` keeps. -/
def keptEntries (rf : Raft n Cmd) (args : InstallSnapshotArgs n) : List (LogEntry Cmd) :=
  match rf.keptSlot? args with
  | some i => rf.logs.slots.drop (i + 1)
  | none => []

/-- The state of a peer that has taken over a snapshot and kept the entries
`rest` above it. -/
def takeOver (rf : Raft n Cmd) (args : InstallSnapshotArgs n)
    (rest : List (LogEntry Cmd)) : Raft n Cmd :=
  { rf with
    logs := { zero := { term := args.lastIncludedTerm, cmd := none }, rest := rest }
    lastIncludedIndex := args.lastIncludedIndex
    commitIndex := args.lastIncludedIndex
    lastApplied := args.lastIncludedIndex
    snapshot := args.data }

/-- The `InstallSnapshot` handler. The third component is the message of the
goroutine that an accepted request spawns. The two early returns after the term
has been adopted come before the deferred `persist`. -/
def installSnapshot (rf : Raft n Cmd) (args : InstallSnapshotArgs n) :
    Raft n Cmd × InstallSnapshotReply × Option (ApplyMsg Cmd) :=
  if args.term < rf.currentTerm then
    (rf, { term := rf.currentTerm }, none)
  else
    let rf := (rf.adoptTerm args.term).toFollower
    if args.lastIncludedIndex ≤ rf.lastIncludedIndex then
      (rf, { term := rf.currentTerm }, none)
    else if args.lastIncludedIndex ≤ rf.commitIndex then
      (rf, { term := rf.currentTerm }, none)
    else
      ((rf.takeOver args (rf.keptEntries args)).persist, { term := rf.currentTerm },
        some (.snapshot args.data args.lastIncludedTerm args.lastIncludedIndex))

/-! ## Elections -/

/-- `startElection`, with the requests it sends to the other peers. -/
def startElection (rf : Raft n Cmd) :
    Raft n Cmd × List (Fin n × RequestVoteArgs n) :=
  let rf := persist { rf with votedFor := (rf.me : ℕ), currentTerm := rf.currentTerm + 1 }
  let rf := { rf with voteGrantedCnt := 1 }
  (rf, ((List.finRange n).filter (· ≠ rf.me)).map fun i =>
    (i, { term := rf.currentTerm, candidateId := rf.me,
          lastLogIndex := rf.lastLogIndex, lastLogTerm := rf.lastLogTerm }))

/-- One round of `ticker`, when the election timer fires. -/
def ticker (rf : Raft n Cmd) : Raft n Cmd × List (Fin n × RequestVoteArgs n) :=
  startElection { rf with state := .candidate }

/-- Become a leader. -/
def toLeader (rf : Raft n Cmd) : Raft n Cmd := { rf with state := .leader }

/-- The volatile state of a fresh leader. -/
def initializeLeaderEasilyLostState (rf : Raft n Cmd) : Raft n Cmd :=
  { rf with
    matchIndex := Function.update (fun _ => rf.lastIncludedIndex) rf.me rf.lastLogIndex
    nextIndex := Function.update (fun _ => (rf.realLogLen : ℤ)) rf.me (rf.lastLogIndex + 1) }

/-- What `broadcastHeartbeat` sends to the peer `i`. -/
def heartbeatTo (rf : Raft n Cmd) (i : Fin n) : Option (Outgoing n Cmd) :=
  if rf.nextIndex i ≤ rf.lastIncludedIndex then
    some (.installSnapshot i
      { term := rf.currentTerm, leaderId := rf.me,
        lastIncludedIndex := rf.lastIncludedIndex,
        lastIncludedTerm := rf.logs.zero.term, data := rf.snapshot })
  else
    let next := (rf.nextIndex i).toNat
    let prevLogIndex := next - 1
    let prevLogTerm? :=
      if rf.lastIncludedIndex < prevLogIndex ∧
          prevLogIndex < rf.lastIncludedIndex + rf.logs.length then
        (rf.entryAt? prevLogIndex).map (·.term)
      else if prevLogIndex = rf.lastIncludedIndex then some rf.logs.zero.term
      else none
    prevLogTerm?.map fun prevLogTerm =>
      .appendEntries i
        { term := rf.currentTerm, leaderId := rf.me,
          prevLogIndex := prevLogIndex, prevLogTerm := prevLogTerm,
          entries := rf.logs.slots.drop (rf.logIndex next),
          leaderCommit := rf.commitIndex }

/-- `broadcastHeartbeat`: one request for every other peer. -/
def broadcastHeartbeat (rf : Raft n Cmd) : Option (List (Outgoing n Cmd)) :=
  ((List.finRange n).filter (· ≠ rf.me)).mapM rf.heartbeatTo

/-- One round of `heartbeatEvent` or `AddLogEvent`. -/
def heartbeatEvent (rf : Raft n Cmd) : Option (List (Outgoing n Cmd)) :=
  if rf.state = .leader then rf.broadcastHeartbeat else some []

/-- Count the vote of a reply. -/
def countVote (rf : Raft n Cmd) (reply : RequestVoteReply) : Raft n Cmd :=
  if reply.voteGranted then { rf with voteGrantedCnt := rf.voteGrantedCnt + 1 } else rf

/-- The goroutine of `startElection` once its reply has arrived. -/
def handleVoteReply (rf : Raft n Cmd) (args : RequestVoteArgs n)
    (reply : RequestVoteReply) : Option (Raft n Cmd × List (Outgoing n Cmd)) :=
  if rf.currentTerm ≠ args.term ∨ rf.state ≠ .candidate then some (rf, [])
  else if rf.currentTerm < reply.term then
    let rf := persist { rf with currentTerm := reply.term, votedFor := noVote }
    some (rf.toFollower, [])
  else if reply.term = rf.currentTerm then
    let rf := rf.countVote reply
    if n / 2 < rf.voteGrantedCnt then
      let rf := rf.toLeader.initializeLeaderEasilyLostState
      rf.broadcastHeartbeat.map fun out => (rf, out)
    else some (rf, [])
  else some (rf, [])

/-! ## Replication replies, new commands and compaction -/

/-- The number of peers that hold the entry at index `N` of the current term. -/
def succeedNum (rf : Raft n Cmd) (N : ℕ) : Option ℕ :=
  (List.finRange n).foldlM (fun succeedNum p =>
    if N ≤ rf.matchIndex p then
      (rf.entryAt? N).map fun entry =>
        if entry.term = rf.currentTerm then succeedNum + 1 else succeedNum
    else some succeedNum) 0

/-- `checkAndCommitLogs`: advance `commitIndex` to the largest index of the
current term that a majority holds. -/
def checkAndCommitLogs (rf : Raft n Cmd) : Option (Raft n Cmd) :=
  ((List.range' (rf.commitIndex + 1) (rf.realLogLen - (rf.commitIndex + 1))).foldlM
    (fun N i => (rf.succeedNum i).map fun k => if n / 2 < k then i else N)
    rf.commitIndex).map fun N =>
      if rf.commitIndex < N then { rf with commitIndex := N } else rf

/-- `findNextIndex`: back up `nextIndex` from the conflict report. -/
def findNextIndex (rf : Raft n Cmd) (peer : Fin n) (reply : AppendEntriesReply) :
    Raft n Cmd :=
  let next : ℤ :=
    if reply.xTerm = -1 ∧ reply.xIndex = -1 then reply.xLen
    else
      (rf.logs.slots.zipIdx.foldl (fun next slot =>
        if (slot.1.term : ℤ) = reply.xTerm then some (rf.realIndex slot.2 : ℤ) else next)
        none).getD reply.xIndex
  { rf with nextIndex := Function.update rf.nextIndex peer next }

/-- `handleSendAppendEntries` once the reply has arrived. -/
def handleSendAppendEntries (rf : Raft n Cmd) (peer : Fin n)
    (args : AppendEntriesArgs n Cmd) (reply : AppendEntriesReply) :
    Option (Raft n Cmd) :=
  if rf.currentTerm ≠ args.term ∨ rf.state ≠ .leader then some rf
  else if rf.currentTerm < reply.term then
    some (persist { rf with currentTerm := reply.term, state := .follower })
  else if reply.success then
    let last := args.prevLogIndex + args.entries.length
    checkAndCommitLogs
      { rf with
        matchIndex := Function.update rf.matchIndex peer (max (rf.matchIndex peer) last)
        nextIndex := Function.update rf.nextIndex peer
          (max (rf.nextIndex peer) (last + 1 : ℕ)) }
  else some (rf.findNextIndex peer reply)

/-- `handleSendInstallSnapshot` once the reply has arrived. -/
def handleSendInstallSnapshot (rf : Raft n Cmd) (peer : Fin n)
    (args : InstallSnapshotArgs n) (reply : InstallSnapshotReply) : Raft n Cmd :=
  if rf.currentTerm ≠ args.term ∨ rf.state ≠ .leader then rf
  else if rf.currentTerm < reply.term then
    persist { rf with currentTerm := reply.term, state := .follower }
  else
    { rf with
      matchIndex := Function.update rf.matchIndex peer
        (max (rf.matchIndex peer) args.lastIncludedIndex)
      nextIndex := Function.update rf.nextIndex peer
        (max (rf.nextIndex peer) (args.lastIncludedIndex + 1 : ℕ)) }

/-- `Start`, with the index, the term and the leadership it returns. -/
def start (rf : Raft n Cmd) (command : Option Cmd) : Raft n Cmd × (ℤ × ℤ × Bool) :=
  if rf.state ≠ .leader then (rf, (-1, -1, false))
  else
    let rf := persist { rf with
      logs := rf.logs.push { term := rf.currentTerm, cmd := command } }
    let rf := { rf with
      matchIndex := Function.update rf.matchIndex rf.me rf.lastLogIndex
      nextIndex := Function.update rf.nextIndex rf.me (rf.realLogLen : ℤ) }
    (rf, (rf.lastLogIndex, rf.currentTerm, true))

/-- `Snapshot(index, snapshot)`: compact the log up to a committed index. -/
def snapshotUpTo (rf : Raft n Cmd) (index : ℕ) (snapshot : Bytes) :
    Option (Raft n Cmd) :=
  if rf.commitIndex < index ∨ index ≤ rf.lastIncludedIndex then some rf
  else
    let split := rf.logIndex index
    (rf.logs.get? split).map fun entry =>
      persist { rf with
        lastIncludedIndex := index
        logs := { zero := { term := entry.term, cmd := none },
                  rest := rf.logs.slots.drop (split + 1) }
        snapshot := snapshot }

end Raft

end DistributedLabs
