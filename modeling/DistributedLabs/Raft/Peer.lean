import DistributedLabs.Raft.Handlers

/-!
# A peer with its goroutines

`Peer` adds to a `Raft` the goroutines that touch `applyCh`: the program counter
of `applierEvent`, the goroutines that `InstallSnapshot` spawns to deliver a
snapshot, and the messages the service has received so far. The flag
`replicatePreSnapshot` is read and written without the lock, so its accesses are
steps of their own.
-/

namespace DistributedLabs

namespace Raft

/-- Where `applierEvent` is. -/
inductive Applier (Cmd : Type*) where
  /-- Before the batch is built, or waiting on the condition variable. -/
  | waiting
  /-- At the head of the loop over the batch. -/
  | looping (msgs : List (ApplyMsg Cmd))
  /-- The flag is set and the message is about to be sent. -/
  | flagged (msg : ApplyMsg Cmd) (msgs : List (ApplyMsg Cmd))
  /-- The message is sent and the flag is about to be cleared. -/
  | sent (msg : ApplyMsg Cmd) (msgs : List (ApplyMsg Cmd))
  /-- The flag is cleared and `lastApplied` is about to be updated. -/
  | cleared (msg : ApplyMsg Cmd) (msgs : List (ApplyMsg Cmd))
deriving DecidableEq, Repr

/-- The messages that `applierEvent` holds. -/
def Applier.msgs {Cmd : Type*} : Applier Cmd → List (ApplyMsg Cmd)
  | .waiting => []
  | .looping msgs => msgs
  | .flagged msg msgs => msg :: msgs
  | .sent msg msgs => msg :: msgs
  | .cleared msg msgs => msg :: msgs

/-- A goroutine that delivers a snapshot; it is `ready` once it has read the
flag as false. -/
structure Sender (Cmd : Type*) where
  msg : ApplyMsg Cmd
  ready : Bool := false
deriving DecidableEq, Repr

/-- A peer with its goroutines. `inst` counts the restarts. -/
structure Peer (n : ℕ) (Cmd : Type*) where
  rf : Raft n Cmd
  applier : Applier Cmd := .waiting
  senders : List (Sender Cmd) := []
  delivered : List (ApplyMsg Cmd) := []
  inst : ℕ := 0

namespace Peer

variable {n : ℕ} {Cmd : Type*}

/-- A peer started on the contents of a persister. -/
def make (me : Fin n) (persister : Persister Cmd) : Peer n Cmd :=
  { rf := Raft.make me persister }

/-- Replace the state under the lock. -/
def setRf (p : Peer n Cmd) (rf : Raft n Cmd) : Peer n Cmd := { p with rf := rf }

/-- The batch that `applierEvent` builds under the lock. -/
def batch (rf : Raft n Cmd) : Option (List (ApplyMsg Cmd)) :=
  (List.range' (rf.lastApplied + 1) (rf.commitIndex - rf.lastApplied)).mapM fun i =>
    (rf.entryAt? i).map fun entry => .command entry.cmd i

/-- One step of `applierEvent`. -/
def applierStep (p : Peer n Cmd) : Option (Peer n Cmd) :=
  match p.applier with
  | .waiting =>
    if p.rf.commitIndex ≤ p.rf.lastApplied then none
    else (batch p.rf).map fun msgs => { p with applier := .looping msgs }
  | .looping [] => some { p with applier := .waiting }
  | .looping (msg :: msgs) =>
    if msg.index ≠ p.rf.lastApplied + 1 then some { p with applier := .looping msgs }
    else some { p with
      rf := { p.rf with replicatePreSnapshot := true }
      applier := .flagged msg msgs }
  | .flagged msg msgs =>
    some { p with delivered := p.delivered ++ [msg], applier := .sent msg msgs }
  | .sent msg msgs =>
    some { p with
      rf := { p.rf with replicatePreSnapshot := false }
      applier := .cleared msg msgs }
  | .cleared msg msgs =>
    some { p with
      rf := { p.rf with lastApplied := max msg.index p.rf.lastApplied }
      applier := .looping msgs }

/-- The ways in which `applierEvent` moves on. -/
inductive Applies (p : Peer n Cmd) : Peer n Cmd → Prop
  | collect (msgs : List (ApplyMsg Cmd)) (happ : p.applier = .waiting)
      (hlt : p.rf.lastApplied < p.rf.commitIndex) (hbatch : batch p.rf = some msgs) :
      Applies p { p with applier := .looping msgs }
  | wait (happ : p.applier = .looping []) : Applies p { p with applier := .waiting }
  | skip (msg : ApplyMsg Cmd) (msgs : List (ApplyMsg Cmd))
      (happ : p.applier = .looping (msg :: msgs)) (hne : msg.index ≠ p.rf.lastApplied + 1) :
      Applies p { p with applier := .looping msgs }
  | flag (msg : ApplyMsg Cmd) (msgs : List (ApplyMsg Cmd))
      (happ : p.applier = .looping (msg :: msgs)) (hnext : msg.index = p.rf.lastApplied + 1) :
      Applies p
        { p with
          rf := { p.rf with replicatePreSnapshot := true }
          applier := .flagged msg msgs }
  | send (msg : ApplyMsg Cmd) (msgs : List (ApplyMsg Cmd)) (happ : p.applier = .flagged msg msgs) :
      Applies p { p with delivered := p.delivered ++ [msg], applier := .sent msg msgs }
  | clear (msg : ApplyMsg Cmd) (msgs : List (ApplyMsg Cmd)) (happ : p.applier = .sent msg msgs) :
      Applies p
        { p with
          rf := { p.rf with replicatePreSnapshot := false }
          applier := .cleared msg msgs }
  | advance (msg : ApplyMsg Cmd) (msgs : List (ApplyMsg Cmd))
      (happ : p.applier = .cleared msg msgs) :
      Applies p
        { p with
          rf := { p.rf with lastApplied := max msg.index p.rf.lastApplied }
          applier := .looping msgs }

theorem applierStep_applies {p p' : Peer n Cmd} (h : p.applierStep = some p') :
    p.Applies p' := by
  unfold applierStep at h
  split at h
  · rename_i happ
    split at h
    · cases h
    · rename_i hlt
      obtain ⟨msgs, hbatch, rfl⟩ := Option.map_eq_some_iff.mp h
      exact .collect msgs happ (Nat.not_le.mp hlt) hbatch
  · rename_i happ
    exact Option.some.inj h ▸ .wait happ
  · rename_i msg msgs happ
    split at h
    · rename_i hne
      exact Option.some.inj h ▸ .skip msg msgs happ hne
    · rename_i hnext
      exact Option.some.inj h ▸ .flag msg msgs happ (not_not.mp hnext)
  · rename_i msg msgs happ
    exact Option.some.inj h ▸ .send msg msgs happ
  · rename_i msg msgs happ
    exact Option.some.inj h ▸ .clear msg msgs happ
  · rename_i msg msgs happ
    exact Option.some.inj h ▸ .advance msg msgs happ

/-- `applierEvent` changes only the flag and `lastApplied` of the peer. -/
theorem applierStep_frame {p p' : Peer n Cmd} (h : p.applierStep = some p') :
    p'.inst = p.inst ∧ p'.senders = p.senders ∧ ∃ flag lastApplied,
      p'.rf = { p.rf with replicatePreSnapshot := flag, lastApplied := lastApplied } := by
  cases applierStep_applies h with
  | collect _ _ _ _ => exact ⟨rfl, rfl, _, _, rfl⟩
  | wait _ => exact ⟨rfl, rfl, _, _, rfl⟩
  | skip _ _ _ _ => exact ⟨rfl, rfl, _, _, rfl⟩
  | flag _ _ _ _ => exact ⟨rfl, rfl, _, _, rfl⟩
  | send _ _ _ => exact ⟨rfl, rfl, _, _, rfl⟩
  | clear _ _ _ => exact ⟨rfl, rfl, _, _, rfl⟩
  | advance _ _ _ => exact ⟨rfl, rfl, _, _, rfl⟩

/-- The goroutine `k` polls the flag; it keeps polling while the flag is set. -/
def pollStep (p : Peer n Cmd) (k : ℕ) : Option (Peer n Cmd) :=
  (p.senders[k]?).bind fun sender =>
    if p.rf.replicatePreSnapshot then none
    else some { p with senders := p.senders.set k { sender with ready := true } }

/-- The goroutine `k` has left its polling loop and sends its snapshot. -/
def sendStep (p : Peer n Cmd) (k : ℕ) : Option (Peer n Cmd) :=
  (p.senders[k]?).bind fun sender =>
    if sender.ready then
      some { p with
        delivered := p.delivered ++ [sender.msg]
        senders := p.senders.eraseIdx k }
    else none

/-- What a polling goroutine has read: the flag is down and it is ready. -/
theorem pollStep_eq_some {p p' : Peer n Cmd} {k : ℕ} :
    p.pollStep k = some p' ↔ ∃ sender, p.senders[k]? = some sender ∧
      p.rf.replicatePreSnapshot = false ∧
      p' = { p with senders := p.senders.set k { sender with ready := true } } := by
  unfold pollStep
  rw [Option.bind_eq_some_iff]
  constructor
  · rintro ⟨sender, hs, h⟩
    split at h
    · cases h
    · exact ⟨sender, hs, by simp_all, (Option.some.inj h).symm⟩
  · rintro ⟨sender, hs, hflag, rfl⟩
    exact ⟨sender, hs, by simp [hflag]⟩

theorem sendStep_eq_some {p p' : Peer n Cmd} {k : ℕ} :
    p.sendStep k = some p' ↔ ∃ sender, p.senders[k]? = some sender ∧
      sender.ready = true ∧
      p' = { p with
        delivered := p.delivered ++ [sender.msg], senders := p.senders.eraseIdx k } := by
  unfold sendStep
  rw [Option.bind_eq_some_iff]
  constructor
  · rintro ⟨sender, hs, h⟩
    split at h
    · rename_i hready
      exact ⟨sender, hs, hready, (Option.some.inj h).symm⟩
    · cases h
  · rintro ⟨sender, hs, hready, rfl⟩
    exact ⟨sender, hs, by simp [hready]⟩

/-- `InstallSnapshot` with the goroutine it spawns. -/
def installSnapshot (p : Peer n Cmd) (args : InstallSnapshotArgs n) :
    Peer n Cmd × InstallSnapshotReply :=
  let r := p.rf.installSnapshot args
  ({ p with rf := r.1, senders := p.senders ++ (r.2.2.map fun msg => { msg := msg }).toList },
    r.2.1)

/-- A crash followed by a restart on the contents of the persister. -/
def restart (p : Peer n Cmd) : Peer n Cmd :=
  { make p.rf.me p.rf.persister with inst := p.inst + 1 }

/-- A step of one peer, its environment left open: every request and every reply
may arrive. -/
inductive Act (n : ℕ) (Cmd : Type*) where
  | ticker
  | heartbeat
  | start (command : Option Cmd)
  | snapshot (index : ℕ) (data : Bytes)
  | requestVote (args : RequestVoteArgs n)
  | appendEntries (args : AppendEntriesArgs n Cmd)
  | installSnapshot (args : InstallSnapshotArgs n)
  | voteReply (args : RequestVoteArgs n) (reply : RequestVoteReply)
  | appendReply (peer : Fin n) (args : AppendEntriesArgs n Cmd) (reply : AppendEntriesReply)
  | snapshotReply (peer : Fin n) (args : InstallSnapshotArgs n) (reply : InstallSnapshotReply)
  | applier
  | poll (k : ℕ)
  | send (k : ℕ)

/-- The steps of one peer between two restarts. -/
def step (p : Peer n Cmd) : Act n Cmd → Option (Peer n Cmd)
  | .ticker => some (p.setRf p.rf.ticker.1)
  | .heartbeat => p.rf.heartbeatEvent.map fun _ => p
  | .start command => some (p.setRf (p.rf.start command).1)
  | .snapshot index data => (p.rf.snapshotUpTo index data).map p.setRf
  | .requestVote args => some (p.setRf (p.rf.requestVote args).1)
  | .appendEntries args => (p.rf.appendEntries args).map fun r => p.setRf r.1
  | .installSnapshot args => some (p.installSnapshot args).1
  | .voteReply args reply => (p.rf.handleVoteReply args reply).map fun r => p.setRf r.1
  | .appendReply peer args reply =>
    (p.rf.handleSendAppendEntries peer args reply).map p.setRf
  | .snapshotReply peer args reply =>
    some (p.setRf (p.rf.handleSendInstallSnapshot peer args reply))
  | .applier => p.applierStep
  | .poll k => p.pollStep k
  | .send k => p.sendStep k

end Peer

end Raft

end DistributedLabs
