import DistributedLabs.KvRaft.System
import DistributedLabs.Raft.Placement

/-!
# The service on top of Raft

`System` knows of Raft the contract only. `Stack` has the cluster in its place: each
server stands on a peer, hands its operations to `Start` and receives on the unbuffered
`applyCh` what `applierEvent` or a goroutine of `InstallSnapshot` sends. The encoding of
snapshots is a parameter. A server that crashes takes no more steps.
-/

namespace DistributedLabs

namespace KvRaft

open SharedLog
open Raft (Placed LogEntry Bytes)

variable {n m : ℕ}

/-- The clerks and the servers with the cluster underneath. -/
structure Stack (n m : ℕ) where
  raft : Raft.Cluster n Op
  servers : Fin n → Server
  clerks : Fin m → Clerk
  requests : List (Request n)
  history : List (Event (ℕ × ℕ) Input String)

namespace Stack

def init (n : ℕ) (ids : Fin m → ℕ) : Stack n m :=
  { raft := Raft.Cluster.init n Op
    servers := fun _ => Server.startKVServer none
    clerks := fun c => { clientId := ids c }
    requests := []
    history := [] }

/-- The state as a system in which `started` and `log` stand for what Raft knows. -/
def system (s : Stack n m) (started : List (Op × Bool)) (log : List Op) : System n m :=
  { servers := s.servers
    received := fun i => (s.raft.peers i).delivered.length
    clerks := s.clerks
    requests := s.requests
    started := started
    log := log
    history := s.history }

/-- The clerks and servers of a system on the same cluster. -/
def setFront (s : Stack n m) (t : System n m) : Stack n m :=
  { s with
    servers := t.servers, clerks := t.clerks, requests := t.requests, history := t.history }

def setServer (s : Stack n m) (i : Fin n) (raft : Raft.Cluster n Op) (kv : Server) : Stack n m :=
  { s with raft := raft, servers := Function.update s.servers i kv }

/-- The steps of the clerks, of the network between them and the servers, and of the
servers that have nothing to do with Raft. -/
def isFront : System.Act n m → Bool
  | .invoke _ _ | .call _ | .fail _ | .ret _ | .deliver _ => true
  | .own _ (.finish _) => false
  | .own _ _ => true
  | .start _ _ _ | .commit _ | .recv _ => false

def front (s : Stack n m) (a : System.Act n m) : Option (Stack n m) :=
  if isFront a then ((s.system [] []).step a).map s.setFront else none

/-- A handler calls `Start` of the peer and goes on with what it returns. -/
def start (s : Stack n m) (i : Fin n) (h : ℕ) : Option (Stack n m) :=
  ((s.servers i).handlers[h]?).bind fun hd =>
    ((s.servers i).start h (((s.raft.peers i).rf.placed? (some hd.op)).map Placed.index)).bind
      fun kv => (s.raft.step (.start i (some hd.op))).map fun raft => s.setServer i raft kv

/-- The steps of the cluster that no server takes part in. -/
def isPrivate (c : Raft.Cluster n Op) : Raft.Cluster.Act n Op → Bool
  | .start _ _ | .snapshot _ _ _ | .deliver _ _ | .restart _ => false
  | .applier i =>
    match (c.peers i).applier with
    | .flagged _ _ => false
    | .waiting | .looping _ | .sent _ _ | .cleared _ _ => true
  | .ticker _ | .heartbeat _ | .requestVote _ | .appendEntries _ | .installSnapshot _
  | .voteReply _ | .appendReply _ | .snapshotReply _ | .poll _ _ => true

def raftStep (s : Stack n m) (a : Raft.Cluster.Act n Op) : Option (Stack n m) :=
  if isPrivate s.raft a then (s.raft.step a).map fun raft => { s with raft := raft } else none

section

variable (encode : SnapshotStatus → Bytes) (decode : Bytes → Option SnapshotStatus)

/-- A message of the peer as `apply` reads it. A command that is no `Op` fails the type
assertion, which panics. -/
def message : Raft.ApplyMsg Op → Option ApplyMsg
  | .command (some op) index => some (.command op index)
  | .command none _ => none
  | .snapshot data _ index => some (.snapshot (decode data) index)

/-- `applierEvent` sends and `apply` receives. -/
def recv (s : Stack n m) (i : Fin n) : Option (Stack n m) :=
  match (s.raft.peers i).applier with
  | .flagged msg _ =>
    (message decode msg).bind fun msg => ((s.servers i).recv msg).bind fun kv =>
      (s.raft.step (.applier i)).map fun raft => s.setServer i raft kv
  | _ => none

/-- The goroutine `k` that delivers a snapshot sends and `apply` receives. -/
def recvSnapshot (s : Stack n m) (i : Fin n) (k : ℕ) : Option (Stack n m) :=
  ((s.raft.peers i).senders[k]?).bind fun sender =>
    (message decode sender.msg).bind fun msg => ((s.servers i).recv msg).bind fun kv =>
      (s.raft.step (.deliver i k)).map fun raft => s.setServer i raft kv

/-- The end of a round of `apply`; if the state of Raft is large, the tables are encoded
and handed to `rf.Snapshot`. -/
def finish (s : Stack n m) (i : Fin n) (full : Bool) : Option (Stack n m) :=
  ((s.servers i).finish full).bind fun kv =>
    if full then
      (s.raft.step (.snapshot i kv.lastApplied (encode kv.toSnapshotStatus))).map fun raft =>
        s.setServer i raft kv
    else some (s.setServer i s.raft kv)

inductive Act (n m : ℕ) where
  | front (a : System.Act n m)
  | start (i : Fin n) (h : ℕ)
  | raft (a : Raft.Cluster.Act n Op)
  | recv (i : Fin n)
  | recvSnapshot (i : Fin n) (k : ℕ)
  | finish (i : Fin n) (full : Bool)

def step (s : Stack n m) : Act n m → Option (Stack n m)
  | .front a => s.front a
  | .start i h => s.start i h
  | .raft a => s.raftStep a
  | .recv i => s.recv decode i
  | .recvSnapshot i k => s.recvSnapshot decode i k
  | .finish i full => s.finish encode i full

end

/-- The server takes a snapshot. -/
def Act.takesSnapshot : Act n m → Bool
  | .finish _ full => full
  | .front _ | .start _ _ | .raft _ | .recv _ | .recvSnapshot _ _ => false

/-- A run in which no server takes a snapshot, as with `maxraftstate == -1`. -/
def Unsnapped (acts : List (Act n m)) : Prop := ∀ a ∈ acts, a.takesSnapshot = false

instance (acts : List (Act n m)) : Decidable (Unsnapped acts) :=
  inferInstanceAs (Decidable (∀ a ∈ acts, a.takesSnapshot = false))

end Stack

end KvRaft

end DistributedLabs
