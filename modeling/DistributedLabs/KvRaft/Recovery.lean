import DistributedLabs.Logic.Run
import DistributedLabs.KvRaft.Server

/-!
# Snapshots and restarts of the replicas

A `Fleet` is a number of servers that receive the commands `ops` of one
committed log on their channels `applyCh`. Instead of the next command a server
may receive a snapshot that any server has taken, and it may be restarted from
the snapshot that its persister holds. The messages are handled by the steps of
`Server`; the encoding of snapshots is a parameter.

Whatever the mixture, the tables of a server that has handled index `n` are
those after the first `n` commands, one after the other.
-/

namespace DistributedLabs

namespace KvRaft

/-- The tables after a list of commands, from empty maps. -/
def SnapshotStatus.applyOps (ops : List Op) : SnapshotStatus :=
  ops.foldl SnapshotStatus.applyOp {}

theorem SnapshotStatus.applyOps_take_succ {ops : List Op} {i : ℕ} {op : Op}
    (hop : ops[i]? = some op) :
    applyOps (ops.take (i + 1)) = (applyOps (ops.take i)).applyOp op := by
  unfold applyOps
  rw [List.take_add_one, hop, Option.toList_some, List.foldl_append]
  rfl

/-- A server with what Raft keeps for it: the index of the last message put on
`applyCh`, and the snapshot in the persister with its index. -/
structure Node (β : Type*) where
  kv : Server := {}
  delivered : ℕ := 0
  persisted : Option (ℕ × β) := none

/-- The servers, and the snapshots that `kv.snapshot` has encoded on any of
them. -/
structure Fleet (n : ℕ) (β : Type*) where
  nodes : Fin n → Node β := fun _ => {}
  encoded : List (ℕ × β) := []

namespace Fleet

variable {n : ℕ} {β : Type*}

inductive Act (n : ℕ) where
  /-- The next command is put on `applyCh` and received. -/
  | command (i : Fin n)
  /-- The snapshot `k` is put on `applyCh` and received. -/
  | snapshot (i : Fin n) (k : ℕ)
  /-- The snapshot `k` is written to the persister by `InstallSnapshot`. -/
  | install (i : Fin n) (k : ℕ)
  /-- A step of the server that neither receives nor ends a round of `apply`. -/
  | own (i : Fin n) (a : Server.Act)
  /-- The end of a round of `apply`; `accepted` says whether `rf.Snapshot` takes
  the snapshot, if there is one. -/
  | finish (i : Fin n) (full accepted : Bool)
  | restart (i : Fin n)

/-- The steps of a server that `own` stands for. -/
def isOwn : Server.Act → Bool
  | .recv _ | .finish _ => false
  | .arrive _ | .check _ | .start _ _ | .register _ | .timeout _ | .read _ | .clean _
  | .applyMsg | .lookup | .send | .kill => true

def setNode (f : Fleet n β) (i : Fin n) (nd : Node β) : Fleet n β :=
  { f with nodes := Function.update f.nodes i nd }

section

variable (encode : SnapshotStatus → β) (decode : β → Option SnapshotStatus) (ops : List Op)

/-- The next message of server `i` is the command after the last index. -/
def command (f : Fleet n β) (i : Fin n) : Option (Fleet n β) :=
  let nd := f.nodes i
  (ops[nd.delivered]?).bind fun op =>
    (nd.kv.recv (.command op (nd.delivered + 1))).map fun kv =>
      f.setNode i { nd with kv := kv, delivered := nd.delivered + 1 }

/-- The next message of server `i` is a snapshot of a later index. -/
def snapshot (f : Fleet n β) (i : Fin n) (k : ℕ) : Option (Fleet n β) :=
  let nd := f.nodes i
  (f.encoded[k]?).bind fun s =>
    if nd.delivered < s.1 then
      (nd.kv.recv (.snapshot (decode s.2) s.1)).map fun kv =>
        f.setNode i { nd with kv := kv, delivered := s.1 }
    else none

def install (f : Fleet n β) (i : Fin n) (k : ℕ) : Option (Fleet n β) :=
  (f.encoded[k]?).map fun s => f.setNode i { f.nodes i with persisted := some s }

def own (f : Fleet n β) (i : Fin n) (a : Server.Act) : Option (Fleet n β) :=
  if isOwn a then
    ((f.nodes i).kv.step a).map fun kv => f.setNode i { f.nodes i with kv := kv }
  else none

def finish (f : Fleet n β) (i : Fin n) (full accepted : Bool) : Option (Fleet n β) :=
  let nd := f.nodes i
  (nd.kv.finish full).map fun kv =>
    if full then
      let s := (kv.lastApplied, encode kv.toSnapshotStatus)
      setNode { f with encoded := f.encoded ++ [s] } i
        { nd with kv := kv, persisted := if accepted then some s else nd.persisted }
    else f.setNode i { nd with kv := kv }

/-- `StartKVServer` on the persister: the tables are those of the snapshot,
`lastApplied` is not restored, and Raft goes on after the index of the
snapshot. -/
def restart (f : Fleet n β) (i : Fin n) : Fleet n β :=
  let nd := f.nodes i
  f.setNode i
    { nd with
      kv := Server.startKVServer (nd.persisted.bind fun s => decode s.2)
      delivered := (nd.persisted.map Prod.fst).getD 0 }

def step (f : Fleet n β) : Act n → Option (Fleet n β)
  | .command i => f.command ops i
  | .snapshot i k => f.snapshot decode i k
  | .install i k => f.install i k
  | .own i a => f.own i a
  | .finish i full accepted => f.finish encode i full accepted
  | .restart i => some (f.restart decode i)

end

end Fleet

/-- The last message that the server received has been brought to the tables. -/
def Server.handled (kv : Server) : Bool :=
  match kv.applyPc with
  | .idle | .looking _ _ | .sending _ _ _ | .finishing _ => true
  | .locked _ | .stopped => false

/-! ## What holds of every server -/

section

variable {n : ℕ} {β : Type*} {ops : List Op} {decode : β → Option SnapshotStatus}

open SnapshotStatus

/-- What the loop `apply` has in hand leads to the tables of the first
`delivered` commands. After a restart `lastApplied` may be far below
`delivered`, but never above it, so that no command is skipped. -/
def Server.Replays (ops : List Op) (delivered : ℕ) (kv : Server) : Prop :=
  match kv.applyPc with
  | .idle =>
    kv.lastApplied ≤ delivered ∧ kv.toSnapshotStatus = applyOps (ops.take delivered)
  | .locked (.command op index) =>
    index = delivered ∧ kv.lastApplied < delivered ∧
      kv.toSnapshotStatus.applyOp op = applyOps (ops.take delivered)
  | .locked (.snapshot status index) =>
    index = delivered ∧ status = some (applyOps (ops.take delivered))
  | .looking _ index | .sending _ index _ | .finishing index =>
    index = delivered ∧ kv.toSnapshotStatus = applyOps (ops.take delivered)
  | .stopped => True

namespace Server.Replays

variable {delivered : ℕ} {kv kv' : Server}

theorem of_eq (h : kv.Replays ops delivered)
    (htables : kv'.toSnapshotStatus = kv.toSnapshotStatus)
    (hlast : kv'.lastApplied = kv.lastApplied) (hpc : kv'.applyPc = kv.applyPc) :
    kv'.Replays ops delivered := by
  unfold Replays at h ⊢
  rw [htables, hlast, hpc]
  exact h

theorem idle (h : kv.Replays ops delivered) (hpc : kv.applyPc = .idle) :
    kv.lastApplied ≤ delivered ∧ kv.toSnapshotStatus = applyOps (ops.take delivered) := by
  unfold Replays at h
  rw [hpc] at h
  exact h

theorem finishing (h : kv.Replays ops delivered) {index : ℕ}
    (hpc : kv.applyPc = .finishing index) :
    index = delivered ∧ kv.toSnapshotStatus = applyOps (ops.take delivered) := by
  unfold Replays at h
  rw [hpc] at h
  exact h

theorem tables (h : kv.Replays ops delivered) (hkv : kv.handled = true) :
    kv.toSnapshotStatus = applyOps (ops.take delivered) := by
  unfold Replays at h
  unfold Server.handled at hkv
  cases hpc : kv.applyPc with
  | idle => rw [hpc] at h; exact h.2
  | looking op index => rw [hpc] at h; exact h.2
  | sending op index hd => rw [hpc] at h; exact h.2
  | finishing index => rw [hpc] at h; exact h.2
  | locked msg => rw [hpc] at hkv; cases hkv
  | stopped => rw [hpc] at hkv; cases hkv

theorem command (h : kv.Replays ops delivered) {op : Op} (hop : ops[delivered]? = some op)
    (hs : kv.recv (.command op (delivered + 1)) = some kv') :
    kv'.Replays ops (delivered + 1) := by
  obtain ⟨hpc, rfl | rfl⟩ := recv_cases hs
  · trivial
  · obtain ⟨hlast, htables⟩ := h.idle hpc
    refine ⟨rfl, Nat.lt_succ_of_le hlast, ?_⟩
    rw [applyOps_take_succ hop, htables]

theorem snapshot {status : Option SnapshotStatus} {index : ℕ}
    (hstatus : status = some (applyOps (ops.take index)))
    (hs : kv.recv (.snapshot status index) = some kv') : kv'.Replays ops index := by
  obtain ⟨-, rfl | rfl⟩ := recv_cases hs
  · trivial
  · exact ⟨rfl, hstatus⟩

theorem applyMsg (h : kv.Replays ops delivered) (hs : kv.applyMsg = some kv') :
    kv'.Replays ops delivered := by
  obtain ⟨msg, hpc, hcases⟩ := applyMsg_cases hs
  unfold Replays at h
  rw [hpc] at h
  rcases hcases with ⟨op, index, rfl, hle, rfl⟩ | ⟨op, index, rfl, hlt, rfl⟩ |
    ⟨index, rfl, rfl⟩ | ⟨status, index, rfl, rfl⟩
  · -- the guard against old commands does not fire
    exact absurd h.2.1 (h.1 ▸ Nat.not_lt.mpr hle)
  · exact ⟨h.1, h.2.2⟩
  · trivial
  · exact ⟨h.1.le, Option.some.inj h.2⟩

theorem lookup (h : kv.Replays ops delivered) (hs : kv.lookup = some kv') :
    kv'.Replays ops delivered := by
  obtain ⟨op, index, hpc, hcases⟩ := lookup_cases hs
  unfold Replays at h
  rw [hpc] at h
  rcases hcases with ⟨hd, -, rfl⟩ | ⟨-, rfl⟩
  · exact h
  · exact h

theorem send (h : kv.Replays ops delivered) (hs : kv.send = some kv') :
    kv'.Replays ops delivered := by
  obtain ⟨op, index, j, hd, i, hpc, -, -, rfl⟩ := send_cases hs
  unfold Replays at h
  rw [hpc] at h
  exact h

theorem finish (h : kv.Replays ops delivered) {full : Bool} (hs : kv.finish full = some kv') :
    kv'.Replays ops delivered ∧ kv'.lastApplied = delivered ∧
      kv'.toSnapshotStatus = applyOps (ops.take delivered) := by
  obtain ⟨index, hpc, rfl⟩ := finish_cases hs
  obtain ⟨rfl, htables⟩ := h.finishing hpc
  exact ⟨⟨le_rfl, htables⟩, rfl, htables⟩

theorem own (h : kv.Replays ops delivered) {a : Act} (ha : Fleet.isOwn a = true)
    (hs : kv.step a = some kv') : kv'.Replays ops delivered := by
  cases happly : a.isApply with
  | false =>
      obtain ⟨htables, hlast, hpc⟩ := step_frame happly hs
      exact h.of_eq htables hlast hpc
  | true =>
      cases a with
      | applyMsg => exact h.applyMsg hs
      | lookup => exact h.lookup hs
      | send => exact h.send hs
      | recv msg => cases ha
      | finish full => cases ha
      | _ => cases happly

end Server.Replays

/-- The snapshot decodes to the tables at its index. -/
def Faithful (decode : β → Option SnapshotStatus) (ops : List Op) (s : ℕ × β) : Prop :=
  decode s.2 = some (applyOps (ops.take s.1))

/-- A server and its persister both hold the tables of the log. -/
structure Node.Replays (decode : β → Option SnapshotStatus) (ops : List Op) (nd : Node β) :
    Prop where
  kv : nd.kv.Replays ops nd.delivered
  persisted : ∀ s ∈ nd.persisted, Faithful decode ops s

/-- A restart brings the tables of the persisted snapshot, or empty ones. -/
theorem Node.Replays.startKVServer {nd : Node β} (h : nd.Replays decode ops) :
    (Server.startKVServer (nd.persisted.bind fun s => decode s.2)).Replays ops
      ((nd.persisted.map Prod.fst).getD 0) := by
  cases hp : nd.persisted with
  | none => exact ⟨Nat.zero_le _, rfl⟩
  | some s =>
      have hs : decode s.2 = some (applyOps (ops.take s.1)) := h.persisted s (by rw [hp]; rfl)
      rw [Option.bind_some, hs]
      exact ⟨Nat.zero_le _, rfl⟩

structure Fleet.Replays (decode : β → Option SnapshotStatus) (ops : List Op) (f : Fleet n β) :
    Prop where
  nodes : ∀ i, (f.nodes i).Replays decode ops
  encoded : ∀ s ∈ f.encoded, Faithful decode ops s

namespace Fleet.Replays

variable {encode : SnapshotStatus → β} {f f' : Fleet n β} {i : Fin n}

theorem init : ({} : Fleet n β).Replays decode ops where
  nodes _ := ⟨⟨le_rfl, rfl⟩, by simp⟩
  encoded := by simp

theorem setNode (h : f.Replays decode ops) {nd : Node β} (hnd : nd.Replays decode ops) :
    (f.setNode i nd).Replays decode ops where
  nodes := (Function.forall_update_iff f.nodes fun _ nd => nd.Replays decode ops).mpr
    ⟨hnd, fun j _ => h.nodes j⟩
  encoded := h.encoded

theorem command (h : f.Replays decode ops) (hs : f.command ops i = some f') :
    f'.Replays decode ops := by
  obtain ⟨op, hop, hs⟩ := Option.bind_eq_some_iff.mp hs
  obtain ⟨kv, hkv, rfl⟩ := Option.map_eq_some_iff.mp hs
  exact h.setNode ⟨(h.nodes i).kv.command hop hkv, (h.nodes i).persisted⟩

theorem snapshot (h : f.Replays decode ops) {k : ℕ} (hs : f.snapshot decode i k = some f') :
    f'.Replays decode ops := by
  obtain ⟨s, hk, hs⟩ := Option.bind_eq_some_iff.mp hs
  split at hs
  · obtain ⟨kv, hkv, rfl⟩ := Option.map_eq_some_iff.mp hs
    have hfaithful := h.encoded s (List.mem_of_getElem? hk)
    exact h.setNode ⟨Server.Replays.snapshot hfaithful hkv, (h.nodes i).persisted⟩
  · cases hs

theorem install (h : f.Replays decode ops) {k : ℕ} (hs : f.install i k = some f') :
    f'.Replays decode ops := by
  obtain ⟨s, hk, rfl⟩ := Option.map_eq_some_iff.mp hs
  refine h.setNode ⟨(h.nodes i).kv, ?_⟩
  rintro _ ⟨⟩
  exact h.encoded s (List.mem_of_getElem? hk)

theorem own (h : f.Replays decode ops) {a : Server.Act} (hs : f.own i a = some f') :
    f'.Replays decode ops := by
  unfold Fleet.own at hs
  split at hs
  · rename_i ha
    obtain ⟨kv, hkv, rfl⟩ := Option.map_eq_some_iff.mp hs
    exact h.setNode ⟨(h.nodes i).kv.own ha hkv, (h.nodes i).persisted⟩
  · cases hs

theorem finish (hgob : ∀ st, decode (encode st) = some st) (h : f.Replays decode ops)
    {full accepted : Bool} (hs : f.finish encode i full accepted = some f') :
    f'.Replays decode ops := by
  obtain ⟨kv, hkv, rfl⟩ := Option.map_eq_some_iff.mp hs
  obtain ⟨hreplays, hlast, htables⟩ := (h.nodes i).kv.finish hkv
  have hfaithful : Faithful decode ops (kv.lastApplied, encode kv.toSnapshotStatus) := by
    change decode (encode kv.toSnapshotStatus) = _
    rw [hgob, htables, hlast]
  cases full with
  | false => exact h.setNode ⟨hreplays, (h.nodes i).persisted⟩
  | true =>
      have hf : Replays decode ops
          { f with encoded := f.encoded ++ [(kv.lastApplied, encode kv.toSnapshotStatus)] } := by
        refine ⟨h.nodes, fun s hs => ?_⟩
        rcases List.mem_append.mp hs with hs | hs
        · exact h.encoded s hs
        · obtain rfl := List.mem_singleton.mp hs
          exact hfaithful
      apply hf.setNode
      cases accepted with
      | false => exact ⟨hreplays, (h.nodes i).persisted⟩
      | true =>
          refine ⟨hreplays, ?_⟩
          rintro _ ⟨⟩
          exact hfaithful

theorem restart (h : f.Replays decode ops) : (f.restart decode i).Replays decode ops :=
  h.setNode ⟨(h.nodes i).startKVServer, (h.nodes i).persisted⟩

theorem step (hgob : ∀ st, decode (encode st) = some st) (h : f.Replays decode ops)
    {a : Act n} (hs : f.step encode decode ops a = some f') : f'.Replays decode ops := by
  cases a with
  | command i => exact h.command hs
  | snapshot i k => exact h.snapshot hs
  | install i k => exact h.install hs
  | own i a => exact h.own hs
  | finish i full accepted => exact h.finish hgob hs
  | restart i =>
      obtain rfl := Option.some.inj hs
      exact h.restart

theorem exec (hgob : ∀ st, decode (encode st) = some st) {acts : List (Act n)}
    (h : exec (Fleet.step encode decode ops) {} acts = some f) : f.Replays decode ops :=
  exec_preserves (fun _ _ _ hf hs => hf.step hgob hs) init h

end Fleet.Replays

/-- Whatever mixture of commands, snapshots and restarts brought a server to
index `n`, it holds the tables that the first `n` commands give from empty maps,
and so do all servers that have come that far. -/
theorem Fleet.tables_eq_applyOps {encode : SnapshotStatus → β}
    (hgob : ∀ st, decode (encode st) = some st) {acts : List (Act n)} {f : Fleet n β}
    (h : exec (Fleet.step encode decode ops) {} acts = some f) :
    (∀ i, (f.nodes i).kv.handled = true →
        (f.nodes i).kv.toSnapshotStatus = applyOps (ops.take (f.nodes i).delivered)) ∧
      ∀ i j, (f.nodes i).kv.handled = true → (f.nodes j).kv.handled = true →
        (f.nodes i).delivered = (f.nodes j).delivered →
        (f.nodes i).kv.data = (f.nodes j).kv.data ∧
          (f.nodes i).kv.duptable = (f.nodes j).kv.duptable := by
  have hinv := Fleet.Replays.exec hgob h
  refine ⟨fun i hi => (hinv.nodes i).kv.tables hi, fun i j hi hj hij => ?_⟩
  have heq : (f.nodes i).kv.toSnapshotStatus = (f.nodes j).kv.toSnapshotStatus := by
    rw [(hinv.nodes i).kv.tables hi, (hinv.nodes j).kv.tables hj, hij]
  rw [heq]
  exact ⟨rfl, rfl⟩

end

namespace Fleet

/-- The first of two servers. -/
def first : Fin 2 := ⟨0, Nat.zero_lt_two⟩

/-- The second of two servers. -/
def second : Fin 2 := ⟨1, Nat.one_lt_two⟩

/-- Server `i` receives the next command and handles it. -/
def round (i : Fin 2) (full : Bool) : List (Act 2) :=
  [.command i, .own i .applyMsg, .own i .lookup, .finish i full true]

def twoAppends : List Op :=
  [{ type := .append, key := "k", value := "a", clientId := 0, sequenceId := 0 },
    { type := .append, key := "k", value := "b", clientId := 0, sequenceId := 1 }]

/-- The first server takes a snapshot after the first command and restarts from
it, the second one receives that snapshot; both then handle the second command. -/
def snapshotAndRestart : List (Act 2) :=
  round first true ++ [.restart first] ++ round first false ++
    [.snapshot second 0, .own second .applyMsg] ++ round second false

theorem tables_eq_applyOps_snapshotAndRestart :
    ∃ f, exec (step id some twoAppends) {} snapshotAndRestart = some f ∧
      (f.nodes first).kv.data "k" = some "ab" ∧
      (f.nodes first).kv.data = (f.nodes second).kv.data ∧
        (f.nodes first).kv.duptable = (f.nodes second).kv.duptable := by
  refine ⟨_, rfl, by decide, ?_⟩
  exact (tables_eq_applyOps (fun _ => rfl)
    (show exec (step id some twoAppends) {} snapshotAndRestart = some _ from rfl)).2
    first second rfl rfl rfl

end Fleet

end KvRaft

end DistributedLabs
