import Mathlib.Logic.Function.Basic
import Mathlib.Data.List.Basic

/-!
# The replicated key/value server

`Server` is a `KVServer` with its goroutines: the handlers of `Get` and
`PutAppend`, and the loop `apply`. A handler or the loop moves in the steps
between which others can run: a critical section of `kv.mu` is one step of a
handler, while `apply` holds `kv.mu` over several steps, since it sends on the
unbuffered channel of a handler with the lock held.

Channels are named after the handler that makes them, and a handler after its
place in the list of all handlers so far. `none` means that the step cannot be
taken in this state.
-/

namespace DistributedLabs

namespace KvRaft

inductive OpType where
  | get
  | put
  | append
deriving DecidableEq, Repr

/-- A request of a client, as it is handed to Raft. `Get` leaves the value
empty. -/
structure Op where
  type : OpType
  key : String
  value : String
  clientId : ℕ
  sequenceId : ℕ
deriving DecidableEq, Repr

inductive Err where
  | ok
  | errNoKey
  | errWrongLeader
deriving DecidableEq, Repr

/-- What a handler is woken with. -/
structure ReqIdentification where
  clientId : ℕ
  sequenceId : ℕ
  err : Err
deriving DecidableEq, Repr

/-- `GetReply` and `PutAppendReply`; the latter has no value. -/
structure Reply where
  leader : Bool
  err : Err
  value : String := ""
deriving DecidableEq, Repr

/-- The answer that sends a client to the next server. -/
def wrongLeader : Reply := { leader := false, err := .errWrongLeader }

/-- The tables of a server, which are also what a snapshot holds. -/
structure SnapshotStatus where
  data : String → Option String := fun _ => none
  duptable : ℕ → Option ℕ := fun _ => none

/-- How `apply` brings a command to the tables. -/
def SnapshotStatus.applyOp (st : SnapshotStatus) (op : Op) : SnapshotStatus :=
  if ∀ pre ∈ st.duptable op.clientId, pre < op.sequenceId then
    { duptable := Function.update st.duptable op.clientId (some op.sequenceId)
      data :=
        match op.type with
        | .put => Function.update st.data op.key (some op.value)
        | .append =>
          match st.data op.key with
          | some old => Function.update st.data op.key (some (old ++ op.value))
          | none => Function.update st.data op.key (some op.value)
        | .get => st.data }
  else st

/-- A message on `applyCh`. A snapshot that cannot be decoded is `none`. -/
inductive ApplyMsg where
  | command (op : Op) (commandIndex : ℕ)
  | snapshot (status : Option SnapshotStatus) (snapshotIndex : ℕ)

/-- Where a handler is. -/
inductive HandlerPc where
  /-- `PutAppend` before it looks into `duptable`. -/
  | checking
  /-- Before the call of `Start`. -/
  | starting
  /-- `Start` returned `index`, and the channel is about to be registered. -/
  | registering (index : ℕ)
  /-- In the `select`. -/
  | selecting (index : ℕ)
  /-- `Get` was woken by its own request and is about to read. -/
  | reading (index : ℕ)
  /-- The reply is set and the deferred `clean` is about to run. -/
  | cleaning (index : ℕ) (reply : Reply)
  | done (reply : Reply)
deriving DecidableEq, Repr

/-- A handler with the request it serves. -/
structure Handler where
  op : Op
  pc : HandlerPc
deriving DecidableEq, Repr

/-- Where the loop `apply` is. -/
inductive ApplyPc where
  /-- Waiting on `applyCh`. -/
  | idle
  /-- Holding `kv.mu`, with a message to be handled. -/
  | locked (msg : ApplyMsg)
  /-- The tables are up to date and the look-up in `wakeClient` is next. -/
  | looking (op : Op) (index : ℕ)
  /-- Sending on the channel of handler `h`. -/
  | sending (op : Op) (index h : ℕ)
  /-- Before `lastApplied` is updated and `kv.mu` released. -/
  | finishing (index : ℕ)
  /-- The loop has returned. -/
  | stopped

/-- A `KVServer` with its goroutines. `saved` is the last snapshot handed to
`rf.Snapshot`. -/
structure Server extends SnapshotStatus where
  lastApplied : ℕ := 0
  wakeClient : ℕ → Option ℕ := fun _ => none
  dead : Bool := false
  handlers : List Handler := []
  applyPc : ApplyPc := .idle
  saved : Option (ℕ × SnapshotStatus) := none

namespace Server

/-- `StartKVServer` on a persister with or without a snapshot. -/
def startKVServer (snapshot : Option SnapshotStatus) : Server :=
  { toSnapshotStatus := snapshot.getD {} }

/-- `kv.mu` is free: only `apply` holds it over several steps. -/
def free (kv : Server) : Bool :=
  match kv.applyPc with
  | .idle | .stopped => true
  | .locked _ | .looking _ _ | .sending _ _ _ | .finishing _ => false

/-- The handler `h` is in its `select`. -/
def selects (kv : Server) (h : ℕ) : Bool :=
  match kv.handlers[h]? with
  | some { op := _, pc := .selecting _ } => true
  | _ => false

/-- Move the handler `h`, which is `hd`, to `pc`. -/
def setPc (kv : Server) (h : ℕ) (hd : Handler) (pc : HandlerPc) : Server :=
  { kv with handlers := kv.handlers.set h { hd with pc := pc } }

/-! ## Handlers -/

/-- A request arrives: `Get` begins with `Start`, `PutAppend` with the look into
`duptable`. -/
def arrive (kv : Server) (op : Op) : Server :=
  { kv with
    handlers := kv.handlers ++
      [{ op := op, pc := if op.type = .get then .starting else .checking }] }

/-- `PutAppend` answers at once if the request was applied already. -/
def check (kv : Server) (h : ℕ) : Option Server :=
  (kv.handlers[h]?).bind fun hd =>
    match hd.pc with
    | .checking =>
      if kv.free then
        match kv.duptable hd.op.clientId with
        | some seq =>
          if hd.op.sequenceId ≤ seq then
            some (kv.setPc h hd (.done { leader := true, err := .ok }))
          else some (kv.setPc h hd .starting)
        | none => some (kv.setPc h hd .starting)
      else none
    | _ => none

/-- The call of `Start`; the index is what Raft returns to a leader. -/
def start (kv : Server) (h : ℕ) (index : Option ℕ) : Option Server :=
  (kv.handlers[h]?).bind fun hd =>
    match hd.pc with
    | .starting =>
      match index with
      | none => some (kv.setPc h hd (.done wrongLeader))
      | some index => some (kv.setPc h hd (.registering index))
    | _ => none

/-- A new channel is registered in `wakeClient`. -/
def register (kv : Server) (h : ℕ) : Option Server :=
  (kv.handlers[h]?).bind fun hd =>
    match hd.pc with
    | .registering index =>
      if kv.free then
        some (setPc { kv with wakeClient := Function.update kv.wakeClient index (some h) } h hd
          (.selecting index))
      else none
    | _ => none

/-- `time.After` fires in the `select`. -/
def timeout (kv : Server) (h : ℕ) : Option Server :=
  (kv.handlers[h]?).bind fun hd =>
    match hd.pc with
    | .selecting index => some (kv.setPc h hd (.cleaning index wrongLeader))
    | _ => none

/-- What a handler does with what it receives on its channel. -/
def wake (hd : Handler) (index : ℕ) (r : ReqIdentification) : HandlerPc :=
  if r.clientId = hd.op.clientId ∧ r.sequenceId = hd.op.sequenceId then
    if hd.op.type = .get then .reading index
    else .cleaning index { leader := true, err := .ok }
  else .cleaning index wrongLeader

/-- What `Get` replies once it has been woken. -/
def getReply (st : SnapshotStatus) (key : String) : Reply :=
  match st.data key with
  | some val => { leader := true, err := .ok, value := val }
  | none => { leader := true, err := .errNoKey, value := "" }

/-- `Get` reads `kv.data` in a critical section of its own. -/
def read (kv : Server) (h : ℕ) : Option Server :=
  (kv.handlers[h]?).bind fun hd =>
    match hd.pc with
    | .reading index =>
      if kv.free then
        some (kv.setPc h hd (.cleaning index (getReply kv.toSnapshotStatus hd.op.key)))
      else none
    | _ => none

/-- The deferred `clean`. -/
def clean (kv : Server) (h : ℕ) : Option Server :=
  (kv.handlers[h]?).bind fun hd =>
    match hd.pc with
    | .cleaning index reply =>
      if kv.free then
        some (setPc { kv with wakeClient := Function.update kv.wakeClient index none } h hd
          (.done reply))
      else none
    | _ => none

/-! ## The loop `apply` -/

/-- `apply` receives a message and takes `kv.mu`, unless the server is killed. -/
def recv (kv : Server) (msg : ApplyMsg) : Option Server :=
  match kv.applyPc with
  | .idle => some { kv with applyPc := if kv.dead then .stopped else .locked msg }
  | _ => none

/-- `apply` brings the message to the tables. -/
def applyMsg (kv : Server) : Option Server :=
  match kv.applyPc with
  | .locked (.command op index) =>
    if index ≤ kv.lastApplied then some { kv with applyPc := .idle }
    else some { kv with
      toSnapshotStatus := kv.toSnapshotStatus.applyOp op
      applyPc := .looking op index }
  | .locked (.snapshot none _) => some { kv with applyPc := .stopped }
  | .locked (.snapshot (some status) index) =>
    some { kv with toSnapshotStatus := status, lastApplied := index, applyPc := .idle }
  | _ => none

/-- `apply` looks for a channel to send on. -/
def lookup (kv : Server) : Option Server :=
  match kv.applyPc with
  | .looking op index =>
    match kv.wakeClient index with
    | some h => some { kv with applyPc := .sending op index h }
    | none => some { kv with applyPc := .finishing index }
  | _ => none

/-- The send on the channel of handler `h`, which has to be in its `select`. -/
def send (kv : Server) : Option Server :=
  match kv.applyPc with
  | .sending op index h =>
    (kv.handlers[h]?).bind fun hd =>
      match hd.pc with
      | .selecting i =>
        some (setPc { kv with applyPc := .finishing index } h hd (wake hd i
          { clientId := op.clientId, sequenceId := op.sequenceId, err := .ok }))
      | _ => none
  | _ => none

/-- The end of a round of `apply`; `full` says whether the state of Raft is large
enough for `kv.snapshot` to take a snapshot. -/
def finish (kv : Server) (full : Bool) : Option Server :=
  match kv.applyPc with
  | .finishing index =>
    some { kv with
      lastApplied := index
      saved := if full then some (index, kv.toSnapshotStatus) else kv.saved
      applyPc := .idle }
  | _ => none

/-- The steps of a server. -/
inductive Act where
  | arrive (op : Op)
  | check (h : ℕ)
  | start (h : ℕ) (index : Option ℕ)
  | register (h : ℕ)
  | timeout (h : ℕ)
  | read (h : ℕ)
  | clean (h : ℕ)
  | recv (msg : ApplyMsg)
  | applyMsg
  | lookup
  | send
  | finish (full : Bool)
  | kill

def step (kv : Server) : Act → Option Server
  | .arrive op => some (kv.arrive op)
  | .check h => kv.check h
  | .start h index => kv.start h index
  | .register h => kv.register h
  | .timeout h => kv.timeout h
  | .read h => kv.read h
  | .clean h => kv.clean h
  | .recv msg => kv.recv msg
  | .applyMsg => kv.applyMsg
  | .lookup => kv.lookup
  | .send => kv.send
  | .finish full => kv.finish full
  | .kill => some { kv with dead := true }

/-! ## What each step does -/

section

variable {kv kv' : Server} {h : ℕ}

theorem setPc_self {hd : Handler} (hhd : kv.handlers[h]? = some hd) (pc : HandlerPc) :
    (kv.setPc h hd pc).handlers[h]? = some { hd with pc := pc } :=
  List.getElem?_set_self (List.getElem?_eq_some_iff.mp hhd).1

theorem setPc_of_ne {j : ℕ} (hj : h ≠ j) (hd : Handler) (pc : HandlerPc) :
    (kv.setPc h hd pc).handlers[j]? = kv.handlers[j]? :=
  List.getElem?_set_ne hj

theorem check_cases (hs : kv.check h = some kv') :
    ∃ hd, kv.handlers[h]? = some hd ∧ hd.pc = .checking ∧ kv.free = true ∧
      ((∃ seq, kv.duptable hd.op.clientId = some seq ∧ hd.op.sequenceId ≤ seq ∧
          kv' = kv.setPc h hd (.done { leader := true, err := .ok })) ∨
        kv' = kv.setPc h hd .starting) := by
  obtain ⟨hd, hhd, hs⟩ := Option.bind_eq_some_iff.mp hs
  split at hs
  · rename_i hpc
    split at hs
    · rename_i hfree
      refine ⟨hd, hhd, hpc, hfree, ?_⟩
      split at hs
      · rename_i seq hseq
        split at hs
        · rename_i hle
          exact Or.inl ⟨seq, hseq, hle, (Option.some.inj hs).symm⟩
        · exact Or.inr (Option.some.inj hs).symm
      · exact Or.inr (Option.some.inj hs).symm
    · cases hs
  · cases hs

theorem start_cases {index : Option ℕ} (hs : kv.start h index = some kv') :
    ∃ hd, kv.handlers[h]? = some hd ∧ hd.pc = .starting ∧
      ((index = none ∧ kv' = kv.setPc h hd (.done wrongLeader)) ∨
        ∃ i, index = some i ∧ kv' = kv.setPc h hd (.registering i)) := by
  obtain ⟨hd, hhd, hs⟩ := Option.bind_eq_some_iff.mp hs
  split at hs
  · rename_i hpc
    refine ⟨hd, hhd, hpc, ?_⟩
    split at hs
    · exact Or.inl ⟨rfl, (Option.some.inj hs).symm⟩
    · exact Or.inr ⟨_, rfl, (Option.some.inj hs).symm⟩
  · cases hs

theorem register_cases (hs : kv.register h = some kv') :
    ∃ hd index, kv.handlers[h]? = some hd ∧ hd.pc = .registering index ∧ kv.free = true ∧
      kv' = setPc { kv with wakeClient := Function.update kv.wakeClient index (some h) } h hd
        (.selecting index) := by
  obtain ⟨hd, hhd, hs⟩ := Option.bind_eq_some_iff.mp hs
  split at hs
  · rename_i index hpc
    split at hs
    · rename_i hfree
      exact ⟨hd, index, hhd, hpc, hfree, (Option.some.inj hs).symm⟩
    · cases hs
  · cases hs

theorem timeout_cases (hs : kv.timeout h = some kv') :
    ∃ hd index, kv.handlers[h]? = some hd ∧ hd.pc = .selecting index ∧
      kv' = kv.setPc h hd (.cleaning index wrongLeader) := by
  obtain ⟨hd, hhd, hs⟩ := Option.bind_eq_some_iff.mp hs
  split at hs
  · rename_i index hpc
    exact ⟨hd, index, hhd, hpc, (Option.some.inj hs).symm⟩
  · cases hs

theorem read_cases (hs : kv.read h = some kv') :
    ∃ hd index, kv.handlers[h]? = some hd ∧ hd.pc = .reading index ∧ kv.free = true ∧
      kv' = kv.setPc h hd (.cleaning index (getReply kv.toSnapshotStatus hd.op.key)) := by
  obtain ⟨hd, hhd, hs⟩ := Option.bind_eq_some_iff.mp hs
  split at hs
  · rename_i index hpc
    split at hs
    · rename_i hfree
      exact ⟨hd, index, hhd, hpc, hfree, (Option.some.inj hs).symm⟩
    · cases hs
  · cases hs

theorem clean_cases (hs : kv.clean h = some kv') :
    ∃ hd index reply, kv.handlers[h]? = some hd ∧ hd.pc = .cleaning index reply ∧
      kv.free = true ∧
      kv' = setPc { kv with wakeClient := Function.update kv.wakeClient index none } h hd
        (.done reply) := by
  obtain ⟨hd, hhd, hs⟩ := Option.bind_eq_some_iff.mp hs
  split at hs
  · rename_i index reply hpc
    split at hs
    · rename_i hfree
      exact ⟨hd, index, reply, hhd, hpc, hfree, (Option.some.inj hs).symm⟩
    · cases hs
  · cases hs

theorem recv_cases {msg : ApplyMsg} (hs : kv.recv msg = some kv') :
    kv.applyPc = .idle ∧
      (kv' = { kv with applyPc := .stopped } ∨ kv' = { kv with applyPc := .locked msg }) := by
  unfold recv at hs
  split at hs
  · rename_i hpc
    refine ⟨hpc, ?_⟩
    obtain rfl := Option.some.inj hs
    cases kv.dead with
    | true => exact Or.inl rfl
    | false => exact Or.inr rfl
  · cases hs

theorem applyMsg_cases (hs : kv.applyMsg = some kv') :
    ∃ msg, kv.applyPc = .locked msg ∧
      ((∃ op index, msg = .command op index ∧ index ≤ kv.lastApplied ∧
          kv' = { kv with applyPc := .idle }) ∨
        (∃ op index, msg = .command op index ∧ kv.lastApplied < index ∧
          kv' = { kv with
            toSnapshotStatus := kv.toSnapshotStatus.applyOp op, applyPc := .looking op index }) ∨
        (∃ index, msg = .snapshot none index ∧ kv' = { kv with applyPc := .stopped }) ∨
        ∃ status index, msg = .snapshot (some status) index ∧
          kv' = { kv with
            toSnapshotStatus := status, lastApplied := index, applyPc := .idle }) := by
  unfold applyMsg at hs
  split at hs
  · rename_i op index hpc
    refine ⟨_, hpc, ?_⟩
    split at hs
    · rename_i hle
      exact Or.inl ⟨op, index, rfl, hle, (Option.some.inj hs).symm⟩
    · rename_i hle
      exact Or.inr (Or.inl ⟨op, index, rfl, Nat.not_le.mp hle, (Option.some.inj hs).symm⟩)
  · rename_i index hpc
    exact ⟨_, hpc, Or.inr (Or.inr (Or.inl ⟨index, rfl, (Option.some.inj hs).symm⟩))⟩
  · rename_i status index hpc
    exact ⟨_, hpc, Or.inr (Or.inr (Or.inr ⟨status, index, rfl, (Option.some.inj hs).symm⟩))⟩
  · cases hs

theorem lookup_cases (hs : kv.lookup = some kv') :
    ∃ op index, kv.applyPc = .looking op index ∧
      ((∃ h, kv.wakeClient index = some h ∧ kv' = { kv with applyPc := .sending op index h }) ∨
        (kv.wakeClient index = none ∧ kv' = { kv with applyPc := .finishing index })) := by
  unfold lookup at hs
  split at hs
  · rename_i op index hpc
    refine ⟨op, index, hpc, ?_⟩
    split at hs
    · rename_i h hh
      exact Or.inl ⟨h, hh, (Option.some.inj hs).symm⟩
    · rename_i hh
      exact Or.inr ⟨hh, (Option.some.inj hs).symm⟩
  · cases hs

theorem send_cases (hs : kv.send = some kv') :
    ∃ op index h hd i, kv.applyPc = .sending op index h ∧ kv.handlers[h]? = some hd ∧
      hd.pc = .selecting i ∧
      kv' = setPc { kv with applyPc := .finishing index } h hd (wake hd i
        { clientId := op.clientId, sequenceId := op.sequenceId, err := .ok }) := by
  unfold send at hs
  split at hs
  · rename_i op index h hpc
    obtain ⟨hd, hhd, hs⟩ := Option.bind_eq_some_iff.mp hs
    split at hs
    · rename_i i hi
      exact ⟨op, index, h, hd, i, hpc, hhd, hi, (Option.some.inj hs).symm⟩
    · cases hs
  · cases hs

theorem finish_cases {full : Bool} (hs : kv.finish full = some kv') :
    ∃ index, kv.applyPc = .finishing index ∧
      kv' = { kv with
        lastApplied := index
        saved := if full then some (index, kv.toSnapshotStatus) else kv.saved
        applyPc := .idle } := by
  unfold finish at hs
  split at hs
  · rename_i index hpc
    exact ⟨index, hpc, (Option.some.inj hs).symm⟩
  · cases hs

/-- The steps of the loop `apply`. -/
def Act.isApply : Act → Bool
  | .recv _ | .applyMsg | .lookup | .send | .finish _ => true
  | .arrive _ | .check _ | .start _ _ | .register _ | .timeout _ | .read _ | .clean _
  | .kill => false

/-- The other steps do not touch the tables, nor do they move `apply`. -/
theorem step_frame {a : Act} (ha : a.isApply = false) (hs : kv.step a = some kv') :
    kv'.toSnapshotStatus = kv.toSnapshotStatus ∧ kv'.lastApplied = kv.lastApplied ∧
      kv'.applyPc = kv.applyPc := by
  cases a with
  | arrive op =>
      obtain rfl := Option.some.inj hs
      exact ⟨rfl, rfl, rfl⟩
  | check j =>
      obtain ⟨hd, -, -, -, ⟨seq, -, -, rfl⟩ | rfl⟩ := check_cases hs
      · exact ⟨rfl, rfl, rfl⟩
      · exact ⟨rfl, rfl, rfl⟩
  | start j index =>
      obtain ⟨hd, -, -, ⟨-, rfl⟩ | ⟨i, -, rfl⟩⟩ := start_cases hs
      · exact ⟨rfl, rfl, rfl⟩
      · exact ⟨rfl, rfl, rfl⟩
  | register j =>
      obtain ⟨hd, index, -, -, -, rfl⟩ := register_cases hs
      exact ⟨rfl, rfl, rfl⟩
  | timeout j =>
      obtain ⟨hd, index, -, -, rfl⟩ := timeout_cases hs
      exact ⟨rfl, rfl, rfl⟩
  | read j =>
      obtain ⟨hd, index, -, -, -, rfl⟩ := read_cases hs
      exact ⟨rfl, rfl, rfl⟩
  | clean j =>
      obtain ⟨hd, index, reply, -, -, -, rfl⟩ := clean_cases hs
      exact ⟨rfl, rfl, rfl⟩
  | kill =>
      obtain rfl := Option.some.inj hs
      exact ⟨rfl, rfl, rfl⟩
  | recv msg => cases ha
  | applyMsg => cases ha
  | lookup => cases ha
  | send => cases ha
  | finish full => cases ha

end

end Server

end KvRaft

end DistributedLabs
