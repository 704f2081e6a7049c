import DistributedLabs.KvRaft.Server
import DistributedLabs.SharedLog.History

/-!
# Clerks and servers

`System` puts any number of servers and clerks together. Of Raft it knows the
contract only: there is one committed log, which grows; an operation that was
started may enter it once for each successful `Start`; and every server receives
the log's commands in order.

A request is recorded when a clerk sends it. It may be delivered at any later
time, or never, and the clerk may give it up at any time. The history records what
the callers of `Clerk.Get`, `Clerk.Put` and `Clerk.Append` see.
-/

namespace DistributedLabs

namespace KvRaft

open SharedLog

/-- A call of a method of `Clerk`. -/
inductive Input where
  | get (key : String)
  | put (key value : String)
  | append (key value : String)
deriving DecidableEq, Repr

/-- The request that a clerk makes of a call. -/
def Input.op (input : Input) (clientId sequenceId : ℕ) : Op :=
  match input with
  | .get key =>
    { type := .get, key := key, value := "", clientId := clientId, sequenceId := sequenceId }
  | .put key value =>
    { type := .put, key := key, value := value, clientId := clientId, sequenceId := sequenceId }
  | .append key value =>
    { type := .append, key := key, value := value, clientId := clientId,
      sequenceId := sequenceId }

/-- The map from keys to strings that the service stands for. -/
def kvSpec : SeqSpec (String → Option String) Input String where
  init := fun _ => none
  step m
    | .get key => (m, (m key).getD "")
    | .put key value => (Function.update m key (some value), "")
    | .append key value =>
      match m key with
      | some old => (Function.update m key (some (old ++ value)), "")
      | none => (Function.update m key (some value), "")

/-- A call that a clerk works on: the server it turns to, and the request it waits
for. -/
structure ClerkCall where
  input : Input
  op : Op
  server : ℕ
  rpc : Option ℕ := none
deriving DecidableEq, Repr

structure Clerk where
  leader : ℕ := 0
  clientId : ℕ
  sequenceId : ℕ := 0
  call : Option ClerkCall := none
deriving DecidableEq, Repr

/-- A request on its way, or the handler that serves it. -/
structure Request (n : ℕ) where
  op : Op
  server : Fin n
  handler : Option ℕ := none

/-- The state of the system. `received i` counts the commands that server `i` has
received, and `started` holds the operations of the successful calls of `Start`,
with a mark at those in the log. -/
structure System (n m : ℕ) where
  servers : Fin n → Server
  received : Fin n → ℕ
  clerks : Fin m → Clerk
  requests : List (Request n)
  started : List (Op × Bool)
  log : List Op
  history : List (Event (ℕ × ℕ) Input String)

namespace System

variable {n m : ℕ}

/-- Fresh servers, and clerks with the given ids. -/
def init (n : ℕ) (ids : Fin m → ℕ) : System n m :=
  { servers := fun _ => Server.startKVServer none
    received := fun _ => 0
    clerks := fun c => { clientId := ids c }
    requests := []
    started := []
    log := []
    history := [] }

/-- Replace a server. -/
def setServer (s : System n m) (i : Fin n) (kv : Server) : System n m :=
  { s with servers := Function.update s.servers i kv }

/-- Replace a clerk. -/
def setClerk (s : System n m) (c : Fin m) (ck : Clerk) : System n m :=
  { s with clerks := Function.update s.clerks c ck }

/-- A caller calls a method of a clerk that has no call to work on. -/
def invoke (s : System n m) (c : Fin m) (input : Input) : Option (System n m) :=
  let ck := s.clerks c
  match ck.call with
  | some _ => none
  | none =>
    some (setClerk
      { s with history := s.history ++ [.inv (ck.clientId, ck.sequenceId) input] } c
      { ck with
        sequenceId := ck.sequenceId + 1
        call := some
          { input := input, op := input.op ck.clientId ck.sequenceId, server := ck.leader } })

/-- The clerk sends its request; `none` if it has no such server. -/
def call (s : System n m) (c : Fin m) : Option (System n m) :=
  let ck := s.clerks c
  ck.call.bind fun cl =>
    match cl.rpc with
    | some _ => none
    | none =>
      if h : cl.server < n then
        some (setClerk
          { s with requests := s.requests ++ [{ op := cl.op, server := ⟨cl.server, h⟩ }] } c
          { ck with call := some { cl with rpc := some s.requests.length } })
      else none

/-- The clerk turns to the next server. -/
def nextServer (n : ℕ) (ck : Clerk) (cl : ClerkCall) : Clerk :=
  { ck with call := some { cl with server := (cl.server + 1) % n, rpc := none } }

/-- `Call` fails: the request or the reply is lost or late. -/
def fail (s : System n m) (c : Fin m) : Option (System n m) :=
  let ck := s.clerks c
  ck.call.bind fun cl => cl.rpc.map fun _ => s.setClerk c (nextServer n ck cl)

/-- What the caller gets. -/
def answer (input : Input) (reply : Reply) : String :=
  match input with
  | .get _ => reply.value
  | .put _ _ | .append _ _ => ""

/-- The reply of the handler arrives: the clerk returns, or it turns to the next
server. -/
def ret (s : System n m) (c : Fin m) : Option (System n m) :=
  let ck := s.clerks c
  ck.call.bind fun cl => cl.rpc.bind fun k => (s.requests[k]?).bind fun r =>
    r.handler.bind fun h => ((s.servers r.server).handlers[h]?).bind fun hd =>
      match hd.pc with
      | .done reply =>
        if reply.leader then
          some (setClerk
            { s with
              history := s.history ++
                [.ret (ck.clientId, cl.op.sequenceId) (answer cl.input reply)] } c
            { ck with leader := cl.server, call := none })
        else some (s.setClerk c (nextServer n ck cl))
      | _ => none

/-- A request reaches its server. -/
def deliver (s : System n m) (k : ℕ) : Option (System n m) :=
  (s.requests[k]?).bind fun r =>
    match r.handler with
    | some _ => none
    | none =>
      some (setServer
        { s with
          requests := s.requests.set k
            { r with handler := some (s.servers r.server).handlers.length } } r.server
        ((s.servers r.server).arrive r.op))

/-- A handler calls `Start`. -/
def start (s : System n m) (i : Fin n) (h : ℕ) (index : Option ℕ) : Option (System n m) :=
  ((s.servers i).handlers[h]?).bind fun hd =>
    ((s.servers i).start h index).map fun kv =>
      setServer
        { s with
          started := match index with
            | none => s.started
            | some _ => s.started ++ [(hd.op, false)] } i kv

/-- An operation that was started enters the log. -/
def commit (s : System n m) (k : ℕ) : Option (System n m) :=
  match s.started[k]? with
  | some (op, false) =>
    some { s with started := s.started.set k (op, true), log := s.log ++ [op] }
  | _ => none

/-- Server `i` receives the next command of the log. -/
def recv (s : System n m) (i : Fin n) : Option (System n m) :=
  (s.log[s.received i]?).bind fun op =>
    ((s.servers i).recv (.command op (s.received i + 1))).map fun kv =>
      setServer
        { s with received := Function.update s.received i (s.received i + 1) } i kv

/-- The steps that a server takes on its own. -/
def isOwn : Server.Act → Bool
  | .arrive _ | .start _ _ | .recv _ => false
  | .check _ | .register _ | .timeout _ | .read _ | .clean _ | .applyMsg | .lookup | .send
  | .finish _ | .kill => true

def own (s : System n m) (i : Fin n) (a : Server.Act) : Option (System n m) :=
  if isOwn a then ((s.servers i).step a).map (s.setServer i) else none

inductive Act (n m : ℕ) where
  | invoke (c : Fin m) (input : Input)
  | call (c : Fin m)
  | fail (c : Fin m)
  | ret (c : Fin m)
  | deliver (k : ℕ)
  | start (i : Fin n) (h : ℕ) (index : Option ℕ)
  | commit (k : ℕ)
  | recv (i : Fin n)
  | own (i : Fin n) (a : Server.Act)

def step (s : System n m) : Act n m → Option (System n m)
  | .invoke c input => s.invoke c input
  | .call c => s.call c
  | .fail c => s.fail c
  | .ret c => s.ret c
  | .deliver k => s.deliver k
  | .start i h index => s.start i h index
  | .commit k => s.commit k
  | .recv i => s.recv i
  | .own i a => s.own i a

/-! ## What each step does -/

section

variable {s s' : System n m} {c : Fin m}

@[simp] theorem setServer_self (s : System n m) (i : Fin n) (kv : Server) :
    (s.setServer i kv).servers i = kv :=
  Function.update_self _ _ _

theorem setServer_of_ne (s : System n m) {i j : Fin n} (hj : j ≠ i) (kv : Server) :
    (s.setServer i kv).servers j = s.servers j :=
  Function.update_of_ne hj _ _

@[simp] theorem setClerk_self (s : System n m) (c : Fin m) (ck : Clerk) :
    (s.setClerk c ck).clerks c = ck :=
  Function.update_self _ _ _

theorem setClerk_of_ne (s : System n m) {c c' : Fin m} (hc : c' ≠ c) (ck : Clerk) :
    (s.setClerk c ck).clerks c' = s.clerks c' :=
  Function.update_of_ne hc _ _

theorem invoke_cases {input : Input} (hs : s.invoke c input = some s') :
    (s.clerks c).call = none ∧
      s' = setClerk
        { s with
          history := s.history ++
            [.inv ((s.clerks c).clientId, (s.clerks c).sequenceId) input] } c
        { s.clerks c with
          sequenceId := (s.clerks c).sequenceId + 1
          call := some
            { input := input
              op := input.op (s.clerks c).clientId (s.clerks c).sequenceId
              server := (s.clerks c).leader } } := by
  unfold invoke at hs
  dsimp only at hs
  split at hs
  · cases hs
  · rename_i hcall
    exact ⟨hcall, (Option.some.inj hs).symm⟩

theorem call_cases (hs : s.call c = some s') :
    ∃ cl, ∃ h : cl.server < n, (s.clerks c).call = some cl ∧
      s' = setClerk
        { s with requests := s.requests ++ [{ op := cl.op, server := ⟨cl.server, h⟩ }] } c
        { s.clerks c with call := some { cl with rpc := some s.requests.length } } := by
  obtain ⟨cl, hcl, hs⟩ := Option.bind_eq_some_iff.mp hs
  split at hs
  · cases hs
  · split at hs
    · rename_i h
      exact ⟨cl, h, hcl, (Option.some.inj hs).symm⟩
    · cases hs

theorem fail_cases (hs : s.fail c = some s') :
    ∃ cl, (s.clerks c).call = some cl ∧
      s' = s.setClerk c (nextServer n (s.clerks c) cl) := by
  obtain ⟨cl, hcl, hs⟩ := Option.bind_eq_some_iff.mp hs
  obtain ⟨k, -, rfl⟩ := Option.map_eq_some_iff.mp hs
  exact ⟨cl, hcl, rfl⟩

theorem ret_cases (hs : s.ret c = some s') :
    ∃ cl k r h hd reply, (s.clerks c).call = some cl ∧ cl.rpc = some k ∧
      s.requests[k]? = some r ∧ r.handler = some h ∧
      (s.servers r.server).handlers[h]? = some hd ∧ hd.pc = .done reply ∧
      ((reply.leader = true ∧ s' = setClerk
          { s with
            history := s.history ++
              [.ret ((s.clerks c).clientId, cl.op.sequenceId) (answer cl.input reply)] } c
          { s.clerks c with leader := cl.server, call := none }) ∨
        s' = s.setClerk c (nextServer n (s.clerks c) cl)) := by
  obtain ⟨cl, hcl, hs⟩ := Option.bind_eq_some_iff.mp hs
  obtain ⟨k, hk, hs⟩ := Option.bind_eq_some_iff.mp hs
  obtain ⟨r, hr, hs⟩ := Option.bind_eq_some_iff.mp hs
  obtain ⟨h, hh, hs⟩ := Option.bind_eq_some_iff.mp hs
  obtain ⟨hd, hhd, hs⟩ := Option.bind_eq_some_iff.mp hs
  split at hs
  · rename_i reply hpc
    refine ⟨cl, k, r, h, hd, reply, hcl, hk, hr, hh, hhd, hpc, ?_⟩
    split at hs
    · rename_i hleader
      exact Or.inl ⟨hleader, (Option.some.inj hs).symm⟩
    · exact Or.inr (Option.some.inj hs).symm
  · cases hs

theorem deliver_cases {k : ℕ} (hs : s.deliver k = some s') :
    ∃ r, s.requests[k]? = some r ∧
      s' = setServer
        { s with
          requests := s.requests.set k
            { r with handler := some (s.servers r.server).handlers.length } } r.server
        ((s.servers r.server).arrive r.op) := by
  obtain ⟨r, hr, hs⟩ := Option.bind_eq_some_iff.mp hs
  split at hs
  · cases hs
  · exact ⟨r, hr, (Option.some.inj hs).symm⟩

theorem start_cases {i : Fin n} {h : ℕ} {index : Option ℕ} (hs : s.start i h index = some s') :
    ∃ hd kv started, (s.servers i).handlers[h]? = some hd ∧
      (s.servers i).start h index = some kv ∧
      (started = s.started ∨ started = s.started ++ [(hd.op, false)]) ∧
      s' = setServer { s with started := started } i kv := by
  obtain ⟨hd, hhd, hs⟩ := Option.bind_eq_some_iff.mp hs
  obtain ⟨kv, hkv, rfl⟩ := Option.map_eq_some_iff.mp hs
  cases index with
  | none => exact ⟨hd, kv, _, hhd, hkv, Or.inl rfl, rfl⟩
  | some index => exact ⟨hd, kv, _, hhd, hkv, Or.inr rfl, rfl⟩

theorem commit_cases {k : ℕ} (hs : s.commit k = some s') :
    ∃ op, s.started[k]? = some (op, false) ∧
      s' = { s with started := s.started.set k (op, true), log := s.log ++ [op] } := by
  unfold commit at hs
  split at hs
  · rename_i op hop
    exact ⟨op, hop, (Option.some.inj hs).symm⟩
  · cases hs

theorem recv_cases {i : Fin n} (hs : s.recv i = some s') :
    ∃ op kv, s.log[s.received i]? = some op ∧
      (s.servers i).recv (.command op (s.received i + 1)) = some kv ∧
      s' = setServer
        { s with received := Function.update s.received i (s.received i + 1) } i kv := by
  obtain ⟨op, hop, hs⟩ := Option.bind_eq_some_iff.mp hs
  obtain ⟨kv, hkv, rfl⟩ := Option.map_eq_some_iff.mp hs
  exact ⟨op, kv, hop, hkv, rfl⟩

theorem own_cases {i : Fin n} {a : Server.Act} (hs : s.own i a = some s') :
    ∃ kv, isOwn a = true ∧ (s.servers i).step a = some kv ∧ s' = s.setServer i kv := by
  unfold own at hs
  split at hs
  · rename_i ha
    obtain ⟨kv, hkv, rfl⟩ := Option.map_eq_some_iff.mp hs
    exact ⟨kv, ha, hkv, rfl⟩
  · cases hs

end

end System

end KvRaft

end DistributedLabs
