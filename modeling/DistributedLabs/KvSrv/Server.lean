import Mathlib.Logic.Function.Basic
import DistributedLabs.SharedLog.History

/-!
# The single key/value server and its clerks

`Server` is the `KVServer` of `kvsrv`; its handlers run under `kv.mu`, so that
each is one step. A missing key reads as the empty string, which is all that the
code asks of the map `data`.

`System` adds any number of clerks. A clerk repeats its `Call` until it returns
`true`. During a `Call` the handler runs at most once; the request or the reply
may be lost, and then `Call` returns `false`. The history records what the callers
of `Get`, `Put` and `Append` see, and the trace what each run of a handler does to
`data`.
-/

namespace DistributedLabs

namespace KvSrv

open SharedLog

inductive RequestType where
  | modify
  | report
deriving DecidableEq, Repr

structure PutAppendArgs where
  key : String
  value : String
  requestId : ℕ
  requestType : RequestType
deriving DecidableEq, Repr

structure Server where
  data : String → String := fun _ => ""
  messageMap : ℕ → Option String := fun _ => none

namespace Server

/-- The handlers return the new state and the `Value` of the reply. -/
def get (kv : Server) (key : String) : Server × String := (kv, kv.data key)

def put (kv : Server) (args : PutAppendArgs) : Server × String :=
  match args.requestType with
  | .report =>
    ({ kv with messageMap := Function.update kv.messageMap args.requestId none }, "")
  | .modify =>
    match kv.messageMap args.requestId with
    | some _ => (kv, "")
    | none =>
      ({ data := Function.update kv.data args.key args.value
         messageMap := Function.update kv.messageMap args.requestId (some args.value) }, "")

def append (kv : Server) (args : PutAppendArgs) : Server × String :=
  match args.requestType with
  | .report =>
    ({ kv with messageMap := Function.update kv.messageMap args.requestId none }, "")
  | .modify =>
    match kv.messageMap args.requestId with
    | some res => (kv, res)
    | none =>
      let oldValue := kv.data args.key
      ({ data := Function.update kv.data args.key (oldValue ++ args.value)
         messageMap := Function.update kv.messageMap args.requestId (some oldValue) }, oldValue)

end Server

/-- A call of a method of `Clerk`. -/
inductive Input where
  | get (key : String)
  | put (key value : String)
  | append (key value : String)
deriving DecidableEq, Repr

def Input.isWrite : Input → Bool
  | .get _ => false
  | .put _ _ | .append _ _ => true

/-- The map from keys to strings that the service stands for. -/
def kvSpec : SeqSpec (String → String) Input String where
  init := fun _ => ""
  step m
    | .get key => (m, m key)
    | .put key value => (Function.update m key value, "")
    | .append key value => (Function.update m key (m key ++ value), m key)

/-- The parameter `op` of `PutAppend`. -/
inductive Op where
  | put
  | append
deriving DecidableEq, Repr

/-- Where a clerk is. In `report` it keeps the value of the reply to `Modify`. -/
inductive Pc where
  | idle
  | get (key : String)
  | modify (op : Op) (args : PutAppendArgs)
  | report (op : Op) (args : PutAppendArgs) (value : String)
deriving DecidableEq, Repr

/-- A clerk with the number of its last call, and with the reply of the handler
that has run during the present `Call`. -/
structure Clerk where
  pc : Pc := .idle
  call : ℕ := 0
  replied : Option String := none
deriving DecidableEq, Repr

def Clerk.setReplied (ck : Clerk) (replied : Option String) : Clerk :=
  { ck with replied := replied }

/-- A run of a handler for a call of a clerk. -/
structure Execution where
  call : ℕ
  before : String → String
  after : String → String
  reply : String

structure System (m : ℕ) where
  server : Server := {}
  clerks : Fin m → Clerk := fun _ => {}
  calls : ℕ := 0
  trace : List Execution := []
  history : List (Event ℕ Input String) := []

/-- The handler that a clerk calls. -/
def Server.handle (kv : Server) : Pc → Option (Server × String)
  | .idle => none
  | .get key => some (kv.get key)
  | .modify .put args | .report .put args _ => some (kv.put args)
  | .modify .append args | .report .append args _ => some (kv.append args)

namespace System

variable {m : ℕ}

def setClerk (s : System m) (c : Fin m) (ck : Clerk) : System m :=
  { s with clerks := Function.update s.clerks c ck }

/-- The first request of a call; `PutAppend` draws a request id. -/
def request (input : Input) (requestId : ℕ) : Pc :=
  match input with
  | .get key => .get key
  | .put key value =>
    .modify .put { key := key, value := value, requestId := requestId, requestType := .modify }
  | .append key value =>
    .modify .append { key := key, value := value, requestId := requestId, requestType := .modify }

/-- A caller calls a method of a clerk that has no call to work on. The `k`-th
call has the request id `ids k`. -/
def invoke (ids : ℕ → ℕ) (s : System m) (c : Fin m) (input : Input) : Option (System m) :=
  match (s.clerks c).pc with
  | .idle =>
    some (setClerk
      { s with calls := s.calls + 1, history := s.history ++ [.inv s.calls input] } c
      { pc := request input (ids s.calls), call := s.calls })
  | _ => none

/-- The handler runs for the `Call` that clerk `c` waits for. -/
def handle (s : System m) (c : Fin m) : Option (System m) :=
  let ck := s.clerks c
  match ck.replied with
  | some _ => none
  | none =>
    (s.server.handle ck.pc).map fun r =>
      setClerk
        { s with
          server := r.1
          trace := s.trace ++
            [{ call := ck.call, before := s.server.data, after := r.1.data, reply := r.2 }] } c
        (ck.setReplied (some r.2))

/-- `Call` returns `false`, whether the handler has run or not. -/
def fail (s : System m) (c : Fin m) : Option (System m) :=
  match (s.clerks c).pc with
  | .idle => none
  | _ => some (s.setClerk c ((s.clerks c).setReplied none))

/-- The call of clerk `c` returns to its caller. -/
def ret (s : System m) (c : Fin m) (value : String) : System m :=
  setClerk { s with history := s.history ++ [.ret (s.clerks c).call value] } c
    { pc := .idle, call := (s.clerks c).call }

/-- `Call` returns `true` with the reply of the handler. -/
def succeed (s : System m) (c : Fin m) : Option (System m) :=
  let ck := s.clerks c
  ck.replied.bind fun reply =>
    match ck.pc with
    | .idle => none
    | .get _ => some (s.ret c reply)
    | .modify op args =>
      some (s.setClerk c
        { pc := .report op { args with requestType := .report } reply, call := ck.call })
    | .report _ _ value => some (s.ret c value)

inductive Act (m : ℕ) where
  | invoke (c : Fin m) (input : Input)
  | handle (c : Fin m)
  | fail (c : Fin m)
  | succeed (c : Fin m)
deriving DecidableEq, Repr

def step (ids : ℕ → ℕ) (s : System m) : Act m → Option (System m)
  | .invoke c input => s.invoke ids c input
  | .handle c => s.handle c
  | .fail c => s.fail c
  | .succeed c => s.succeed c

/-! ## What each step does -/

section

variable {s s' : System m} {c : Fin m}

theorem invoke_cases {ids : ℕ → ℕ} {input : Input} (hs : s.invoke ids c input = some s') :
    (s.clerks c).pc = .idle ∧
      s' = setClerk
        { s with calls := s.calls + 1, history := s.history ++ [.inv s.calls input] } c
        { pc := request input (ids s.calls), call := s.calls } := by
  unfold invoke at hs
  split at hs
  · rename_i hpc
    exact ⟨hpc, (Option.some.inj hs).symm⟩
  · cases hs

theorem handle_cases (hs : s.handle c = some s') :
    (s.clerks c).replied = none ∧ ∃ r, s.server.handle (s.clerks c).pc = some r ∧
      s' = setClerk
        { s with
          server := r.1
          trace := s.trace ++
            [{ call := (s.clerks c).call, before := s.server.data, after := r.1.data
               reply := r.2 }] } c
        ((s.clerks c).setReplied (some r.2)) := by
  unfold handle at hs
  dsimp only at hs
  split at hs
  · cases hs
  · rename_i hreplied
    obtain ⟨r, hr, rfl⟩ := Option.map_eq_some_iff.mp hs
    exact ⟨hreplied, r, hr, rfl⟩

theorem fail_cases (hs : s.fail c = some s') :
    (s.clerks c).pc ≠ .idle ∧ s' = s.setClerk c ((s.clerks c).setReplied none) := by
  unfold fail at hs
  split at hs
  · cases hs
  · rename_i hpc
    exact ⟨hpc, (Option.some.inj hs).symm⟩

theorem succeed_cases (hs : s.succeed c = some s') :
    ∃ reply, (s.clerks c).replied = some reply ∧
      ((∃ key, (s.clerks c).pc = .get key ∧ s' = s.ret c reply) ∨
        (∃ op args, (s.clerks c).pc = .modify op args ∧
          s' = s.setClerk c
            { pc := .report op { args with requestType := .report } reply
              call := (s.clerks c).call }) ∨
        ∃ op args value, (s.clerks c).pc = .report op args value ∧ s' = s.ret c value) := by
  obtain ⟨reply, hreply, hs⟩ := Option.bind_eq_some_iff.mp hs
  refine ⟨reply, hreply, ?_⟩
  split at hs
  · cases hs
  · rename_i key hpc
    exact Or.inl ⟨key, hpc, (Option.some.inj hs).symm⟩
  · rename_i op args hpc
    exact Or.inr (Or.inl ⟨op, args, hpc, (Option.some.inj hs).symm⟩)
  · rename_i op args value hpc
    exact Or.inr (Or.inr ⟨op, args, value, hpc, (Option.some.inj hs).symm⟩)

end

end System

end KvSrv

end DistributedLabs
