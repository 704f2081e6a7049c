import DistributedLabs.MapReduce.Worker

/-!
# The MapReduce system, one operation at a time

`net/rpc` runs every call of `GetTask` and `TaskFin` in a goroutine of its own, and
`Done` runs beside them. A call is where it stands in its function, and a step of it
is one operation on a channel, on a `sync.Map`, on `State` or on the clock; what
follows the operation and touches nothing shared belongs to the same step. `none`
means that the operation panics, or that it waits for a channel.

`lenTaskFin` ranges over a `sync.Map`, which takes many steps. It visits a key at
most once, at any moment and in any order, and finds what is stored under the key at
that moment; it ends when it has visited all keys that were there when it began.

The workers run `DoMap` and `DoReduce` on a common directory, one file at a time.
A worker may stop for good at any moment.
-/

namespace DistributedLabs

namespace MapReduce

/-! ## The two phases of the coordinator -/

/-- The id under which a task is filed in the table of a phase. -/
def Task.id (task : Task) : Kind → ℕ
  | .map => task.mapId
  | .reduce => task.reduceId

namespace Coordinator

/-- `MapTask` or `ReduceTask`. -/
def queue (c : Coordinator) : Kind → List Task
  | .map => c.mapTask
  | .reduce => c.reduceTask

def setQueue (c : Coordinator) (queue : List Task) : Kind → Coordinator
  | .map => { c with mapTask := queue }
  | .reduce => { c with reduceTask := queue }

/-- `MapTaskStates` or `ReduceTaskStates`. -/
def states (c : Coordinator) : Kind → TaskStates
  | .map => c.mapTaskStates
  | .reduce => c.reduceTaskStates

def setStates (c : Coordinator) (states : TaskStates) : Kind → Coordinator
  | .map => { c with mapTaskStates := states }
  | .reduce => { c with reduceTaskStates := states }

/-- `NumMapTasks` or `NumReduceTasks`, which is also the capacity of the channel. -/
def numTasks (c : Coordinator) : Kind → ℕ
  | .map => c.numMapTasks
  | .reduce => c.numReduceTasks

/-- A reply without a task. -/
def response (c : Coordinator) (state : Phase) : TaskResponse :=
  { numMapTasks := c.numMapTasks, numReduceTasks := c.numReduceTasks, state := state }

/-- The task that `TimeTick` sends again; `none` is an index out of range. -/
def retry (c : Coordinator) (i : ℕ) : Kind → Option Task
  | .map => (c.files[i]?).map fun fileName => { fileName := fileName, mapId := i }
  | .reduce => some { reduceId := i }

section

variable (c : Coordinator) (chan chan' : List Task) (kind : Kind)

theorem setQueue_queue : c.setQueue (c.queue kind) kind = c := by
  cases kind <;> rfl

theorem queue_setQueue : (c.setQueue chan kind).queue kind = chan := by
  cases kind <;> rfl

theorem setQueue_setQueue : (c.setQueue chan kind).setQueue chan' kind = c.setQueue chan' kind := by
  cases kind <;> rfl

theorem setQueue_numTasks : (c.setQueue chan kind).numTasks kind = c.numTasks kind := by
  cases kind <;> rfl

end

end Coordinator

/-! ## `lenTaskFin` -/

/-- A `Range` that has visited some keys, with the count of `lenTaskFin`. -/
structure Ranging where
  start : List ℕ
  visited : List ℕ := []
  len : ℕ := 0
deriving DecidableEq, Repr

namespace Ranging

/-- A `Range` over `m` that has just begun. -/
def begun (m : TaskStates) : Ranging := { start := m.keys }

def visit (r : Ranging) (m : TaskStates) (key : ℕ) : Option Ranging :=
  if key ∈ r.visited then none
  else
    (m.lookup key).map fun value =>
      { r with
        visited := key :: r.visited
        len := if value.fin then r.len + 1 else r.len }

def isOver (r : Ranging) : Bool := r.start.all fun key => key ∈ r.visited

end Ranging

/-! ## `GetTask` -/

/-- The next operation of a call of `GetTask`. -/
inductive GetTaskCall where
  /-- `state := atomic.LoadInt32(&c.State)` -/
  | loadState
  /-- `c.State == 1`, a second look at `State` -/
  | testState (state : Phase)
  /-- `len(c.MapTask) != 0` or `len(c.ReduceTask) != 0` -/
  | testLen (kind : Kind) (state : Phase)
  /-- `<-c.MapTask` or `<-c.ReduceTask` -/
  | receive (kind : Kind) (state : Phase)
  /-- `time.Now()` -/
  | readClock (kind : Kind) (state : Phase) (task : Task)
  /-- `Store(.., TaskState{.., false})` -/
  | storeState (kind : Kind) (state : Phase) (task : Task) (now : ℕ)
  /-- `len(c.MapTask)` or `len(c.ReduceTask)`, for the reply -/
  | readLen (kind : Kind) (state : Phase) (task : Task)
  /-- `reply.CurNumReduceTasks = len(c.ReduceTask)` of the map phase -/
  | readReduceLen (reply : TaskResponse)
  | replied (reply : TaskResponse)
deriving DecidableEq, Repr

def GetTaskCall.step (c : Coordinator) (clock : ℕ) :
    GetTaskCall → Option (Coordinator × GetTaskCall)
  | .loadState =>
      some (c, if c.state = .map then .testLen .map c.state else .testState c.state)
  | .testState state =>
      some (c, if c.state = .reduce then .testLen .reduce state else .replied (c.response state))
  | .testLen kind state =>
      some (c,
        match c.queue kind, kind with
        | _ :: _, _ => .receive kind state
        | [], .map => .readReduceLen { c.response state with curNumMapTasks := -1 }
        | [], .reduce =>
            .replied { c.response state with curNumReduceTasks := -1, curNumMapTasks := -1 })
  | .receive kind state =>
      match c.queue kind with
      | [] => none
      | task :: rest => some (c.setQueue rest kind, .readClock kind state task)
  | .readClock kind state task => some (c, .storeState kind state task clock)
  | .storeState kind state task now =>
      some
        (c.setStates ((c.states kind).insert (task.id kind) { time := now, fin := false }) kind,
          .readLen kind state task)
  | .readLen .map state task =>
      some (c, .readReduceLen
        { c.response state with xTask := task, curNumMapTasks := c.mapTask.length })
  | .readLen .reduce state task =>
      some (c, .replied
        { c.response state with
          xTask := task
          curNumReduceTasks := c.reduceTask.length
          curNumMapTasks := -1 })
  | .readReduceLen reply =>
      some (c, .replied { reply with curNumReduceTasks := c.reduceTask.length })
  | .replied _ => none

/-- A receive takes the first task of the channel. -/
theorem GetTaskCall.receive_cases {c c' : Coordinator} {clock : ℕ} {kind : Kind}
    {state : Phase} {call : GetTaskCall}
    (hs : (GetTaskCall.receive kind state).step c clock = some (c', call)) :
    ∃ task rest, c.queue kind = task :: rest ∧ c' = c.setQueue rest kind ∧
      call = .readClock kind state task := by
  rw [GetTaskCall.step] at hs
  split at hs
  · cases hs
  · rename_i task rest hqueue
    obtain ⟨rfl, rfl⟩ := Prod.mk.inj (Option.some.inj hs)
    exact ⟨task, rest, hqueue, rfl, rfl⟩

/-! ## `TaskFin` -/

/-- The next operation of a call of `TaskFin`. `stored` tells the count after a
report has been stored from the one before. -/
inductive TaskFinCall where
  /-- `timeNow := time.Now().Unix()` -/
  | readClock (task : Task)
  /-- The beginning of `lenTaskFin`. -/
  | beginCount (kind : Kind) (stored : Bool) (task : Task) (now : ℕ)
  /-- In `lenTaskFin`. -/
  | count (kind : Kind) (stored : Bool) (task : Task) (now : ℕ) (r : Ranging)
  /-- `Load(args.MapId)` or `Load(args.ReduceId)` -/
  | loadState (kind : Kind) (task : Task) (now : ℕ)
  /-- `Store(.., TaskState{timeNow, true})` -/
  | storeState (kind : Kind) (task : Task) (now : ℕ)
  /-- `atomic.StoreInt32(&c.State, ..)` -/
  | setState (kind : Kind)
  /-- `c.ReduceTask <- Task{ReduceId: i}` -/
  | send (i : ℕ)
  | returned
deriving DecidableEq, Repr

namespace TaskFinCall

/-- Where a call goes on with the result of `lenTaskFin`. -/
def afterCount (c : Coordinator) (kind : Kind) (stored : Bool) (task : Task) (now len : ℕ) :
    TaskFinCall :=
  if len = c.numTasks kind then
    match stored, kind with
    | true, _ => .setState kind
    | false, .map => .beginCount .reduce false task now
    | false, .reduce => .returned
  else if stored then .returned
  else .loadState kind task now

def step (c : Coordinator) (clock : ℕ) : TaskFinCall → Option (Coordinator × TaskFinCall)
  | .readClock task => some (c, .beginCount .map false task clock)
  | .beginCount kind stored task now =>
      some (c, .count kind stored task now (.begun (c.states kind)))
  | .count kind stored task now r =>
      if r.isOver then some (c, afterCount c kind stored task now r.len) else none
  | .loadState kind task now =>
      ((c.states kind).lookup (task.id kind)).map fun curState =>
        (c, if curState.isLate now then .returned else .storeState kind task now)
  | .storeState kind task now =>
      some
        (c.setStates ((c.states kind).insert (task.id kind) { time := now, fin := true }) kind,
          .beginCount kind true task now)
  | .setState .map => some ({ c with state := .reduce }, .send 0)
  | .setState .reduce => some ({ c with state := .finished }, .returned)
  | .send i =>
      if i < c.numReduceTasks then
        (Coordinator.send c.numReduceTasks c.reduceTask { reduceId := i }).map fun chan =>
          ({ c with reduceTask := chan }, .send (i + 1))
      else some (c, .returned)
  | .returned => none

def visit (c : Coordinator) (key : ℕ) : TaskFinCall → Option TaskFinCall
  | .count kind stored task now r =>
      (r.visit (c.states kind) key).map (.count kind stored task now)
  | _ => none

end TaskFinCall

/-! ## `Done` -/

/-- The next operation of a call of `Done`, which begins with `TimeTick`. -/
inductive DoneCall where
  /-- `state := atomic.LoadInt32(&c.State)` -/
  | loadState
  /-- `timeNow := time.Now().Unix()` -/
  | readClock (kind : Kind)
  /-- `_, ok := Load(i)`, at the head of the loop -/
  | testKey (kind : Kind) (now i : ℕ)
  /-- `tmp, _ := Load(i)` -/
  | loadTask (kind : Kind) (now i : ℕ)
  /-- `c.MapTask <- ..` or `c.ReduceTask <- ..` -/
  | send (kind : Kind) (now i : ℕ)
  /-- The beginning of `lenTaskFin(&c.ReduceTaskStates)`. -/
  | beginCount
  | count (r : Ranging)
  | returned (ret : Bool)
deriving DecidableEq, Repr

namespace DoneCall

def step (c : Coordinator) (clock : ℕ) : DoneCall → Option (Coordinator × DoneCall)
  | .loadState =>
      some (c,
        match c.state with
        | .map => .readClock .map
        | .reduce => .readClock .reduce
        | .finished => .beginCount)
  | .readClock kind => some (c, .testKey kind clock 0)
  | .testKey kind now i =>
      some (c,
        if i < c.numTasks kind then
          match (c.states kind).lookup i with
          | some _ => .loadTask kind now i
          | none => .testKey kind now (i + 1)
        else .beginCount)
  | .loadTask kind now i =>
      ((c.states kind).lookup i).map fun tmp =>
        (c, if tmp.fin = false ∧ tmp.isLate now = true then .send kind now i
            else .testKey kind now (i + 1))
  | .send kind now i =>
      (c.retry i kind).bind fun task =>
        (Coordinator.send (c.numTasks kind) (c.queue kind) task).map fun chan =>
          (c.setQueue chan kind, .testKey kind now (i + 1))
  | .beginCount => some (c, .count (.begun c.reduceTaskStates))
  | .count r => if r.isOver then some (c, .returned (r.len = c.numReduceTasks)) else none
  | .returned _ => none

def visit (c : Coordinator) (key : ℕ) : DoneCall → Option DoneCall
  | .count r => (r.visit c.reduceTaskStates key).map .count
  | _ => none

end DoneCall

/-! ## The workers -/

/-- How far a worker is with its task. -/
inductive Progress where
  | given
  /-- `DoMap` has read its input and has renamed its first `i` files. -/
  | mapping (kva : List KeyValue) (i : ℕ)
  /-- `DoReduce` has read the output of the first `i` map tasks. -/
  | reducing (intermediate : List KeyValue) (i : ℕ)
  | done
deriving DecidableEq, Repr

/-- What a worker was given to do. -/
structure Handout where
  kind : Kind
  reply : TaskResponse
  progress : Progress := .given
deriving DecidableEq, Repr

section

variable {γ : Type*} (fmt : Format γ) (mapf : String → γ → List KeyValue)
  (reducef : String → List String → String)

/-- The next file operation of a worker, where the sort of `DoReduce` leaves
`sorted`. -/
def Handout.work (h : Handout) (dir : Dir γ) (sorted : List KeyValue) :
    Option (Dir γ × Progress) :=
  match h.kind, h.progress with
  | .map, .given =>
      (mapInput mapf dir h.reply).map fun kva => (dir, .mapping kva 0)
  | .map, .mapping kva i =>
      if i < h.reply.numReduceTasks then
        some
          (dir.write (mapOutFileName h.reply.xTask.mapId i)
            { bytes := fmt.encode (((buckets h.reply.numReduceTasks kva)[i]?).getD []) },
            .mapping kva (i + 1))
      else some (dir, .done)
  | .reduce, .given => some (dir, .reducing [] 0)
  | .reduce, .reducing intermediate i =>
      if i < h.reply.numMapTasks then
        (dir (mapOutFileName i h.reply.xTask.reduceId)).map fun file =>
          (dir, .reducing (intermediate ++ (fmt.decode file.bytes).flatten) (i + 1))
      else if IsSort intermediate sorted then
        some (dir.write (outFileName h.reply.xTask.reduceId) (reduceFile fmt reducef sorted), .done)
      else none
  | _, _ => none

/-! ## The system -/

/-- A call that has been made. -/
inductive Call where
  | getTask (call : GetTaskCall)
  | taskFin (call : TaskFinCall)
  | done (call : DoneCall)
  /-- The reply of `GetTask` has reached the worker. -/
  | returned
deriving DecidableEq, Repr

namespace Call

def step (c : Coordinator) (clock : ℕ) : Call → Option (Coordinator × Call)
  | .getTask call => (call.step c clock).map fun r => (r.1, .getTask r.2)
  | .taskFin call => (call.step c clock).map fun r => (r.1, .taskFin r.2)
  | .done call => (call.step c clock).map fun r => (r.1, .done r.2)
  | .returned => none

def visit (c : Coordinator) (key : ℕ) : Call → Option Call
  | .taskFin call => (call.visit c key).map .taskFin
  | .done call => (call.visit c key).map .done
  | _ => none

/-- The reply of a call of `GetTask`, if it is on its way. -/
def reply? : Call → Option TaskResponse
  | .getTask (.replied reply) => some reply
  | _ => none

end Call

/-- The coordinator with the calls that are being handled, the workers and their
directory. -/
structure System (γ : Type*) where
  coordinator : Coordinator
  calls : List Call := []
  handouts : List Handout := []
  dir : Dir γ
  clock : ℕ := 0

namespace System

def make (files : List String) (nReduce : ℕ) (dir : Dir γ) : System γ :=
  { coordinator := .makeCoordinator files nReduce, dir := dir }

inductive Act where
  /-- A worker calls `GetTask`. -/
  | getTask
  /-- The worker of the handout `k` calls `TaskFin`. -/
  | taskFin (k : ℕ)
  | done
  /-- The next operation of the call `t`. -/
  | run (t : ℕ)
  /-- The `Range` of the call `t` visits a key. -/
  | visit (t key : ℕ)
  /-- The reply of the call `t` of `GetTask` reaches the worker. -/
  | receive (t : ℕ)
  | work (k : ℕ) (sorted : List KeyValue)
  | tick (now : ℕ)
deriving DecidableEq, Repr

def step (s : System γ) : Act → Option (System γ)
  | .getTask => some { s with calls := s.calls ++ [.getTask .loadState] }
  | .taskFin k =>
      (s.handouts[k]?).bind fun h =>
        if h.progress = .done then
          some { s with calls := s.calls ++ [.taskFin (.readClock h.reply.xTask)] }
        else none
  | .done => some { s with calls := s.calls ++ [.done .loadState] }
  | .run t =>
      (s.calls[t]?).bind fun call =>
        (call.step s.coordinator s.clock).map fun r =>
          { s with coordinator := r.1, calls := s.calls.set t r.2 }
  | .visit t key =>
      (s.calls[t]?).bind fun call =>
        (call.visit s.coordinator key).map fun call' => { s with calls := s.calls.set t call' }
  | .receive t =>
      ((s.calls[t]?).bind Call.reply?).map fun reply =>
        { s with
          calls := s.calls.set t .returned
          handouts := s.handouts ++
            (reply.kind.map fun kind => { kind := kind, reply := reply }).toList }
  | .work k sorted =>
      (s.handouts[k]?).bind fun h =>
        (h.work fmt mapf reducef s.dir sorted).map fun r =>
          { s with handouts := s.handouts.set k { h with progress := r.2 }, dir := r.1 }
  | .tick now => if s.clock ≤ now then some { s with clock := now } else none

end System

end

end MapReduce

end DistributedLabs
