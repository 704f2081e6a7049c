import Mathlib.Data.List.AList
import Mathlib.Data.Finset.Card

/-!
# The MapReduce coordinator and its workers

`Coordinator` is the state behind the handlers `GetTask` and `TaskFin` and behind
`Done`. A channel is the list of the tasks in it, and a `sync.Map` an association
list. `none` means that the step cannot be taken: it would panic on a missing
entry, or wait for room in a channel.

`Job` adds the workers. A worker is known by what it was given to do; it may be
slow, and it may never report. The clock never runs backwards.
-/

namespace DistributedLabs

namespace MapReduce

/-- The number of seconds after which a task is given up. -/
def timeout : ℕ := 10

structure Task where
  mapId : ℕ := 0
  reduceId : ℕ := 0
  fileName : String := ""
deriving DecidableEq, Repr

/-- When a task was given out or reported, and whether it is finished. -/
structure TaskState where
  time : ℕ
  fin : Bool
deriving DecidableEq, Repr

/-- `timeNow - Time > Timeout`. -/
def TaskState.isLate (st : TaskState) (now : ℕ) : Bool :=
  decide (st.time + timeout < now)

abbrev TaskStates := AList fun _ : ℕ => TaskState

/-- The number of finished tasks. -/
def lenTaskFin (m : TaskStates) : ℕ :=
  (m.entries.filter fun entry => entry.2.fin).length

/-- `State`: 0, 1 and 2 in the source. -/
inductive Phase where
  | map
  | reduce
  | finished
deriving DecidableEq, Repr

structure Coordinator where
  state : Phase := .map
  numMapTasks : ℕ
  numReduceTasks : ℕ
  mapTask : List Task
  reduceTask : List Task := []
  mapTaskStates : TaskStates := ∅
  reduceTaskStates : TaskStates := ∅
  files : List String

structure TaskResponse where
  xTask : Task := {}
  numMapTasks : ℕ
  numReduceTasks : ℕ
  curNumMapTasks : ℤ := 0
  curNumReduceTasks : ℤ := 0
  state : Phase
deriving DecidableEq, Repr

namespace Coordinator

def makeCoordinator (files : List String) (nReduce : ℕ) : Coordinator :=
  { numMapTasks := files.length
    numReduceTasks := nReduce
    mapTask := files.mapIdx fun id fileName => { fileName := fileName, mapId := id }
    files := files }

/-- The handler `GetTask` at time `now`. -/
def getTask (c : Coordinator) (now : ℕ) : Coordinator × TaskResponse :=
  let reply : TaskResponse :=
    { numMapTasks := c.numMapTasks, numReduceTasks := c.numReduceTasks, state := c.state }
  match c.state with
  | .map =>
    match c.mapTask with
    | task :: rest =>
      ({ c with
          mapTask := rest
          mapTaskStates := c.mapTaskStates.insert task.mapId { time := now, fin := false } },
        { reply with
          xTask := task
          curNumMapTasks := rest.length
          curNumReduceTasks := c.reduceTask.length })
    | [] => (c, { reply with curNumMapTasks := -1, curNumReduceTasks := c.reduceTask.length })
  | .reduce =>
    match c.reduceTask with
    | task :: rest =>
      ({ c with
          reduceTask := rest
          reduceTaskStates :=
            c.reduceTaskStates.insert task.reduceId { time := now, fin := false } },
        { reply with xTask := task, curNumReduceTasks := rest.length, curNumMapTasks := -1 })
    | [] => (c, { reply with curNumReduceTasks := -1, curNumMapTasks := -1 })
  | .finished => (c, reply)

/-- Send to a channel, if there is room. -/
def send (capacity : ℕ) (chan : List Task) (task : Task) : Option (List Task) :=
  if chan.length < capacity then some (chan ++ [task]) else none

/-- `TaskFin` while a map task is unfinished. -/
def mapFin (c : Coordinator) (task : Task) (now : ℕ) : Option Coordinator :=
  (c.mapTaskStates.lookup task.mapId).bind fun curState =>
    if curState.isLate now then some c
    else
      let states := c.mapTaskStates.insert task.mapId { time := now, fin := true }
      if lenTaskFin states = c.numMapTasks then
        ((List.range c.numReduceTasks).foldlM
          (fun chan i => send c.numReduceTasks chan { reduceId := i }) c.reduceTask).map fun chan =>
            { c with mapTaskStates := states, state := .reduce, reduceTask := chan }
      else some { c with mapTaskStates := states }

/-- `TaskFin` while a reduce task is unfinished. -/
def reduceFin (c : Coordinator) (task : Task) (now : ℕ) : Option Coordinator :=
  (c.reduceTaskStates.lookup task.reduceId).map fun curState =>
    if curState.isLate now then c
    else
      let states := c.reduceTaskStates.insert task.reduceId { time := now, fin := true }
      if lenTaskFin states = c.numReduceTasks then
        { c with reduceTaskStates := states, state := .finished }
      else { c with reduceTaskStates := states }

/-- The handler `TaskFin` at time `now`. -/
def taskFin (c : Coordinator) (task : Task) (now : ℕ) : Option Coordinator :=
  if lenTaskFin c.mapTaskStates ≠ c.numMapTasks then c.mapFin task now
  else if lenTaskFin c.reduceTaskStates ≠ c.numReduceTasks then c.reduceFin task now
  else some c

/-- The loop of `TimeTick`: send the unfinished tasks that are late to a channel
of the given capacity. -/
def requeue (states : TaskStates) (now capacity : ℕ) (task : ℕ → Option Task)
    (chan : List Task) : Option (List Task) :=
  (List.range capacity).foldlM (fun chan i =>
    match states.lookup i with
    | none => some chan
    | some st =>
      if st.fin = false ∧ st.isLate now = true then
        (task i).bind (send capacity chan)
      else some chan) chan

def timeTick (c : Coordinator) (now : ℕ) : Option Coordinator :=
  match c.state with
  | .map =>
    (requeue c.mapTaskStates now c.numMapTasks
      (fun i => (c.files[i]?).map fun fileName => { fileName := fileName, mapId := i })
      c.mapTask).map fun chan => { c with mapTask := chan }
  | .reduce =>
    (requeue c.reduceTaskStates now c.numReduceTasks (fun i => some { reduceId := i })
      c.reduceTask).map fun chan => { c with reduceTask := chan }
  | .finished => some c

def done (c : Coordinator) (now : ℕ) : Option (Coordinator × Bool) :=
  (c.timeTick now).map fun c' =>
    (c', decide (lenTaskFin c'.reduceTaskStates = c'.numReduceTasks))

end Coordinator

/-- What a worker has to do. -/
inductive Kind where
  | map
  | reduce
deriving DecidableEq, Repr

/-- How a worker reads the reply to `GetTask`: `DoMap`, `DoReduce`, or nothing. -/
def TaskResponse.kind (reply : TaskResponse) : Option Kind :=
  if 0 ≤ reply.curNumMapTasks ∧ reply.state = .map then some .map
  else if 0 ≤ reply.curNumReduceTasks ∧ reply.state = .reduce then some .reduce
  else none

/-- A task in the hands of a worker; it is `done` once `DoMap` or `DoReduce` has
been completed. -/
structure Assignment where
  kind : Kind
  task : Task
  done : Bool := false
deriving DecidableEq, Repr

structure Job where
  coordinator : Coordinator
  assigned : List Assignment := []
  clock : ℕ := 0

namespace Job

def make (files : List String) (nReduce : ℕ) : Job :=
  { coordinator := .makeCoordinator files nReduce }

/-- A worker asks for a task. -/
def getTask (j : Job) (now : ℕ) : Job :=
  let r := j.coordinator.getTask now
  { coordinator := r.1
    assigned := j.assigned ++
      (r.2.kind.map fun kind => { kind := kind, task := r.2.xTask }).toList
    clock := now }

/-- A worker completes `DoMap` or `DoReduce`. -/
def work (j : Job) (k : ℕ) : Option Job :=
  (j.assigned[k]?).map fun a => { j with assigned := j.assigned.set k { a with done := true } }

/-- A worker reports a task that it has completed. -/
def taskFin (j : Job) (k now : ℕ) : Option Job :=
  (j.assigned[k]?).bind fun a =>
    if a.done then
      (j.coordinator.taskFin a.task now).map fun c => { j with coordinator := c, clock := now }
    else none

/-- `Done`, with the `TimeTick` in it. -/
def done (j : Job) (now : ℕ) : Option Job :=
  (j.coordinator.done now).map fun r => { j with coordinator := r.1, clock := now }

inductive Act where
  | getTask (now : ℕ)
  | work (k : ℕ)
  | taskFin (k now : ℕ)
  | done (now : ℕ)
deriving DecidableEq, Repr

def step (j : Job) : Act → Option Job
  | .getTask now => if j.clock ≤ now then some (j.getTask now) else none
  | .work k => j.work k
  | .taskFin k now => if j.clock ≤ now then j.taskFin k now else none
  | .done now => if j.clock ≤ now then j.done now else none

end Job

end MapReduce

end DistributedLabs
