import Mathlib.Data.List.Perm.Basic
import Mathlib.Data.String.Basic
import Mathlib.Logic.Function.Basic
import DistributedLabs.MapReduce.Coordinator

/-!
# The work of a MapReduce worker

`doMap` and `doReduce` work on a directory of files, which is where the output
of the map tasks is left for the reduce tasks. `sequential` is `mrsequential`,
which works on the same directory in one go. A file that is written under a
temporary name and then renamed appears at once, and a run ends with `none` where
the source calls `log.Fatalf` or panics.

The file system does not fail: temporary files can be created, and a rename succeeds (the
source does not look at the error of `os.Rename`). A file is known by its name as it is
written: two names are two files.

What the bytes of a file are, and how they are written by `encoding/json` and
`fmt`, is left to a `Format`.
-/

namespace DistributedLabs

namespace MapReduce

structure KeyValue where
  key : String
  value : String
deriving DecidableEq, Repr

/-- The hash FNV-1a on 32 bits, without its top bit. -/
def ihash (key : String) : ℕ :=
  (key.toByteArray.data.toList.foldl (fun h b => (h ^^^ b.toUInt32) * 16777619) 2166136261 &&&
    0x7fffffff : UInt32).toNat

/-- The encodings that the workers use. `decode` lists what a JSON decoder reads
from the bytes until its first error, and `print` is what `Fprintf` makes of the
records. -/
structure Format (γ : Type*) where
  encode : List KeyValue → γ
  decode : γ → List (List KeyValue)
  print : List (String × String) → γ
  decode_encode : ∀ kva, decode (encode kva) = [kva]

/-- A file, with the records that were printed to it, if any. -/
structure File (γ : Type*) where
  bytes : γ
  records : List (String × String) := []

abbrev Dir (γ : Type*) := String → Option (File γ)

/-- The records that were printed to a file. -/
def Dir.records {γ : Type*} (dir : Dir γ) (name : String) : List (String × String) :=
  ((dir name).map File.records).getD []

def Dir.write {γ : Type*} (dir : Dir γ) (name : String) (file : File γ) : Dir γ :=
  Function.update dir name (some file)

def mapOutFileName (mapId reduceId : ℕ) : String :=
  "mr-" ++ toString mapId ++ "-" ++ toString reduceId

def outFileName (reduceId : ℕ) : String :=
  "mr-out-" ++ toString reduceId

/-- The pairs by reduce task. -/
def buckets (nReduce : ℕ) (kva : List KeyValue) : List (List KeyValue) :=
  kva.foldl (fun buckets kv => buckets.modify (ihash kv.key % nReduce) (· ++ [kv]))
    (List.replicate nReduce [])

/-- `sort.Sort(ByKey(..))` may leave any permutation in which the keys are in
order. -/
def IsSort (intermediate sorted : List KeyValue) : Prop :=
  sorted.Perm intermediate ∧ sorted.Pairwise fun a b => a.key ≤ b.key

instance (intermediate sorted : List KeyValue) : Decidable (IsSort intermediate sorted) :=
  inferInstanceAs (Decidable (_ ∧ _))

section

variable {γ : Type*} (fmt : Format γ) (mapf : String → γ → List KeyValue)
  (reducef : String → List String → String)

/-- The rename loop of `DoMap`. -/
def writeBuckets (mapId : ℕ) (buckets : List (List KeyValue)) (nReduce : ℕ) (dir : Dir γ) :
    Dir γ :=
  (List.range nReduce).foldl
    (fun dir i =>
      dir.write (mapOutFileName mapId i) { bytes := fmt.encode ((buckets[i]?).getD []) }) dir

/-- The pairs that `DoMap` puts into buckets. Without reduce tasks,
`ihash(kv.Key) % nReduce` divides by zero. -/
def mapInput (dir : Dir γ) (reply : TaskResponse) : Option (List KeyValue) :=
  (dir reply.xTask.fileName).bind fun file =>
    match reply.numReduceTasks, mapf reply.xTask.fileName file.bytes with
    | 0, _ :: _ => none
    | _, kva => some kva

def doMap (dir : Dir γ) (reply : TaskResponse) : Option (Dir γ) :=
  (mapInput mapf dir reply).map fun kva =>
    let nReduce := reply.numReduceTasks
    writeBuckets fmt reply.xTask.mapId (buckets nReduce kva) nReduce dir

/-- The loop in which `DoReduce` reads the output of the map tasks. -/
def readIntermediate (dir : Dir γ) (numMapTasks reduceId : ℕ) : Option (List KeyValue) :=
  (List.range numMapTasks).foldlM (fun intermediate i =>
    (dir (mapOutFileName i reduceId)).map fun file =>
      intermediate ++ (fmt.decode file.bytes).flatten) []

/-- `for j < len(intermediate) && intermediate[j].Key == key { j++ }`, which ends
after at most `len(intermediate)` rounds. -/
def groupEnd (intermediate : List KeyValue) (key : String) : ℕ → ℕ → ℕ
  | 0, j => j
  | fuel + 1, j =>
    match intermediate[j]? with
    | some kv => if kv.key = key then groupEnd intermediate key fuel (j + 1) else j
    | none => j

/-- The values of `intermediate[i:j]`. -/
def groupValues (intermediate : List KeyValue) (i j : ℕ) : List String :=
  ((intermediate.drop i).take (j - i)).map KeyValue.value

/-- The loop that reduces one group after the other, from index `i` on. Each
round ends behind the index where it began, so that `len(intermediate)` rounds are
enough. -/
def reduceGroups (intermediate : List KeyValue) : ℕ → ℕ → List (String × String)
  | 0, _ => []
  | fuel + 1, i =>
    match intermediate[i]? with
    | none => []
    | some kv =>
      let j := groupEnd intermediate kv.key intermediate.length (i + 1)
      let output := reducef kv.key (groupValues intermediate i j)
      (kv.key, output) :: reduceGroups intermediate fuel j

/-- The file that the records of a sorted list are printed to. -/
def reduceFile (sorted : List KeyValue) : File γ :=
  let records := reduceGroups reducef sorted sorted.length 0
  { bytes := fmt.print records, records := records }

/-- `DoReduce`, where the sort leaves `sorted`. -/
def doReduce (dir : Dir γ) (reply : TaskResponse) (sorted : List KeyValue) : Option (Dir γ) :=
  (readIntermediate fmt dir reply.numMapTasks reply.xTask.reduceId).bind fun intermediate =>
    if IsSort intermediate sorted then
      some (dir.write (outFileName reply.xTask.reduceId) (reduceFile fmt reducef sorted))
    else none

/-- The loop in which `mrsequential` maps the files. -/
def mapFiles (dir : Dir γ) (files : List String) : Option (List KeyValue) :=
  files.foldlM (fun intermediate filename =>
    (dir filename).map fun file => intermediate ++ mapf filename file.bytes) []

/-- The `main` of `mrsequential` on the files of its arguments, where the sort
leaves `sorted`. -/
def sequential (dir : Dir γ) (files : List String) (sorted : List KeyValue) :
    Option (Dir γ) :=
  (mapFiles mapf dir files).bind fun intermediate =>
    if IsSort intermediate sorted then
      some (dir.write "mr-out-0" (reduceFile fmt reducef sorted))
    else none

/-! ## The tasks of a job -/

/-- What a worker is told to do for a map task, as the coordinator numbers
them. -/
def mapReply (files : List String) (nReduce mapId : ℕ) : Option TaskResponse :=
  ((Coordinator.makeCoordinator files nReduce).mapTask[mapId]?).map fun task =>
    { xTask := task, numMapTasks := files.length, numReduceTasks := nReduce, state := .map }

def reduceReply (files : List String) (nReduce reduceId : ℕ) : Option TaskResponse :=
  if reduceId < nReduce then
    some
      { xTask := { reduceId := reduceId }
        numMapTasks := files.length
        numReduceTasks := nReduce
        state := .reduce }
  else none

/-- A worker executes a map task. -/
def mapStep (files : List String) (nReduce : ℕ) (dir : Dir γ) (mapId : ℕ) : Option (Dir γ) :=
  (mapReply files nReduce mapId).bind (doMap fmt mapf dir)

/-- A worker executes a reduce task, where the sort leaves the given list. -/
def reduceStep (files : List String) (nReduce : ℕ) (dir : Dir γ) (task : ℕ × List KeyValue) :
    Option (Dir γ) :=
  (reduceReply files nReduce task.1).bind fun reply => doReduce fmt reducef dir reply task.2

end

end MapReduce

end DistributedLabs
