import Mathlib.Data.List.Sort
import Mathlib.Data.List.Dedup
import Mathlib.Data.String.Basic
import Mathlib.Logic.Function.Basic
import DistributedLabs.Porcupine.Checker

/-!
# The model of a key/value server

The tests give the checker this model of `models/kv.go`. The state is the value of one
key, and a history is split into the parts of the single keys.
-/

namespace DistributedLabs

namespace Porcupine

structure KvInput where
  /-- 0 is a get, 1 a put and 2 an append; everything else is an append that returns the
  old value. -/
  op : UInt8
  key : String
  value : String := ""
deriving DecidableEq, Repr

structure KvOutput where
  value : String := ""
deriving DecidableEq, Repr

abbrev KvOperation := Operation KvInput KvOutput

/-- The map that `Partition` fills, operation by operation. -/
def kvByKey (history : List KvOperation) : String → List KvOperation :=
  history.foldl (fun m v => Function.update m v.input.key (m v.input.key ++ [v])) fun _ => []

/-- `keys` after they were sorted. -/
def kvKeys (history : List KvOperation) : List String :=
  (history.map fun v => v.input.key).dedup.insertionSort (· ≤ ·)

def kvPartition (history : List KvOperation) : List (List KvOperation) :=
  (kvKeys history).map (kvByKey history)

def kvStep (st : String) (inp : KvInput) (out : KvOutput) : Bool × String :=
  if inp.op = 0 then (out.value = st, st)
  else if inp.op = 1 then (true, inp.value)
  else if inp.op = 2 then (true, st ++ inp.value)
  else (out.value = st, st ++ inp.value)

def kvModel : Model String KvInput KvOutput :=
  { partition := some kvPartition, init := "", step := kvStep }

/-! ## The parts -/

theorem kvByKey_eq (history : List KvOperation) (key : String) :
    kvByKey history key = history.filter fun v => v.input.key = key := by
  -- the loop keeps what the map held before
  have hloop : ∀ m : String → List KvOperation,
      history.foldl (fun m v => Function.update m v.input.key (m v.input.key ++ [v])) m key =
        m key ++ history.filter fun v => v.input.key = key := by
    induction history with
    | nil => exact fun m => (List.append_nil _).symm
    | cons v history ih =>
        intro m
        rw [List.foldl_cons, ih]
        by_cases hkey : v.input.key = key
        · subst hkey
          rw [Function.update_self, List.filter_cons_of_pos (by simp), List.append_assoc]
          rfl
        · rw [Function.update_of_ne (Ne.symm hkey), List.filter_cons_of_neg (by simpa using hkey)]
  exact hloop fun _ => []

theorem mem_kvKeys {history : List KvOperation} {key : String} :
    key ∈ kvKeys history ↔ ∃ v ∈ history, v.input.key = key := by
  rw [kvKeys, List.mem_insertionSort, List.mem_dedup, List.mem_map]

theorem mem_kvPartition {history part : List KvOperation} :
    part ∈ kvPartition history ↔
      ∃ key ∈ kvKeys history, (history.filter fun v => v.input.key = key) = part := by
  rw [kvPartition, List.mem_map]
  simp only [kvByKey_eq]

theorem kvPartition_ne_nil {history : List KvOperation} (h : history ≠ []) :
    kvPartition history ≠ [] := by
  obtain ⟨op, hop⟩ := List.exists_mem_of_ne_nil history h
  have hkey : op.input.key ∈ kvKeys history := mem_kvKeys.mpr ⟨op, hop, rfl⟩
  exact List.ne_nil_of_mem (mem_kvPartition.mpr ⟨_, hkey, rfl⟩)

end Porcupine

end DistributedLabs
