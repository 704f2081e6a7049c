import DistributedLabs.Porcupine.Parallel

/-!
# Checking the histories of a key/value server

The checker splits a history by the keys, and the model looks at the value of one key
only. A history is nevertheless checked as a whole: it is a history of a map from keys to
values if and only if each part is a history of a value.
-/

namespace DistributedLabs

namespace Porcupine

/-- A map from keys to values takes an operation. -/
def kvTake (m : String → String) (op : KvOperation) : Option (String → String) :=
  let key := op.input.key
  if op.input.op = 0 then
    if op.output.value = m key then some m else none
  else if op.input.op = 1 then some (Function.update m key op.input.value)
  else if op.input.op = 2 then some (Function.update m key (m key ++ op.input.value))
  else if op.output.value = m key then
    some (Function.update m key (m key ++ op.input.value))
  else none

/-- The history is one of a map in which all values are empty at first. -/
def KvLinearizable (history : List KvOperation) : Prop :=
  HasLinearization kvTake (fun a b => a.ret < b.call) (fun _ => "") history

/-- The map is one value for each key. -/
theorem kvTake_eq_keyed :
    kvTake = keyed (fun op : KvOperation => op.input.key)
      fun st op => (fillDefault kvModel).take st (op.input, op.output) := by
  funext m op
  have hstep : (fillDefault kvModel).step = kvStep := rfl
  unfold kvTake keyed FullModel.take
  rw [hstep]
  by_cases hget : op.input.op = 0
  · by_cases hvalue : op.output.value = m op.input.key
    · simp [kvStep, hget, hvalue]
    · simp [kvStep, hget, hvalue]
  · by_cases hput : op.input.op = 1
    · simp [kvStep, hput]
    · by_cases happend : op.input.op = 2
      · simp [kvStep, happend]
      · by_cases hvalue : op.output.value = m op.input.key
        · simp [kvStep, hget, hput, happend, hvalue]
        · simp [kvStep, hget, hput, happend, hvalue]

theorem kvLinearizable_iff {history : List KvOperation}
    (hvalid : ∀ op ∈ history, op.call ≤ op.ret) :
    KvLinearizable history ↔
      ∀ part ∈ kvPartition history, (fillDefault kvModel).Linearizable part := by
  rw [KvLinearizable, kvTake_eq_keyed, hasLinearization_keyed_iff hvalid]
  constructor
  · intro h part hpart
    obtain ⟨key, -, rfl⟩ := mem_kvPartition.mp hpart
    exact h key
  · intro h key
    by_cases hkey : key ∈ kvKeys history
    · exact h _ (mem_kvPartition.mpr ⟨key, hkey, rfl⟩)
    · -- a key that does not occur has an empty history
      have hnone : (history.filter fun op => op.input.key = key) = [] := by
        refine List.filter_eq_nil_iff.mpr fun op hop => ?_
        rw [decide_eq_true_iff]
        exact fun heq => hkey (mem_kvKeys.mpr ⟨op, hop, heq⟩)
      rw [hnone]
      exact ⟨[], .refl [], .nil, rfl⟩

theorem valid_of_mem_kvPartition {history : List KvOperation}
    (hvalid : ∀ op ∈ history, op.call ≤ op.ret) :
    ∀ part ∈ kvPartition history, ∀ op ∈ part, op.call ≤ op.ret := by
  intro part hpart op hop
  obtain ⟨key, -, rfl⟩ := mem_kvPartition.mp hpart
  exact hvalid op (List.mem_of_mem_filter hop)

section

variable {history : List KvOperation} {entries : List (List (Entry KvInput KvOutput))}
  {verbose hasTimeout : Bool} {acts : List Parallel.Act}
  {s : Parallel String KvInput KvOutput} {result : CheckResult} {info : List Partials}

/-- What `checkOperations` returns about a history of a key/value server. -/
theorem kvLinearizable_of_result (hvalid : ∀ op ∈ history, op.call ≤ op.ret)
    (hentries : List.Forall₂ MakesEntries (kvPartition history) entries)
    (hs : exec (Parallel.step (fillDefault kvModel) verbose hasTimeout)
      (.start (fillDefault kvModel) entries) acts = some s)
    (hreturned : s.phase = .returned result info) :
    (result = .ok → KvLinearizable history) ∧ (result = .illegal → ¬ KvLinearizable history) ∧
      (result = .unknown → hasTimeout = true) := by
  have hverdict := Parallel.verdict_exec (equalSound_fillDefault rfl) hentries
    (valid_of_mem_kvPartition hvalid) hs hreturned
  rw [kvLinearizable_iff hvalid]
  refine ⟨hverdict.ok, fun hillegal hall => ?_, hverdict.unknown⟩
  obtain ⟨part, hpart, hnot⟩ := hverdict.illegal hillegal
  exact hnot (hall part hpart)

/-- The check of a history that is not empty, or that has a timeout, comes to an end. -/
theorem kvReturned_or_exists_step (hvalid : ∀ op ∈ history, op.call ≤ op.ret)
    (hentries : List.Forall₂ MakesEntries (kvPartition history) entries)
    (hs : exec (Parallel.step (fillDefault kvModel) verbose hasTimeout)
      (.start (fillDefault kvModel) entries) acts = some s) :
    acts.length ≤ Parallel.maxSteps ((kvPartition history).map List.length) ∧
      (history ≠ [] ∨ hasTimeout = true → (∃ result info, s.phase = .returned result info) ∨
        ∃ a, (s.step (fillDefault kvModel) verbose hasTimeout a).isSome) := by
  have hparts := valid_of_mem_kvPartition hvalid
  refine ⟨Parallel.length_le_maxSteps (equalSound_fillDefault rfl) hentries hparts hs,
    fun hne => ?_⟩
  exact Parallel.returned_or_exists_step (equalSound_fillDefault rfl) hentries hparts hs
    (hne.imp_left kvPartition_ne_nil)

/-- `CheckOperations` of a history of a key/value server that is not empty, without a
timeout: in every interleaving it returns after a bounded number of steps, and the answer
is whether the history is one of a map from keys to values. -/
theorem checkOperations_kvModel (hne : history ≠ []) (hvalid : ∀ op ∈ history, op.call ≤ op.ret)
    (hentries : List.Forall₂ MakesEntries ((fillDefault kvModel).partition history) entries)
    (hs : exec (Parallel.step (fillDefault kvModel) verbose false)
      (.start (fillDefault kvModel) entries) acts = some s) :
    acts.length ≤ Parallel.maxSteps (((fillDefault kvModel).partition history).map List.length) ∧
      ((∃ result info, s.phase = .returned result info) ∨
        ∃ a, (s.step (fillDefault kvModel) verbose false a).isSome) ∧
      ∀ result info, s.phase = .returned result info →
        (result = .ok ↔ KvLinearizable history) ∧
          (result = .illegal ↔ ¬ KvLinearizable history) := by
  obtain ⟨hle, hgoes⟩ := kvReturned_or_exists_step hvalid hentries hs
  refine ⟨hle, hgoes (Or.inl hne), fun result info hreturned => ?_⟩
  obtain ⟨hok, hillegal, hunknown⟩ := kvLinearizable_of_result hvalid hentries hs hreturned
  cases result with
  | ok =>
      have hlin := hok rfl
      exact ⟨⟨fun _ => hlin, fun _ => rfl⟩, CheckResult.noConfusion, fun hnot => absurd hlin hnot⟩
  | illegal =>
      have hnot := hillegal rfl
      exact ⟨⟨CheckResult.noConfusion, fun hlin => absurd hlin hnot⟩, fun _ => hnot, fun _ => rfl⟩
  | unknown => exact absurd (hunknown rfl) Bool.false_ne_true

end

def getOfEmpty : KvOperation :=
  { clientId := 1, input := { op := 0, key := "y" }, call := 1, output := {}, ret := 3 }

def twoKeys : List KvOperation := [putOfA, getOfEmpty]

def twoKeysEntries : List (List (Entry KvInput KvOutput)) :=
  [[putOfA.callEntry 0, putOfA.returnEntry 0], [getOfEmpty.callEntry 0, getOfEmpty.returnEntry 0]]

/-- The goroutines of the two parts take turns. -/
def checkTwoKeys : List Parallel.Act :=
  [.run 0, .run 1, .run 1, .run 0, .run 0, .run 1, .run 1, .receive, .run 0, .receive, .next]

theorem checkOperations_kvModel_twoKeys :
    ∃ s, exec (Parallel.step (fillDefault kvModel) false false)
        (.start (fillDefault kvModel) twoKeysEntries) checkTwoKeys = some s ∧
      s.phase = .returned .ok [] ∧
      (checkTwoKeys.length ≤
          Parallel.maxSteps (((fillDefault kvModel).partition twoKeys).map List.length) ∧
        ((∃ result info, s.phase = .returned result info) ∨
          ∃ a, (s.step (fillDefault kvModel) false false a).isSome) ∧
        ∀ result info, s.phase = .returned result info →
          (result = .ok ↔ KvLinearizable twoKeys) ∧
            (result = .illegal ↔ ¬ KvLinearizable twoKeys)) :=
  ⟨_, rfl, rfl, checkOperations_kvModel (by decide) (by decide)
    (show List.Forall₂ MakesEntries [[putOfA], [getOfEmpty]] twoKeysEntries from
      .cons ⟨by decide, by decide⟩ (.cons ⟨by decide, by decide⟩ .nil))
    (show exec (Parallel.step (fillDefault kvModel) false false)
      (.start (fillDefault kvModel) twoKeysEntries) checkTwoKeys = some _ from rfl)⟩

end Porcupine

end DistributedLabs
