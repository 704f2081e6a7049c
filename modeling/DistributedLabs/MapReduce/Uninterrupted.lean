import DistributedLabs.MapReduce.Concurrent
import DistributedLabs.Logic.Run
import Mathlib.Logic.Relation

/-!
# Calls that nothing interrupts

A call of `GetTask`, `TaskFin` or `Done` that runs from its beginning to its end with
nothing in between does what the handler of the same name in `Coordinator.lean` does
in one step. What holds of every run of the system holds in particular of the runs in
which the handlers are atomic.
-/

namespace DistributedLabs

namespace MapReduce

open Relation

/-- An operation of a call. -/
inductive Call.Alone (clock : ℕ) : Coordinator × Call → Coordinator × Call → Prop where
  | step {c c' : Coordinator} {call call' : Call} (h : call.step c clock = some (c', call')) :
      Alone clock (c, call) (c', call')
  | visit {c : Coordinator} {call call' : Call} {key : ℕ} (h : call.visit c key = some call') :
      Alone clock (c, call) (c, call')

/-! ## `GetTask` -/

section

variable {c c' : Coordinator} {now : ℕ}

theorem GetTaskCall.alone {call call' : GetTaskCall} (h : call.step c now = some (c', call')) :
    Call.Alone now (c, .getTask call) (c', .getTask call') :=
  .step (by rw [Call.step, h]; rfl)

/-- A call that finds a task in the channel takes it and stores that it is handed
out. -/
theorem take_alone {kind : Kind} {state : Phase} {task : Task} {rest : List Task}
    (h : c.queue kind = task :: rest) :
    ReflTransGen (Call.Alone now) (c, .getTask (.testLen kind state))
      ((c.setQueue rest kind).setStates
        ((c.states kind).insert (task.id kind) { time := now, fin := false }) kind,
        .getTask (.readLen kind state task)) := by
  have htest : (GetTaskCall.testLen kind state).step c now = some (c, .receive kind state) := by
    simp [GetTaskCall.step, h]
  have hreceive : (GetTaskCall.receive kind state).step c now =
      some (c.setQueue rest kind, .readClock kind state task) := by
    simp [GetTaskCall.step, h]
  have hstates : (c.setQueue rest kind).states kind = c.states kind := by
    cases kind <;> rfl
  refine .head (GetTaskCall.alone htest) (.head (GetTaskCall.alone hreceive)
    (.head (GetTaskCall.alone rfl) ?_))
  rw [← hstates]
  exact .single (GetTaskCall.alone rfl)

theorem getTask_alone_map (hstate : c.state = .map) (now : ℕ) :
    ReflTransGen (Call.Alone now) (c, .getTask .loadState)
      ((c.getTask now).1, .getTask (.replied (c.getTask now).2)) := by
  have hload : GetTaskCall.loadState.step c now = some (c, .testLen .map .map) := by
    simp [GetTaskCall.step, hstate]
  refine .head (GetTaskCall.alone hload) ?_
  cases htask : c.mapTask with
  | nil =>
      have htest : (GetTaskCall.testLen .map .map).step c now = some
          (c, .readReduceLen { c.response .map with curNumMapTasks := -1 }) := by
        simp [GetTaskCall.step, Coordinator.queue, htask]
      have hget : c.getTask now = (c,
          { c.response .map with
            curNumMapTasks := -1, curNumReduceTasks := c.reduceTask.length }) := by
        simp [Coordinator.getTask, Coordinator.response, hstate, htask]
      rw [hget]
      exact .head (GetTaskCall.alone htest) (.single (GetTaskCall.alone rfl))
  | cons task rest =>
      have hget : c.getTask now =
          ({ c with
              mapTask := rest
              mapTaskStates := c.mapTaskStates.insert task.mapId { time := now, fin := false } },
            { c.response .map with
              xTask := task
              curNumMapTasks := rest.length
              curNumReduceTasks := c.reduceTask.length }) := by
        simp [Coordinator.getTask, Coordinator.response, hstate, htask]
      have hqueue : c.queue .map = task :: rest := htask
      rw [hget]
      refine (take_alone hqueue).trans ?_
      exact .head (GetTaskCall.alone rfl) (.single (GetTaskCall.alone rfl))

theorem getTask_alone_reduce (hstate : c.state = .reduce) (now : ℕ) :
    ReflTransGen (Call.Alone now) (c, .getTask .loadState)
      ((c.getTask now).1, .getTask (.replied (c.getTask now).2)) := by
  have hload : GetTaskCall.loadState.step c now = some (c, .testState .reduce) := by
    simp [GetTaskCall.step, hstate]
  have htestState : (GetTaskCall.testState .reduce).step c now =
      some (c, .testLen .reduce .reduce) := by
    simp [GetTaskCall.step, hstate]
  refine .head (GetTaskCall.alone hload) (.head (GetTaskCall.alone htestState) ?_)
  cases htask : c.reduceTask with
  | nil =>
      have htest : (GetTaskCall.testLen .reduce .reduce).step c now = some (c, .replied
          { c.response .reduce with curNumReduceTasks := -1, curNumMapTasks := -1 }) := by
        simp [GetTaskCall.step, Coordinator.queue, htask]
      have hget : c.getTask now = (c,
          { c.response .reduce with curNumReduceTasks := -1, curNumMapTasks := -1 }) := by
        simp [Coordinator.getTask, Coordinator.response, hstate, htask]
      rw [hget]
      exact .single (GetTaskCall.alone htest)
  | cons task rest =>
      have hget : c.getTask now =
          ({ c with
              reduceTask := rest
              reduceTaskStates :=
                c.reduceTaskStates.insert task.reduceId { time := now, fin := false } },
            { c.response .reduce with
              xTask := task, curNumReduceTasks := rest.length, curNumMapTasks := -1 }) := by
        simp [Coordinator.getTask, Coordinator.response, hstate, htask]
      have hqueue : c.queue .reduce = task :: rest := htask
      rw [hget]
      refine (take_alone hqueue).trans ?_
      exact .single (GetTaskCall.alone rfl)

theorem getTask_alone (c : Coordinator) (now : ℕ) :
    ReflTransGen (Call.Alone now) (c, .getTask .loadState)
      ((c.getTask now).1, .getTask (.replied (c.getTask now).2)) := by
  cases hstate : c.state with
  | map => exact getTask_alone_map hstate now
  | reduce => exact getTask_alone_reduce hstate now
  | finished =>
      have hload : GetTaskCall.loadState.step c now = some (c, .testState .finished) := by
        simp [GetTaskCall.step, hstate]
      have htestState : (GetTaskCall.testState .finished).step c now =
          some (c, .replied (c.response .finished)) := by
        simp [GetTaskCall.step, hstate]
      have hget : c.getTask now = (c, c.response .finished) := by
        simp [Coordinator.getTask, Coordinator.response, hstate]
      rw [hget]
      exact .head (GetTaskCall.alone hload) (.single (GetTaskCall.alone htestState))

/-! ## `lenTaskFin` -/

/-- A `Range` goes on while its table stays as it is. -/
def Ranging.Visits (m : TaskStates) (r r' : Ranging) : Prop := ∃ key, r.visit m key = some r'

/-- The entries that are left are visited one after the other. -/
theorem visits_entries {m : TaskStates} {es : List (Sigma fun _ : ℕ => TaskState)} {r : Ranging}
    (hes : ∀ e ∈ es, e ∈ m.entries) (hnodup : es.NodupKeys) (hr : ∀ e ∈ es, e.1 ∉ r.visited) :
    ∃ r', ReflTransGen (Ranging.Visits m) r r' ∧ r'.start = r.start ∧
      (∀ key ∈ r.visited, key ∈ r'.visited) ∧ (∀ e ∈ es, e.1 ∈ r'.visited) ∧
      r'.len = r.len + (es.filter fun e => e.2.fin).length := by
  induction es generalizing r with
  | nil => exact ⟨r, .refl, rfl, fun _ => id, fun e he => absurd he List.not_mem_nil, rfl⟩
  | cons e es ih =>
      obtain ⟨hnew, hnodup⟩ := List.nodupKeys_cons.mp hnodup
      have hlookup : m.lookup e.1 = some e.2 :=
        AList.mem_lookup_iff.mpr (hes e List.mem_cons_self)
      let r₁ : Ranging :=
        { r with
          visited := e.1 :: r.visited
          len := if e.2.fin then r.len + 1 else r.len }
      have hvisit : r.visit m e.1 = some r₁ := by
        rw [Ranging.visit, if_neg (hr e List.mem_cons_self), hlookup]
        rfl
      have hr₁ : ∀ e' ∈ es, e'.1 ∉ r₁.visited := by
        intro e' he' hmem
        rcases List.mem_cons.mp hmem with heq | hmem
        · exact hnew (heq ▸ List.mem_map_of_mem he')
        · exact hr e' (List.mem_cons_of_mem e he') hmem
      obtain ⟨r', hvisits, hstart, hold, hall, hlen⟩ :=
        ih (fun e' he' => hes e' (List.mem_cons_of_mem e he')) hnodup hr₁
      refine ⟨r', .head ⟨e.1, hvisit⟩ hvisits, hstart,
        fun key hkey => hold key (List.mem_cons_of_mem _ hkey),
        List.forall_mem_cons.mpr ⟨hold e.1 List.mem_cons_self, hall⟩, ?_⟩
      have hlen₁ : r₁.len = if e.2.fin then r.len + 1 else r.len := rfl
      rw [hlen, hlen₁, List.filter_cons]
      cases e.2.fin with
      | true =>
          rw [if_pos rfl, if_pos rfl, List.length_cons]
          omega
      | false => rfl

/-- Undisturbed, the `Range` of `lenTaskFin` counts the finished tasks. -/
theorem exists_visits (m : TaskStates) :
    ∃ r, ReflTransGen (Ranging.Visits m) (.begun m) r ∧ r.isOver = true ∧ r.len = lenTaskFin m := by
  obtain ⟨r, hvisits, hstart, -, hall, hlen⟩ := visits_entries (m := m) (r := .begun m)
    (fun _ => id) m.nodupKeys fun _ _ => List.not_mem_nil
  refine ⟨r, hvisits, ?_, hlen.trans (Nat.zero_add _)⟩
  rw [Ranging.isOver, hstart, List.all_eq_true]
  intro key hkey
  obtain ⟨e, he, rfl⟩ := List.mem_map.mp hkey
  exact decide_eq_true (hall e he)

/-! ## `TaskFin` -/

theorem TaskFinCall.alone {call call' : TaskFinCall} (h : call.step c now = some (c', call')) :
    Call.Alone now (c, .taskFin call) (c', .taskFin call') :=
  .step (by rw [Call.step, h]; rfl)

/-- Undisturbed, a count ends with the number of finished tasks. -/
theorem TaskFinCall.count_alone (c : Coordinator) (kind : Kind) (stored : Bool) (task : Task)
    (now : ℕ) :
    ReflTransGen (Call.Alone now) (c, .taskFin (.beginCount kind stored task now))
      (c, .taskFin (.afterCount c kind stored task now (lenTaskFin (c.states kind)))) := by
  obtain ⟨r, hvisits, hover, hlen⟩ := exists_visits (c.states kind)
  have hcount : ReflTransGen (Call.Alone now)
      (c, .taskFin (.count kind stored task now (.begun (c.states kind))))
      (c, .taskFin (.count kind stored task now r)) := by
    refine hvisits.lift (fun r => (c, Call.taskFin (.count kind stored task now r))) ?_
    rintro r r' ⟨key, hkey⟩
    have hvisit : Call.visit c key (.taskFin (.count kind stored task now r)) =
        some (.taskFin (.count kind stored task now r')) := by
      rw [Call.visit, TaskFinCall.visit, hkey]
      rfl
    exact .visit hvisit
  have hend : (TaskFinCall.count kind stored task now r).step c now =
      some (c, .afterCount c kind stored task now (lenTaskFin (c.states kind))) := by
    rw [TaskFinCall.step, if_pos hover, hlen]
  exact .head (TaskFinCall.alone rfl) (hcount.tail (TaskFinCall.alone hend))

/-- The loop that sends the reduce tasks, from `i` on. -/
theorem TaskFinCall.send_alone {k i : ℕ} {chan : List Task} (hi : i + k = c.numReduceTasks)
    (h : (List.range' i k).foldlM
      (fun chan i => Coordinator.send c.numReduceTasks chan { reduceId := i }) c.reduceTask =
        some chan) :
    ReflTransGen (Call.Alone now) (c, .taskFin (.send i))
      ({ c with reduceTask := chan }, .taskFin .returned) := by
  induction k generalizing c i with
  | zero =>
      obtain rfl := Option.some.inj h
      refine .single (TaskFinCall.alone ?_)
      rw [TaskFinCall.step, if_neg (by omega)]
  | succ k ih =>
      rw [List.range'_succ, List.foldlM_cons] at h
      obtain ⟨chan₁, hsend, h⟩ := Option.bind_eq_some_iff.mp h
      have hstep : (TaskFinCall.send i).step c now =
          some ({ c with reduceTask := chan₁ }, .send (i + 1)) := by
        rw [TaskFinCall.step, if_pos (by omega), hsend]
        rfl
      have hrest : i + 1 + k = Coordinator.numReduceTasks { c with reduceTask := chan₁ } := by
        change i + 1 + k = c.numReduceTasks
        omega
      exact .head (TaskFinCall.alone hstep) (ih hrest h)

/-- A report is stored, and the finished tasks are counted again. -/
theorem TaskFinCall.store_alone (c : Coordinator) (kind : Kind) (task : Task) (now : ℕ)
    {call : TaskFinCall}
    (h : (if lenTaskFin ((c.states kind).insert (task.id kind) { time := now, fin := true }) =
      c.numTasks kind then .setState kind else .returned) = call) :
    ReflTransGen (Call.Alone now) (c, .taskFin (.storeState kind task now))
      (c.setStates ((c.states kind).insert (task.id kind) { time := now, fin := true }) kind,
        .taskFin call) := by
  subst h
  refine .head (TaskFinCall.alone rfl) ?_
  cases kind with
  | map => exact TaskFinCall.count_alone _ .map true task now
  | reduce => exact TaskFinCall.count_alone _ .reduce true task now

theorem mapFin_alone {task : Task} (h : c.mapFin task now = some c') :
    ReflTransGen (Call.Alone now) (c, .taskFin (.loadState .map task now))
      (c', .taskFin .returned) := by
  obtain ⟨curState, hcur, h⟩ := Option.bind_eq_some_iff.mp h
  have hload : (TaskFinCall.loadState .map task now).step c now =
      some (c, if curState.isLate now then .returned else .storeState .map task now) := by
    change ((c.mapTaskStates.lookup task.mapId).map _) = _
    rw [hcur]
    rfl
  refine .head (TaskFinCall.alone hload) ?_
  dsimp only at h
  split at h
  · rename_i hlate
    obtain rfl := Option.some.inj h
    rw [if_pos hlate]
  · rename_i hlate
    rw [if_neg hlate]
    split at h
    · rename_i hlen
      obtain ⟨chan, hchan, rfl⟩ := Option.map_eq_some_iff.mp h
      rw [List.range_eq_range'] at hchan
      exact (TaskFinCall.store_alone c .map task now (if_pos hlen)).trans
        (.head (TaskFinCall.alone rfl) (TaskFinCall.send_alone (Nat.zero_add _) hchan))
    · rename_i hlen
      obtain rfl := Option.some.inj h
      exact TaskFinCall.store_alone c .map task now (if_neg hlen)

theorem reduceFin_alone {task : Task} (h : c.reduceFin task now = some c') :
    ReflTransGen (Call.Alone now) (c, .taskFin (.loadState .reduce task now))
      (c', .taskFin .returned) := by
  obtain ⟨curState, hcur, rfl⟩ := Option.map_eq_some_iff.mp h
  have hload : (TaskFinCall.loadState .reduce task now).step c now =
      some (c, if curState.isLate now then .returned else .storeState .reduce task now) := by
    change ((c.reduceTaskStates.lookup task.reduceId).map _) = _
    rw [hcur]
    rfl
  refine .head (TaskFinCall.alone hload) ?_
  dsimp only
  split
  · exact .refl
  · split
    · rename_i hlen
      exact (TaskFinCall.store_alone c .reduce task now (if_pos hlen)).tail
        (TaskFinCall.alone rfl)
    · rename_i hlen
      exact TaskFinCall.store_alone c .reduce task now (if_neg hlen)

theorem taskFin_alone {task : Task} (h : c.taskFin task now = some c') :
    ReflTransGen (Call.Alone now) (c, .taskFin (.readClock task)) (c', .taskFin .returned) := by
  have hmaps := TaskFinCall.count_alone c .map false task now
  have hreduces := TaskFinCall.count_alone c .reduce false task now
  unfold TaskFinCall.afterCount at hmaps hreduces
  refine .head (TaskFinCall.alone rfl) ?_
  unfold Coordinator.taskFin at h
  split at h
  · rename_i hlen
    rw [if_neg (show ¬ lenTaskFin (c.states .map) = c.numTasks .map from hlen)] at hmaps
    exact hmaps.trans (mapFin_alone h)
  · rename_i hlen
    rw [if_pos (show lenTaskFin (c.states .map) = c.numTasks .map from not_not.mp hlen)] at hmaps
    refine hmaps.trans ?_
    split at h
    · rename_i hlen'
      rw [if_neg (show ¬ lenTaskFin (c.states .reduce) = c.numTasks .reduce from hlen')]
        at hreduces
      exact hreduces.trans (reduceFin_alone h)
    · rename_i hlen'
      obtain rfl := Option.some.inj h
      rwa [if_pos (show lenTaskFin (c.states .reduce) = c.numTasks .reduce from
        not_not.mp hlen')] at hreduces

/-! ## `Done` -/

theorem DoneCall.alone {call call' : DoneCall} (h : call.step c now = some (c', call')) :
    Call.Alone now (c, .done call) (c', .done call') :=
  .step (by rw [Call.step, h]; rfl)

/-- A round of the loop of `TimeTick` over the tasks of a phase. -/
def Coordinator.requeueRound (c : Coordinator) (kind : Kind) (now : ℕ) (chan : List Task)
    (i : ℕ) : Option (List Task) :=
  match (c.states kind).lookup i with
  | none => some chan
  | some st =>
    if st.fin = false ∧ st.isLate now = true then
      (c.retry i kind).bind (Coordinator.send (c.numTasks kind) chan)
    else some chan

theorem Coordinator.requeueRound_setQueue (c : Coordinator) (chan : List Task) (kind : Kind)
    (now : ℕ) : (c.setQueue chan kind).requeueRound kind now = c.requeueRound kind now := by
  cases kind <;> rfl

theorem DoneCall.round_alone {kind : Kind} {i : ℕ} {chan : List Task}
    (hi : i < c.numTasks kind)
    (h : c.requeueRound kind now (c.queue kind) i = some chan) :
    ReflTransGen (Call.Alone now) (c, .done (.testKey kind now i))
      (c.setQueue chan kind, .done (.testKey kind now (i + 1))) := by
  unfold Coordinator.requeueRound at h
  cases hlookup : (c.states kind).lookup i with
  | none =>
      rw [hlookup] at h
      obtain rfl := Option.some.inj h
      have htest : (DoneCall.testKey kind now i).step c now =
          some (c, .testKey kind now (i + 1)) := by
        rw [DoneCall.step, if_pos hi, hlookup]
      rw [Coordinator.setQueue_queue]
      exact .single (DoneCall.alone htest)
  | some st =>
      rw [hlookup] at h
      dsimp only at h
      have htest : (DoneCall.testKey kind now i).step c now = some (c, .loadTask kind now i) := by
        rw [DoneCall.step, if_pos hi, hlookup]
      have hload : (DoneCall.loadTask kind now i).step c now = some (c,
          if st.fin = false ∧ st.isLate now = true then .send kind now i
          else .testKey kind now (i + 1)) := by
        rw [DoneCall.step, hlookup]
        rfl
      refine .head (DoneCall.alone htest) (.head (DoneCall.alone hload) ?_)
      by_cases hlate : st.fin = false ∧ st.isLate now = true
      · rw [if_pos hlate] at h ⊢
        obtain ⟨task, htask, hsend⟩ := Option.bind_eq_some_iff.mp h
        refine .single (DoneCall.alone ?_)
        rw [DoneCall.step, htask, Option.bind_some, hsend]
        rfl
      · rw [if_neg hlate] at h ⊢
        obtain rfl := Option.some.inj h
        rw [Coordinator.setQueue_queue]

/-- The loop of `TimeTick`, from `i` on. -/
theorem DoneCall.loop_alone (c : Coordinator) (kind : Kind) {k i : ℕ} {chan : List Task}
    (hi : i + k = c.numTasks kind)
    (h : (List.range' i k).foldlM (c.requeueRound kind now) (c.queue kind) = some chan) :
    ReflTransGen (Call.Alone now) (c, .done (.testKey kind now i))
      (c.setQueue chan kind, .done .beginCount) := by
  induction k generalizing c i with
  | zero =>
      obtain rfl := Option.some.inj h
      rw [Coordinator.setQueue_queue]
      refine .single (DoneCall.alone ?_)
      rw [DoneCall.step, if_neg (by omega)]
  | succ k ih =>
      rw [List.range'_succ, List.foldlM_cons] at h
      obtain ⟨chan₁, hround, h⟩ := Option.bind_eq_some_iff.mp h
      have hi₁ : i + 1 + k = (c.setQueue chan₁ kind).numTasks kind := by
        rw [Coordinator.setQueue_numTasks]
        omega
      have hrest := ih (c.setQueue chan₁ kind) hi₁ (by
        rw [Coordinator.requeueRound_setQueue, Coordinator.queue_setQueue]
        exact h)
      rw [Coordinator.setQueue_setQueue] at hrest
      exact (DoneCall.round_alone (by omega) hround).trans hrest

/-- Undisturbed, the count at the end of `Done` gives the number of finished reduce
tasks. -/
theorem DoneCall.count_alone (c : Coordinator) (now : ℕ) :
    ReflTransGen (Call.Alone now) (c, .done .beginCount)
      (c, .done (.returned (lenTaskFin c.reduceTaskStates = c.numReduceTasks))) := by
  obtain ⟨r, hvisits, hover, hlen⟩ := exists_visits c.reduceTaskStates
  have hcount : ReflTransGen (Call.Alone now)
      (c, .done (.count (.begun c.reduceTaskStates))) (c, .done (.count r)) := by
    refine hvisits.lift (fun r => (c, Call.done (.count r))) ?_
    rintro r r' ⟨key, hkey⟩
    have hvisit : Call.visit c key (.done (.count r)) = some (.done (.count r')) := by
      rw [Call.visit, DoneCall.visit, hkey]
      rfl
    exact .visit hvisit
  have hend : (DoneCall.count r).step c now =
      some (c, .returned (lenTaskFin c.reduceTaskStates = c.numReduceTasks)) := by
    rw [DoneCall.step, if_pos hover, hlen]
  exact .head (DoneCall.alone rfl) (hcount.tail (DoneCall.alone hend))

theorem timeTick_alone (h : c.timeTick now = some c') :
    ReflTransGen (Call.Alone now) (c, .done .loadState) (c', .done .beginCount) := by
  unfold Coordinator.timeTick at h
  split at h
  · rename_i hstate
    obtain ⟨chan, hchan, rfl⟩ := Option.map_eq_some_iff.mp h
    have hload : DoneCall.loadState.step c now = some (c, .readClock .map) := by
      simp [DoneCall.step, hstate]
    rw [Coordinator.requeue, List.range_eq_range'] at hchan
    exact .head (DoneCall.alone hload) (.head (DoneCall.alone rfl)
      (DoneCall.loop_alone c .map (Nat.zero_add _) hchan))
  · rename_i hstate
    obtain ⟨chan, hchan, rfl⟩ := Option.map_eq_some_iff.mp h
    have hload : DoneCall.loadState.step c now = some (c, .readClock .reduce) := by
      simp [DoneCall.step, hstate]
    rw [Coordinator.requeue, List.range_eq_range'] at hchan
    exact .head (DoneCall.alone hload) (.head (DoneCall.alone rfl)
      (DoneCall.loop_alone c .reduce (Nat.zero_add _) hchan))
  · rename_i hstate
    obtain rfl := Option.some.inj h
    have hload : DoneCall.loadState.step c now = some (c, .beginCount) := by
      simp [DoneCall.step, hstate]
    exact .single (DoneCall.alone hload)

theorem done_alone {ret : Bool} (h : c.done now = some (c', ret)) :
    ReflTransGen (Call.Alone now) (c, .done .loadState) (c', .done (.returned ret)) := by
  obtain ⟨c₁, hc₁, he⟩ := Option.map_eq_some_iff.mp h
  obtain ⟨rfl, rfl⟩ := Prod.mk.inj he
  exact (timeTick_alone hc₁).trans (DoneCall.count_alone c₁ now)

end

/-! ## Runs of the system -/

namespace System

variable {γ : Type*} (fmt : Format γ) (mapf : String → γ → List KeyValue)
  (reducef : String → List String → String)

/-- What a call does alone is a run of the system. -/
theorem exec_alone {s : System γ} {t : ℕ} {call call' : Call} {c' : Coordinator}
    (ht : s.calls[t]? = some call)
    (h : ReflTransGen (Call.Alone s.clock) (s.coordinator, call) (c', call')) :
    ∃ acts, exec (step fmt mapf reducef) s acts =
      some { s with coordinator := c', calls := s.calls.set t call' } := by
  obtain ⟨hlt, hcall⟩ := List.getElem?_eq_some_iff.mp ht
  have hself : s.calls.set t call = s.calls := by
    rw [← hcall]
    exact List.set_getElem_self hlt
  have hrun : ∀ p, ReflTransGen (Call.Alone s.clock) (s.coordinator, call) p →
      ∃ acts, exec (step fmt mapf reducef) s acts =
        some { s with coordinator := p.1, calls := s.calls.set t p.2 } := by
    intro p hp
    induction hp with
    | refl =>
        refine ⟨[], congrArg some ?_⟩
        rw [hself]
    | tail _ hlast ih =>
        obtain ⟨acts, hacts⟩ := ih
        cases hlast with
        | step hstep =>
            refine ⟨acts ++ [.run t], exec_append_eq_some.mpr ⟨_, hacts, ?_⟩⟩
            rw [exec_cons, step, List.getElem?_set_self hlt, Option.bind_some, hstep,
              Option.map_some, Option.bind_some, List.set_set]
            rfl
        | @visit _ _ _ key hvisit =>
            refine ⟨acts ++ [.visit t key], exec_append_eq_some.mpr ⟨_, hacts, ?_⟩⟩
            rw [exec_cons, step, List.getElem?_set_self hlt, Option.bind_some, hvisit,
              Option.map_some, Option.bind_some, List.set_set]
            rfl
  exact hrun (c', call') h

/-- What a new call does alone, from its beginning to its end. -/
theorem exec_call {s : System γ} {call call' : Call} {c' : Coordinator}
    (h : ReflTransGen (Call.Alone s.clock) (s.coordinator, call) (c', call')) :
    ∃ acts, exec (step fmt mapf reducef) { s with calls := s.calls ++ [call] } acts =
      some { s with coordinator := c', calls := s.calls ++ [call'] } := by
  have hnew : (s.calls ++ [call])[s.calls.length]? = some call := List.getElem?_concat_length
  obtain ⟨acts, hacts⟩ :=
    exec_alone fmt mapf reducef (s := { s with calls := s.calls ++ [call] }) hnew h
  rw [List.set_append_right _ _ le_rfl, Nat.sub_self, List.set_cons_zero] at hacts
  exact ⟨acts, hacts⟩

/-- A worker asks for a task, and nothing happens until it has the reply. -/
theorem exec_getTask (s : System γ) :
    ∃ acts, exec (step fmt mapf reducef) s acts = some
      { s with
        coordinator := (s.coordinator.getTask s.clock).1
        calls := s.calls ++ [.returned]
        handouts := s.handouts ++ ((s.coordinator.getTask s.clock).2.kind.map fun kind =>
          { kind := kind, reply := (s.coordinator.getTask s.clock).2 }).toList } := by
  obtain ⟨acts, hacts⟩ := exec_call fmt mapf reducef (getTask_alone s.coordinator s.clock)
  refine ⟨.getTask :: (acts ++ [.receive s.calls.length]), ?_⟩
  rw [exec_cons, step, Option.bind_some]
  refine exec_append_eq_some.mpr ⟨_, hacts, ?_⟩
  rw [exec_cons, step, List.getElem?_concat_length, Option.bind_some]
  change (Option.map _ (some _)).bind _ = _
  rw [Option.map_some, Option.bind_some, List.set_append_right _ _ le_rfl, Nat.sub_self,
    List.set_cons_zero]
  rfl

/-- A worker reports a task that it has completed, and nothing happens until the call
returns. -/
theorem exec_taskFin {s : System γ} {k : ℕ} {h : Handout} {c' : Coordinator}
    (hk : s.handouts[k]? = some h) (hdone : h.progress = .done)
    (hfin : s.coordinator.taskFin h.reply.xTask s.clock = some c') :
    ∃ acts, exec (step fmt mapf reducef) s acts =
      some { s with coordinator := c', calls := s.calls ++ [.taskFin .returned] } := by
  obtain ⟨acts, hacts⟩ := exec_call fmt mapf reducef (taskFin_alone hfin)
  refine ⟨.taskFin k :: acts, ?_⟩
  rw [exec_cons, step, hk, Option.bind_some, if_pos hdone, Option.bind_some]
  exact hacts

/-- `Done` is called, and nothing happens until it returns. -/
theorem exec_done {s : System γ} {c' : Coordinator} {ret : Bool}
    (h : s.coordinator.done s.clock = some (c', ret)) :
    ∃ acts, exec (step fmt mapf reducef) s acts =
      some { s with coordinator := c', calls := s.calls ++ [.done (.returned ret)] } := by
  obtain ⟨acts, hacts⟩ := exec_call fmt mapf reducef (done_alone h)
  exact ⟨.done :: acts, hacts⟩

end System

end MapReduce

end DistributedLabs
