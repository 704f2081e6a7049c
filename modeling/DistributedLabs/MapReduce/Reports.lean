import DistributedLabs.MapReduce.Completion
import DistributedLabs.MapReduce.Concurrent

/-!
# Reports that find no entry

`TaskFin` loads the entry of the task that is reported and asserts its type, which
panics if there is none. `GetTask` stores an entry whenever it hands out a task, and
no entry is ever deleted. But a map task that is reported after all map tasks have
been finished is looked up among the reduce tasks, under the id 0, and reduce task 0
may not have been handed out yet.
-/

namespace DistributedLabs

namespace MapReduce

/-- The phase in which tasks of a kind are handed out. -/
def Kind.phase : Kind → Phase
  | .map => .map
  | .reduce => .reduce

namespace Coordinator

/-- The kind that `TaskFin` takes a report to be about, by what is unfinished. -/
def reportKind (c : Coordinator) : Option Kind :=
  if lenTaskFin c.mapTaskStates ≠ c.numMapTasks then some .map
  else if lenTaskFin c.reduceTaskStates ≠ c.numReduceTasks then some .reduce
  else none

/-- The type assertion of `TaskFin`, if it comes to that, is about a stored entry. -/
def FindsEntry (c : Coordinator) (task : Task) : Prop :=
  ∀ kind ∈ c.reportKind, ((c.states kind).lookup (task.id kind)).isSome

end Coordinator

/-! ## What each step does -/

namespace Coordinator

/-- Store the state of a task of a kind. -/
def store (c : Coordinator) (kind : Kind) (id : ℕ) (st : TaskState) : Coordinator :=
  c.setStates ((c.states kind).insert id st) kind

section

variable (c : Coordinator) (kind kind' : Kind) (id : ℕ) (st : TaskState) (chan : List Task)

@[simp] theorem store_queue : (c.store kind id st).queue kind' = c.queue kind' := by
  cases kind <;> cases kind' <;> rfl

theorem store_states_self : (c.store kind id st).states kind = (c.states kind).insert id st := by
  cases kind <;> rfl

theorem store_states_of_ne (h : kind' ≠ kind) :
    (c.store kind id st).states kind' = c.states kind' := by
  cases kind <;> cases kind' <;> first | rfl | exact absurd rfl h

@[simp] theorem setQueue_states : (c.setQueue chan kind).states kind' = c.states kind' := by
  cases kind <;> cases kind' <;> rfl

theorem setQueue_queue_of_ne (h : kind' ≠ kind) :
    (c.setQueue chan kind).queue kind' = c.queue kind' := by
  cases kind <;> cases kind' <;> first | rfl | exact absurd rfl h

end

/-- The coordinator believes a report. -/
structure Believes (c : Coordinator) (task : Task) (now : ℕ) (kind : Kind) : Prop where
  taken : c.reportKind = some kind
  entry : ∃ st, (c.states kind).lookup (task.id kind) = some st ∧ st.isLate now = false

/-- The coordinator after it has stored a report. -/
def stored (c : Coordinator) (task : Task) (now : ℕ) (kind : Kind) : Coordinator :=
  c.store kind (task.id kind) { time := now, fin := true }

/-- A report is ignored, or stored, or stored as the last one of its phase. -/
theorem taskFin_cases {c c' : Coordinator} {task : Task} {now : ℕ}
    (h : c.taskFin task now = some c') :
    c' = c ∨ ∃ kind, c.Believes task now kind ∧ (c' = c.stored task now kind ∨
      lenTaskFin ((c.stored task now kind).states kind) = c.numTasks kind ∧
        ((∃ chan, kind = .map ∧
            c' = { c.stored task now kind with state := .reduce, reduceTask := chan }) ∨
          kind = .reduce ∧ c' = { c.stored task now kind with state := .finished })) := by
  unfold taskFin at h
  split at h
  · rename_i hmap
    have htaken : c.reportKind = some .map := if_pos hmap
    obtain ⟨st, hst, h⟩ := Option.bind_eq_some_iff.mp h
    dsimp only at h
    split at h
    · exact Or.inl (Option.some.inj h).symm
    · rename_i hlate
      refine Or.inr ⟨.map, ⟨htaken, st, hst, Bool.not_eq_true _ ▸ hlate⟩, ?_⟩
      split at h
      · rename_i hlen
        obtain ⟨chan, -, rfl⟩ := Option.map_eq_some_iff.mp h
        exact Or.inr ⟨hlen, Or.inl ⟨chan, rfl, rfl⟩⟩
      · exact Or.inl (Option.some.inj h).symm
  · rename_i hmap
    split at h
    · rename_i hreduce
      have htaken : c.reportKind = some .reduce := by
        rw [reportKind, if_neg hmap, if_pos hreduce]
      obtain ⟨st, hst, rfl⟩ := Option.map_eq_some_iff.mp h
      dsimp only
      split
      · exact Or.inl rfl
      · rename_i hlate
        refine Or.inr ⟨.reduce, ⟨htaken, st, hst, Bool.not_eq_true _ ▸ hlate⟩, ?_⟩
        split
        · rename_i hlen
          exact Or.inr ⟨hlen, Or.inr ⟨rfl, rfl⟩⟩
        · exact Or.inl rfl
    · exact Or.inl (Option.some.inj h).symm

/-- `TimeTick` sends tasks again to the channel of the phase. -/
theorem timeTick_cases {c c' : Coordinator} {now : ℕ} (h : c.timeTick now = some c') :
    c' = c ∨ ∃ kind chan, c.state = kind.phase ∧
      requeue (c.states kind) now (c.numTasks kind) (fun i => c.retry i kind) (c.queue kind) =
        some chan ∧ c' = c.setQueue chan kind := by
  unfold timeTick at h
  split at h
  · rename_i hstate
    obtain ⟨chan, hchan, rfl⟩ := Option.map_eq_some_iff.mp h
    exact Or.inr ⟨.map, chan, hstate, hchan, rfl⟩
  · rename_i hstate
    obtain ⟨chan, hchan, rfl⟩ := Option.map_eq_some_iff.mp h
    exact Or.inr ⟨.reduce, chan, hstate, hchan, rfl⟩
  · exact Or.inl (Option.some.inj h).symm

end Coordinator

namespace Job

/-- The tasks that have been handed out, with the kind that the worker was told. -/
def handed (j : Job) : List (Kind × Task) := j.assigned.map fun a => (a.kind, a.task)

/-- A step hands out a task, believes a report, sends tasks again, or changes nothing
that the coordinator or a worker sees. -/
inductive Effect (j j' : Job) : Act → Prop where
  | quiet (a : Act) (coordinator : j'.coordinator = j.coordinator) (handed : j'.handed = j.handed) :
      Effect j j' a
  | give (now : ℕ) (kind : Kind) (task : Task) (rest : List Task)
      (state : j.coordinator.state = kind.phase)
      (queue : j.coordinator.queue kind = task :: rest)
      (coordinator : j'.coordinator = (j.coordinator.setQueue rest kind).store kind (task.id kind)
        { time := now, fin := false })
      (handed : j'.handed = j.handed ++ [(kind, task)]) : Effect j j' (.getTask now)
  | report (k now : ℕ) (a : Assignment) (kind : Kind) (assigned : j.assigned[k]? = some a)
      (believed : j.coordinator.Believes a.task now kind)
      (coordinator : j'.coordinator = j.coordinator.stored a.task now kind)
      (handed : j'.handed = j.handed) : Effect j j' (.taskFin k now)
  | mapsDone (k now : ℕ) (a : Assignment) (chan : List Task) (assigned : j.assigned[k]? = some a)
      (believed : j.coordinator.Believes a.task now .map)
      (full : lenTaskFin (j.coordinator.stored a.task now .map).mapTaskStates =
        j.coordinator.numMapTasks)
      (coordinator : j'.coordinator = { j.coordinator.stored a.task now .map with
        state := .reduce, reduceTask := chan })
      (handed : j'.handed = j.handed) : Effect j j' (.taskFin k now)
  | reducesDone (k now : ℕ) (a : Assignment) (assigned : j.assigned[k]? = some a)
      (believed : j.coordinator.Believes a.task now .reduce)
      (coordinator : j'.coordinator = { j.coordinator.stored a.task now .reduce with
        state := .finished })
      (handed : j'.handed = j.handed) : Effect j j' (.taskFin k now)
  | requeue (now : ℕ) (kind : Kind) (chan : List Task) (state : j.coordinator.state = kind.phase)
      (sent : Coordinator.requeue (j.coordinator.states kind) now (j.coordinator.numTasks kind)
        (fun i => j.coordinator.retry i kind) (j.coordinator.queue kind) = some chan)
      (coordinator : j'.coordinator = j.coordinator.setQueue chan kind)
      (handed : j'.handed = j.handed) : Effect j j' (.done now)

theorem handed_concat (c : Coordinator) (assigned : List Assignment) (a : Assignment) (clock : ℕ) :
    (Job.mk c (assigned ++ [a]) clock).handed =
      assigned.map (fun a => (a.kind, a.task)) ++ [(a.kind, a.task)] := by
  simp [handed]

theorem effect_of_step {j j' : Job} {a : Act} (h : j.step a = some j') : Effect j j' a := by
  cases a with
  | getTask now =>
      simp only [step] at h
      split at h
      · obtain rfl := Option.some.inj h
        rcases getTask_cases j now with
          ⟨task, rest, hstate, hqueue, he⟩ | ⟨task, rest, hstate, hqueue, he⟩ | he
        · rw [he]
          exact .give now .map task rest hstate hqueue rfl (handed_concat _ _ _ _)
        · rw [he]
          exact .give now .reduce task rest hstate hqueue rfl (handed_concat _ _ _ _)
        · rw [he]
          exact .quiet _ rfl rfl
      · cases h
  | work k =>
      obtain ⟨a, ha, rfl⟩ := Option.map_eq_some_iff.mp h
      exact .quiet _ rfl (map_set_of_eq ha rfl)
  | taskFin k now =>
      simp only [step] at h
      split at h
      · obtain ⟨a, ha, h⟩ := Option.bind_eq_some_iff.mp h
        split at h
        · obtain ⟨c, hc, rfl⟩ := Option.map_eq_some_iff.mp h
          rcases Coordinator.taskFin_cases hc with rfl | ⟨kind, hbel, rfl | ⟨hfull, hlast⟩⟩
          · exact .quiet _ rfl rfl
          · exact .report k now a kind ha hbel rfl rfl
          · rcases hlast with ⟨chan, rfl, rfl⟩ | ⟨rfl, rfl⟩
            · exact .mapsDone k now a chan ha hbel hfull rfl rfl
            · exact .reducesDone k now a ha hbel rfl rfl
        · cases h
      · cases h
  | done now =>
      simp only [step] at h
      split at h
      · obtain ⟨r, hr, rfl⟩ := Option.map_eq_some_iff.mp h
        obtain ⟨c, hc, rfl⟩ := Option.map_eq_some_iff.mp hr
        rcases Coordinator.timeTick_cases hc with rfl | ⟨kind, chan, hstate, hsent, rfl⟩
        · exact .quiet _ rfl rfl
        · exact .requeue now kind chan hstate hsent rfl rfl
      · cases h

/-! ## The entries of the tasks that have been handed out -/

theorem isSome_lookup_store {c : Coordinator} {kind kind' : Kind} {k id : ℕ} {st : TaskState}
    (h : ((c.states kind').lookup k).isSome) :
    (((c.store kind id st).states kind').lookup k).isSome := by
  by_cases hkind : kind' = kind
  · subst hkind
    rw [Coordinator.store_states_self]
    exact isSome_lookup_insert h
  · rwa [Coordinator.store_states_of_ne _ _ _ _ _ hkind]

theorem reportKind_map {c : Coordinator} (h : c.reportKind = some .map) :
    lenTaskFin c.mapTaskStates ≠ c.numMapTasks := by
  unfold Coordinator.reportKind at h
  split at h
  · assumption
  · split at h <;> cases h

/-- Entries are stored for all tasks that have been handed out, and the map phase is
over when all map tasks count as finished. -/
structure HandedInv (j : Job) : Prop where
  queued : ∀ t ∈ j.coordinator.mapTask, t.reduceId = 0
  zero : ∀ p ∈ j.handed, p.1 = .map → p.2.reduceId = 0
  stored : ∀ p ∈ j.handed, ((j.coordinator.states p.1).lookup (p.2.id p.1)).isSome
  started : ∀ p ∈ j.handed, p.1 = .reduce → j.coordinator.state ≠ .map
  full : j.coordinator.state ≠ .map →
    lenTaskFin j.coordinator.mapTaskStates = j.coordinator.numMapTasks
  empty : j.coordinator.state = .map → j.coordinator.reduceTask = []
  fresh : j.coordinator.state = .map → ∀ r, j.coordinator.reduceTaskStates.lookup r = none

theorem handedInv_make (files : List String) (nReduce : ℕ) : HandedInv (make files nReduce) where
  queued := by
    intro t ht
    obtain ⟨i, hi, rfl⟩ := List.mem_mapIdx.mp ht
    rfl
  zero _ hp := by cases hp
  stored _ hp := by cases hp
  started _ hp := by cases hp
  full h := absurd rfl h
  empty _ := rfl
  fresh _ _ := AList.lookup_empty _

namespace HandedInv

variable {j j' : Job}

/-- In the map phase, only map tasks are handed out and reported. -/
theorem state_of_reportKind (h : HandedInv j) (hkind : j.coordinator.reportKind = some .map) :
    j.coordinator.state = .map := by
  by_contra hstate
  exact reportKind_map hkind (h.full hstate)

theorem give (h : HandedInv j) {now : ℕ} {kind : Kind} {task : Task} {rest : List Task}
    (hstate : j.coordinator.state = kind.phase) (hqueue : j.coordinator.queue kind = task :: rest)
    (hc : j'.coordinator = (j.coordinator.setQueue rest kind).store kind (task.id kind)
      { time := now, fin := false })
    (hhanded : j'.handed = j.handed ++ [(kind, task)]) : HandedInv j' := by
  have hnew : ∀ {P : Kind × Task → Prop}, (∀ p ∈ j.handed, P p) → P (kind, task) →
      ∀ p ∈ j'.handed, P p := by
    intro P hold hlast
    rw [hhanded]
    exact List.forall_mem_append.mpr ⟨hold, List.forall_mem_singleton.mpr hlast⟩
  have hstored : ∀ p ∈ j'.handed, ((j'.coordinator.states p.1).lookup (p.2.id p.1)).isSome := by
    rw [hc]
    refine hnew (fun p hp => isSome_lookup_store ?_) ?_
    · rw [Coordinator.setQueue_states]
      exact h.stored p hp
    · rw [Coordinator.store_states_self, AList.lookup_insert]
      rfl
  cases kind with
  | map =>
      have hmap : j.coordinator.mapTask = task :: rest := hqueue
      refine ⟨?_, hnew h.zero fun _ => h.queued task (hmap ▸ List.mem_cons_self), hstored, ?_, ?_,
        ?_, ?_⟩
      · rw [hc]
        exact fun t ht => h.queued t (hmap ▸ List.mem_cons_of_mem _ ht)
      · rw [hc]
        exact hnew h.started fun hk => Kind.noConfusion hk
      · rw [hc]
        exact fun hne => absurd hstate hne
      · rw [hc]
        exact h.empty
      · rw [hc]
        exact h.fresh
  | reduce =>
      have hne : j.coordinator.state ≠ .map := by
        rw [hstate]
        exact Phase.noConfusion
      refine ⟨?_, hnew h.zero fun hk => Kind.noConfusion hk, hstored, ?_, ?_, ?_, ?_⟩
      · rw [hc]
        exact h.queued
      · rw [hc]
        exact hnew h.started fun _ => hne
      · rw [hc]
        exact h.full
      · rw [hc]
        exact fun heq => absurd heq hne
      · rw [hc]
        exact fun heq => absurd heq hne

/-- A report about a reduce task is believed only after the map phase. -/
theorem state_of_believes (h : HandedInv j) {task : Task} {now : ℕ}
    (hbel : j.coordinator.Believes task now .reduce) : j.coordinator.state ≠ .map := by
  intro hstate
  obtain ⟨st, hst, -⟩ := hbel.entry
  exact Option.some_ne_none st (hst.symm.trans (h.fresh hstate _))

theorem stored_report (h : HandedInv j) (task : Task) (now : ℕ) (kind : Kind) :
    ∀ p ∈ j.handed,
      (((j.coordinator.stored task now kind).states p.1).lookup (p.2.id p.1)).isSome :=
  fun p hp => isSome_lookup_store (h.stored p hp)

theorem report (h : HandedInv j) {now : ℕ} {task : Task} {kind : Kind}
    (hbel : j.coordinator.Believes task now kind)
    (hc : j'.coordinator = j.coordinator.stored task now kind) (hhanded : j'.handed = j.handed) :
    HandedInv j' := by
  have hstored := h.stored_report task now kind
  rw [← hc, ← hhanded] at hstored
  cases kind with
  | map =>
      have hstate := h.state_of_reportKind hbel.taken
      refine ⟨?_, hhanded ▸ h.zero, hstored, ?_, ?_, ?_, ?_⟩ <;> rw [hc]
      · exact h.queued
      · exact hhanded ▸ h.started
      · exact fun hne => absurd hstate hne
      · exact h.empty
      · exact h.fresh
  | reduce =>
      have hne := h.state_of_believes hbel
      refine ⟨?_, hhanded ▸ h.zero, hstored, ?_, ?_, ?_, ?_⟩ <;> rw [hc]
      · exact h.queued
      · exact hhanded ▸ h.started
      · exact h.full
      · exact h.empty
      · exact fun hstate => absurd hstate hne

/-- The last report of a phase is stored, and the next phase begins. -/
theorem phaseDone (h : HandedInv j) {now : ℕ} {task : Task} {kind : Kind} {state : Phase}
    {chan : List Task} (hstate : state ≠ .map)
    (hc : j'.coordinator = { j.coordinator.stored task now kind with
      state := state, reduceTask := chan }) (hhanded : j'.handed = j.handed)
    (hfull : lenTaskFin (j.coordinator.stored task now kind).mapTaskStates =
      j.coordinator.numMapTasks) : HandedInv j' := by
  have hstored := h.stored_report task now kind
  refine ⟨?_, hhanded ▸ h.zero, ?_, ?_, ?_, ?_, ?_⟩ <;> rw [hc]
  · cases kind <;> exact h.queued
  · rw [hhanded]
    intro p hp
    have := hstored p hp
    cases hkind : p.1 <;> rw [hkind] at this <;> exact this
  · exact fun _ _ _ => hstate
  · cases kind <;> exact fun _ => hfull
  · exact fun heq => absurd heq hstate
  · exact fun heq => absurd heq hstate

theorem requeue (h : HandedInv j) {now : ℕ} {kind : Kind} {chan : List Task}
    (hstate : j.coordinator.state = kind.phase)
    (hsent : Coordinator.requeue (j.coordinator.states kind) now (j.coordinator.numTasks kind)
      (fun i => j.coordinator.retry i kind) (j.coordinator.queue kind) = some chan)
    (hc : j'.coordinator = j.coordinator.setQueue chan kind) (hhanded : j'.handed = j.handed) :
    HandedInv j' := by
  have hstored : ∀ p ∈ j'.handed, ((j'.coordinator.states p.1).lookup (p.2.id p.1)).isSome := by
    rw [hc, hhanded]
    intro p hp
    rw [Coordinator.setQueue_states]
    exact h.stored p hp
  cases kind with
  | map =>
      refine ⟨?_, hhanded ▸ h.zero, hstored, ?_, ?_, ?_, ?_⟩ <;> rw [hc]
      · refine Coordinator.requeue_invariant ?_ h.queued hsent
        intro i st t _ _ _ ht
        obtain ⟨fileName, -, rfl⟩ := Option.map_eq_some_iff.mp ht
        rfl
      · exact hhanded ▸ h.started
      · exact h.full
      · exact h.empty
      · exact h.fresh
  | reduce =>
      have hne : j.coordinator.state ≠ .map := by
        rw [hstate]
        exact Phase.noConfusion
      refine ⟨?_, hhanded ▸ h.zero, hstored, ?_, ?_, ?_, ?_⟩ <;> rw [hc]
      · exact h.queued
      · exact hhanded ▸ h.started
      · exact h.full
      · exact fun heq => absurd heq hne
      · exact h.fresh

theorem step (h : HandedInv j) {a : Act} (hs : j.step a = some j') : HandedInv j' := by
  cases effect_of_step hs with
  | quiet a hc hhanded =>
      obtain ⟨hqueued, hzero, hstored, hstarted, hfull, hempty, hfresh⟩ := h
      rw [← hc] at hqueued hstored hstarted hfull hempty hfresh
      rw [← hhanded] at hzero hstored hstarted
      exact ⟨hqueued, hzero, hstored, hstarted, hfull, hempty, hfresh⟩
  | give now kind task rest hstate hqueue hc hhanded => exact h.give hstate hqueue hc hhanded
  | report k now a kind _ hbel hc hhanded => exact h.report hbel hc hhanded
  | mapsDone k now a chan _ _ hfull hc hhanded =>
      exact h.phaseDone Phase.noConfusion hc hhanded hfull
  | reducesDone k now a _ hbel hc hhanded =>
      exact h.phaseDone Phase.noConfusion hc hhanded (h.full (h.state_of_believes hbel))
  | requeue now kind chan hstate hsent hc hhanded => exact h.requeue hstate hsent hc hhanded

theorem of_exec {files : List String} {nReduce : ℕ} {acts : List Act}
    (hexec : exec Job.step (make files nReduce) acts = some j) : HandedInv j :=
  exec_preserves (fun _ _ _ h hs => h.step hs) (handedInv_make files nReduce) hexec

end HandedInv

/-! ## Reports -/

/-- The loop that sends the reduce tasks, if there is room for them. -/
theorem sendAll {capacity i k : ℕ} {chan : List Task} (h : chan.length + k ≤ capacity) :
    (List.range' i k).foldlM (fun chan i => Coordinator.send capacity chan { reduceId := i }) chan =
      some (chan ++ (List.range' i k).map fun i => { reduceId := i }) := by
  induction k generalizing i chan with
  | zero => simp
  | succ k ih =>
      have hsend : Coordinator.send capacity chan { reduceId := i } =
          some (chan ++ [{ reduceId := i }]) := if_pos (by omega)
      rw [List.range'_succ, List.foldlM_cons, hsend]
      refine (ih ?_).trans ?_
      · rw [List.length_append, List.length_singleton]
        omega
      · simp

/-- `TaskFin` returns if the type assertion succeeds: the channel of the reduce tasks is
empty when they are sent. -/
theorem HandedInv.taskFin_isSome_iff {j : Job} (h : HandedInv j) (task : Task) (now : ℕ) :
    (j.coordinator.taskFin task now).isSome ↔ j.coordinator.FindsEntry task := by
  unfold Coordinator.FindsEntry Coordinator.reportKind Coordinator.taskFin
  split
  · rename_i hmap
    have hstate : j.coordinator.state = .map := by
      by_contra hne
      exact hmap (h.full hne)
    have hiff : (j.coordinator.mapFin task now).isSome ↔
        (j.coordinator.mapTaskStates.lookup task.mapId).isSome := by
      unfold Coordinator.mapFin
      cases j.coordinator.mapTaskStates.lookup task.mapId with
      | none => rfl
      | some st =>
          refine iff_of_true ?_ rfl
          rw [Option.bind_some]
          dsimp only
          split
          · rfl
          · split
            · rw [h.empty hstate, List.range_eq_range', sendAll (by simp)]
              rfl
            · rfl
    rw [hiff]
    exact ⟨fun hsome kind hkind => by cases hkind; exact hsome, fun hall => hall .map rfl⟩
  · split
    · have hiff : (j.coordinator.reduceFin task now).isSome ↔
          (j.coordinator.reduceTaskStates.lookup task.reduceId).isSome := by
        unfold Coordinator.reduceFin
        rw [Option.isSome_map]
      rw [hiff]
      exact ⟨fun hsome kind hkind => by cases hkind; exact hsome, fun hall => hall .reduce rfl⟩
    · exact iff_of_true rfl fun kind hkind => by cases hkind

/-- A report of a task that has been handed out finds an entry, and `TaskFin` returns,
unless it is a map task that is reported when all map tasks but not all reduce tasks
are finished, and reduce task 0 has not been handed out. -/
theorem taskFin_findsEntry_iff {files : List String} {nReduce : ℕ} {acts : List Act} {j : Job}
    (hexec : exec step (make files nReduce) acts = some j) {a : Assignment}
    (ha : a ∈ j.assigned) (now : ℕ) :
    (j.coordinator.FindsEntry a.task ↔
      (a.kind = .map → j.coordinator.reportKind = some .reduce →
        (j.coordinator.reduceTaskStates.lookup 0).isSome)) ∧
      ((j.coordinator.taskFin a.task now).isSome ↔ j.coordinator.FindsEntry a.task) := by
  have h := HandedInv.of_exec hexec
  have hmem : (a.kind, a.task) ∈ j.handed := List.mem_map_of_mem ha
  have hstored := h.stored _ hmem
  refine ⟨⟨fun hfinds hkind hreduce => ?_, fun hzero kind hkind => ?_⟩,
    h.taskFin_isSome_iff a.task now⟩
  · rw [← h.zero _ hmem hkind]
    exact hfinds .reduce hreduce
  · cases hak : a.kind with
    | map =>
        rw [hak] at hstored hmem
        cases kind with
        | map => exact hstored
        | reduce =>
            have hsome := hzero hak hkind
            rw [← h.zero _ hmem rfl] at hsome
            exact hsome
    | reduce =>
        rw [hak] at hstored hmem
        cases kind with
        | map => exact absurd (h.full (h.started _ hmem rfl)) (reportKind_map hkind)
        | reduce => exact hstored

/-- In the run of `lateMap`, the report of the first worker finds the entry of reduce
task 0. -/
theorem taskFin_findsEntry_iff_lateMap :
    ∃ j a, exec step (make ["pg.txt"] 1) (lateMap.take 7) = some j ∧ a ∈ j.assigned ∧
      a.kind = .map ∧ j.coordinator.reportKind = some .reduce ∧
      j.coordinator.FindsEntry a.task := by
  have hexec : exec step (make ["pg.txt"] 1) (lateMap.take 7) = some _ := rfl
  refine ⟨_, _, hexec, List.mem_cons_self, rfl, rfl, ?_⟩
  exact (taskFin_findsEntry_iff hexec List.mem_cons_self 14).1.mpr fun _ _ => rfl

/-- The map task times out and is done by a second worker. Then the first worker
completes it. -/
def reportedTwice : List Act :=
  [.getTask 0, .done 11, .getTask 11, .work 1, .taskFin 1 12, .work 0]

/-- Nobody has been given the reduce task yet, and the report of the first worker makes
the coordinator panic. -/
theorem reportedTwice_no_entry :
    ∃ j a, exec step (make ["pg.txt"] 1) reportedTwice = some j ∧ j.assigned[0]? = some a ∧
      j.coordinator.reportKind = some .reduce ∧
      (j.coordinator.reduceTaskStates.lookup a.task.reduceId) = none ∧
      ¬ j.coordinator.FindsEntry a.task ∧ j.coordinator.taskFin a.task 13 = none := by
  refine ⟨_, _, rfl, rfl, rfl, rfl, fun h => ?_, rfl⟩
  exact Bool.false_ne_true (h .reduce rfl)

end Job

end MapReduce

end DistributedLabs
