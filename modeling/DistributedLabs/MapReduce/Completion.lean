import DistributedLabs.MapReduce.Coordinator
import DistributedLabs.Logic.Lists
import DistributedLabs.Logic.Run

/-!
# The job is finished when it says so

`TaskFin` decides by the number of finished tasks, and not by the task that is
reported, whether a report is about a map or a reduce task. A worker that reports
its map task after all map tasks have been finished by others is taken to report
reduce task 0. As long as no such report is believed before reduce task 0 has been
done, every reduce task that counts as finished has been completed by a worker.
-/

namespace DistributedLabs

namespace MapReduce

/-- If as many tasks are finished as there are, each of them is. -/
theorem exists_fin_of_lenTaskFin {m : TaskStates} {n : ℕ}
    (hkeys : ∀ r st, m.lookup r = some st → r < n) (h : lenTaskFin m = n) {r : ℕ} (hr : r < n) :
    ∃ st, m.lookup r = some st ∧ st.fin = true := by
  let keys := (m.entries.filter fun entry => entry.2.fin).map Sigma.fst
  have hmem : ∀ k, k ∈ keys ↔ ∃ st, m.lookup k = some st ∧ st.fin = true := by
    intro k
    simp only [keys, List.mem_map, List.mem_filter]
    constructor
    · rintro ⟨⟨k', st⟩, ⟨hst, hfin⟩, rfl⟩
      exact ⟨st, AList.mem_lookup_iff.mpr hst, hfin⟩
    · rintro ⟨st, hst, hfin⟩
      exact ⟨⟨k, st⟩, ⟨AList.mem_lookup_iff.mp hst, hfin⟩, rfl⟩
  have hnodup : keys.Nodup := m.keys_nodup.sublist (List.filter_sublist.map Sigma.fst)
  have hlt : ∀ k ∈ keys, k < n := by
    intro k hk
    obtain ⟨st, hst, -⟩ := (hmem k).mp hk
    exact hkeys k st hst
  have hlen : n ≤ keys.length := by
    rw [List.length_map]
    exact h.ge
  exact (hmem r).mp (mem_of_nodup_of_length hnodup hlt hlen hr)

/-- What holds of the entries of a table and of one that is stored in it holds of
its entries afterwards. -/
theorem forall_lookup_insert {m : TaskStates} {k : ℕ} {new : TaskState}
    {P : ℕ → TaskState → Prop} (hm : ∀ r st, m.lookup r = some st → P r st) (hnew : P k new) :
    ∀ r st, (m.insert k new).lookup r = some st → P r st := by
  intro r st hst
  by_cases hr : r = k
  · subst hr
    rw [AList.lookup_insert] at hst
    exact Option.some.inj hst ▸ hnew
  · rw [AList.lookup_insert_ne hr] at hst
    exact hm r st hst

theorem isSome_lookup_insert {m : TaskStates} {k id : ℕ} {st : TaskState}
    (h : (m.lookup k).isSome) : ((m.insert id st).lookup k).isSome := by
  by_cases hk : k = id
  · rw [hk, AList.lookup_insert]
    rfl
  · rwa [AList.lookup_insert_ne hk]

namespace Coordinator

variable {c c' : Coordinator} {task : Task} {now : ℕ}

/-- What holds of the tasks in a channel and of the one that is sent to it holds of
the tasks in it afterwards. -/
theorem send_forall {P : Task → Prop} {capacity : ℕ} {chan chan' : List Task}
    (h : send capacity chan task = some chan') (hchan : ∀ t ∈ chan, P t) (htask : P task) :
    ∀ t ∈ chan', P t := by
  unfold send at h
  split at h
  · obtain rfl := Option.some.inj h
    exact List.forall_mem_append.mpr ⟨hchan, List.forall_mem_singleton.mpr htask⟩
  · cases h

/-- `TimeTick` brings no tasks but those that are unfinished and late. -/
theorem requeue_invariant {P : Task → Prop} {states : TaskStates} {capacity : ℕ}
    {mk : ℕ → Option Task} (hmk : ∀ i st t, i < capacity → states.lookup i = some st →
      st.fin = false ∧ st.isLate now = true → mk i = some t → P t)
    {chan chan' : List Task} (hchan : ∀ t ∈ chan, P t)
    (h : requeue states now capacity mk chan = some chan') : ∀ t ∈ chan', P t := by
  refine foldlM_invariant (P := fun chan => ∀ t ∈ chan, P t) ?_ hchan h
  intro chan i chan' hi hchan hs
  split at hs
  · obtain rfl := Option.some.inj hs
    exact hchan
  · rename_i st hst
    split at hs
    · rename_i hexpired
      obtain ⟨t, ht, hs⟩ := Option.bind_eq_some_iff.mp hs
      exact send_forall hs hchan (hmk i st t (List.mem_range.mp hi) hst hexpired ht)
    · obtain rfl := Option.some.inj hs
      exact hchan

/-- What a report does to the reduce tasks while a map task is unfinished. -/
theorem mapFin_frame (h : c.mapFin task now = some c') :
    ∃ states state chan,
      c' = { c with mapTaskStates := states, state := state, reduceTask := chan } ∧
      (state = c.state ∨ state = .reduce) ∧
      ∀ t ∈ chan, t ∈ c.reduceTask ∨ t.reduceId < c.numReduceTasks := by
  obtain ⟨curState, -, h⟩ := Option.bind_eq_some_iff.mp h
  dsimp only at h
  split at h
  · obtain rfl := Option.some.inj h
    exact ⟨_, _, _, rfl, Or.inl rfl, fun t ht => Or.inl ht⟩
  · split at h
    · obtain ⟨chan, hchan, rfl⟩ := Option.map_eq_some_iff.mp h
      refine ⟨_, _, _, rfl, Or.inr rfl, ?_⟩
      refine foldlM_invariant (P := fun chan =>
        ∀ t ∈ chan, t ∈ c.reduceTask ∨ t.reduceId < c.numReduceTasks) ?_
        (fun t ht => Or.inl ht) hchan
      intro chan i chan' hi hold hs
      exact send_forall hs hold (Or.inr (List.mem_range.mp hi))
    · obtain rfl := Option.some.inj h
      exact ⟨_, _, _, rfl, Or.inl rfl, fun t ht => Or.inl ht⟩

/-- What a report does while a reduce task is unfinished. -/
theorem reduceFin_cases (h : c.reduceFin task now = some c') :
    ∃ curState, c.reduceTaskStates.lookup task.reduceId = some curState ∧
      (c' = c ∨ curState.isLate now = false ∧ ∃ state,
        c' = { c with
          reduceTaskStates := c.reduceTaskStates.insert task.reduceId { time := now, fin := true }
          state := state } ∧
        (state = .finished → state = c.state ∨
          lenTaskFin (c.reduceTaskStates.insert task.reduceId { time := now, fin := true }) =
            c.numReduceTasks)) := by
  obtain ⟨curState, hcur, rfl⟩ := Option.map_eq_some_iff.mp h
  refine ⟨curState, hcur, ?_⟩
  dsimp only
  split
  · exact Or.inl rfl
  · rename_i hlate
    refine Or.inr ⟨Bool.not_eq_true _ ▸ hlate, ?_⟩
    split
    · rename_i hlen
      exact ⟨_, rfl, fun _ => Or.inr hlen⟩
    · exact ⟨_, rfl, fun _ => Or.inl rfl⟩

/-- `TimeTick` only sends tasks of the phase to their channel. -/
theorem timeTick_frame (h : c.timeTick now = some c') :
    ∃ maps reduces, c' = { c with mapTask := maps, reduceTask := reduces } ∧
      (∀ t ∈ maps, t ∈ c.mapTask ∨ t.reduceId = 0) ∧
      ∀ t ∈ reduces, t ∈ c.reduceTask ∨ t.reduceId < c.numReduceTasks := by
  unfold timeTick at h
  split at h
  · obtain ⟨chan, hchan, rfl⟩ := Option.map_eq_some_iff.mp h
    refine ⟨_, _, rfl, ?_, fun t ht => Or.inl ht⟩
    refine requeue_invariant ?_ (fun t ht => Or.inl ht) hchan
    intro i st t _ _ _ ht
    obtain ⟨fileName, -, rfl⟩ := Option.map_eq_some_iff.mp ht
    exact Or.inr rfl
  · obtain ⟨chan, hchan, rfl⟩ := Option.map_eq_some_iff.mp h
    refine ⟨_, _, rfl, fun t ht => Or.inl ht, ?_⟩
    refine requeue_invariant ?_ (fun t ht => Or.inl ht) hchan
    intro i st t hi _ _ ht
    obtain rfl := Option.some.inj ht
    exact Or.inr hi
  · obtain rfl := Option.some.inj h
    exact ⟨_, _, rfl, fun t ht => Or.inl ht, fun t ht => Or.inl ht⟩

end Coordinator

namespace Job

variable {j j' : Job}

/-- Some worker has completed `DoReduce` for `r`. -/
def reduced (j : Job) (r : ℕ) : Bool :=
  j.assigned.any fun a => a.kind == .reduce && a.task.reduceId == r && a.done

theorem reduced_iff {r : ℕ} : j.reduced r = true ↔
    ∃ a ∈ j.assigned, a.kind = .reduce ∧ a.task.reduceId = r ∧ a.done = true := by
  simp [reduced, and_assoc]

/-- `GetTask` hands out a map task, a reduce task or nothing. -/
theorem getTask_cases (j : Job) (now : ℕ) :
    (∃ task rest, j.coordinator.state = .map ∧ j.coordinator.mapTask = task :: rest ∧
      j.getTask now =
        { coordinator :=
            { j.coordinator with
              mapTask := rest
              mapTaskStates := j.coordinator.mapTaskStates.insert task.mapId
                { time := now, fin := false } }
          assigned := j.assigned ++ [{ kind := .map, task := task }]
          clock := now }) ∨
    (∃ task rest, j.coordinator.state = .reduce ∧ j.coordinator.reduceTask = task :: rest ∧
      j.getTask now =
        { coordinator :=
            { j.coordinator with
              reduceTask := rest
              reduceTaskStates := j.coordinator.reduceTaskStates.insert task.reduceId
                { time := now, fin := false } }
          assigned := j.assigned ++ [{ kind := .reduce, task := task }]
          clock := now }) ∨
    j.getTask now = { j with clock := now } := by
  cases hstate : j.coordinator.state with
  | map =>
      cases htask : j.coordinator.mapTask with
      | nil =>
          refine Or.inr (Or.inr ?_)
          simp [Job.getTask, Coordinator.getTask, hstate, htask, TaskResponse.kind]
      | cons task rest =>
          refine Or.inl ⟨task, rest, rfl, rfl, ?_⟩
          simp [Job.getTask, Coordinator.getTask, hstate, htask, TaskResponse.kind]
  | reduce =>
      cases htask : j.coordinator.reduceTask with
      | nil =>
          refine Or.inr (Or.inr ?_)
          simp [Job.getTask, Coordinator.getTask, hstate, htask, TaskResponse.kind]
      | cons task rest =>
          refine Or.inr (Or.inl ⟨task, rest, rfl, rfl, ?_⟩)
          simp [Job.getTask, Coordinator.getTask, hstate, htask, TaskResponse.kind]
  | finished =>
      refine Or.inr (Or.inr ?_)
      simp [Job.getTask, Coordinator.getTask, hstate, TaskResponse.kind]

/-- The invariant: what counts as reduced has been reduced. -/
structure Inv (nReduce : ℕ) (j : Job) : Prop where
  num : j.coordinator.numReduceTasks = nReduce
  mapTask : ∀ t ∈ j.coordinator.mapTask, t.reduceId = 0
  reduceTask : ∀ t ∈ j.coordinator.reduceTask, t.reduceId < nReduce
  keys : ∀ r st, j.coordinator.reduceTaskStates.lookup r = some st → r < nReduce
  fin : ∀ r st, j.coordinator.reduceTaskStates.lookup r = some st → st.fin = true →
    j.reduced r = true
  finished : j.coordinator.state = .finished →
    lenTaskFin j.coordinator.reduceTaskStates = nReduce
  assigned : ∀ a ∈ j.assigned, a.kind = .map → a.task.reduceId = 0

theorem inv_make (files : List String) (nReduce : ℕ) : Inv nReduce (make files nReduce) where
  num := rfl
  mapTask := by
    intro t ht
    obtain ⟨i, hi, rfl⟩ := List.mem_mapIdx.mp ht
    rfl
  reduceTask := by rintro t (_ | _)
  keys := by rintro r st (_ | _)
  fin := by rintro r st (_ | _)
  finished := nofun
  assigned := by rintro a (_ | _)

/-- What a worker has completed stays completed. -/
theorem reduced_mono (h : ∀ a ∈ j.assigned, a.done = true → a ∈ j'.assigned) {r : ℕ}
    (hr : j.reduced r = true) : j'.reduced r = true := by
  obtain ⟨a, ha, hkind, hid, hdone⟩ := reduced_iff.mp hr
  exact reduced_iff.mpr ⟨a, h a ha hdone, hkind, hid, hdone⟩

theorem Inv.getTask {nReduce : ℕ} (h : Inv nReduce j) (now : ℕ) :
    Inv nReduce (j.getTask now) := by
  rcases getTask_cases j now with ⟨task, rest, -, htask, he⟩ | ⟨task, rest, hstate, htask, he⟩ | he
  · have hzero : task.reduceId = 0 := h.mapTask task (htask ▸ List.mem_cons_self)
    rw [he]
    exact
      { h with
        mapTask := fun t ht => h.mapTask t (htask ▸ List.mem_cons_of_mem _ ht)
        fin := fun r st hst hfin =>
          reduced_mono (fun a ha _ => List.mem_append_left _ ha) (h.fin r st hst hfin)
        assigned := by
          intro a ha hkind
          rcases List.mem_append.mp ha with ha | ha
          · exact h.assigned a ha hkind
          · rw [List.mem_singleton.mp ha]
            exact hzero }
  · have hlt : task.reduceId < nReduce := h.reduceTask task (htask ▸ List.mem_cons_self)
    rw [he]
    exact
      { num := h.num
        mapTask := h.mapTask
        reduceTask := fun t ht => h.reduceTask t (htask ▸ List.mem_cons_of_mem _ ht)
        keys := forall_lookup_insert h.keys hlt
        fin := forall_lookup_insert (fun r st hst hfin =>
          reduced_mono (fun a ha _ => List.mem_append_left _ ha) (h.fin r st hst hfin)) nofun
        finished := fun hfin => by
          cases hstate.symm.trans hfin
        assigned := by
          intro a ha hkind
          rcases List.mem_append.mp ha with ha | ha
          · exact h.assigned a ha hkind
          · rw [List.mem_singleton.mp ha] at hkind
            cases hkind }
  · rw [he]
    exact { h with }

theorem Inv.work {nReduce : ℕ} (h : Inv nReduce j) {k : ℕ} (hs : j.work k = some j') :
    Inv nReduce j' := by
  obtain ⟨a, ha, rfl⟩ := Option.map_eq_some_iff.mp hs
  exact
    { h with
      fin := by
        intro r st hst hfin
        have hset : ∃ b ∈ j.assigned.set k { a with done := true },
            b.kind = .reduce ∧ b.task.reduceId = r ∧ b.done = true :=
          exists_mem_set ha (fun hP => ⟨hP.1, hP.2.1, rfl⟩)
            (reduced_iff.mp (h.fin r st hst hfin))
        exact reduced_iff.mpr hset
      assigned := forall_mem_set h.assigned (h.assigned a (List.mem_of_getElem? ha)) }

theorem Inv.done {nReduce : ℕ} (h : Inv nReduce j) {now : ℕ} (hs : j.done now = some j') :
    Inv nReduce j' := by
  obtain ⟨r, hr, rfl⟩ := Option.map_eq_some_iff.mp hs
  obtain ⟨c, hc, rfl⟩ := Option.map_eq_some_iff.mp hr
  obtain ⟨maps, reduces, rfl, hmaps, hreduces⟩ := Coordinator.timeTick_frame hc
  exact
    { h with
      mapTask := fun t ht => (hmaps t ht).elim (h.mapTask t) id
      reduceTask := fun t ht => (hreduces t ht).elim (h.reduceTask t) (h.num ▸ ·) }

/-! ## Reports -/

/-- A map task is not reported once all map tasks are finished, unless reduce
task 0 has been completed, or is late so that the report is ignored, or the job is
finished. -/
def reportSafe (j : Job) : Act → Prop
  | .taskFin k now => ∀ a ∈ j.assigned[k]?, a.kind = .map →
      lenTaskFin j.coordinator.mapTaskStates = j.coordinator.numMapTasks →
      lenTaskFin j.coordinator.reduceTaskStates ≠ j.coordinator.numReduceTasks →
      j.reduced 0 = true ∨ ∀ st ∈ j.coordinator.reduceTaskStates.lookup 0, st.isLate now = true
  | _ => True

instance (j : Job) : DecidablePred j.reportSafe
  | .taskFin k now => inferInstanceAs (Decidable (∀ a ∈ j.assigned[k]?, a.kind = .map →
      lenTaskFin j.coordinator.mapTaskStates = j.coordinator.numMapTasks →
      lenTaskFin j.coordinator.reduceTaskStates ≠ j.coordinator.numReduceTasks →
      j.reduced 0 = true ∨ ∀ st ∈ j.coordinator.reduceTaskStates.lookup 0, st.isLate now = true))
  | .getTask _ => isTrue trivial
  | .work _ => isTrue trivial
  | .done _ => isTrue trivial

/-- A report that is believed is about a reduce task that has been completed. -/
theorem Inv.reduced_of_report {nReduce : ℕ} (h : Inv nReduce j) {k now : ℕ} {a : Assignment}
    (ha : j.assigned[k]? = some a) (hdone : a.done = true) (hok : j.reportSafe (.taskFin k now))
    (hmap : lenTaskFin j.coordinator.mapTaskStates = j.coordinator.numMapTasks)
    (hreduce : lenTaskFin j.coordinator.reduceTaskStates ≠ j.coordinator.numReduceTasks)
    {st : TaskState} (hst : j.coordinator.reduceTaskStates.lookup a.task.reduceId = some st)
    (hlate : st.isLate now = false) : j.reduced a.task.reduceId = true := by
  have hmem : a ∈ j.assigned := List.mem_of_getElem? ha
  cases hkind : a.kind with
  | reduce => exact reduced_iff.mpr ⟨a, hmem, hkind, rfl, hdone⟩
  | map =>
      have hzero := h.assigned a hmem hkind
      rw [hzero] at hst ⊢
      rcases hok a ha hkind hmap hreduce with hred | hall
      · exact hred
      · exact absurd ((hall st hst).symm.trans hlate) Bool.false_ne_true.symm

theorem Inv.reduceFin {nReduce : ℕ} (h : Inv nReduce j) {task : Task} {now : ℕ}
    {c : Coordinator} (hc : j.coordinator.reduceFin task now = some c)
    (hred : ∀ st, j.coordinator.reduceTaskStates.lookup task.reduceId = some st →
      st.isLate now = false → j.reduced task.reduceId = true)
    (hreduce : lenTaskFin j.coordinator.reduceTaskStates ≠ j.coordinator.numReduceTasks) :
    Inv nReduce { j with coordinator := c, clock := now } := by
  obtain ⟨st, hst, rfl | ⟨hlate, state, rfl, hstate⟩⟩ := Coordinator.reduceFin_cases hc
  · exact { h with }
  · have hdone := hred st hst hlate
    exact
      { h with
        keys := forall_lookup_insert h.keys (h.keys task.reduceId st hst)
        fin := forall_lookup_insert h.fin fun _ => hdone
        finished := by
          intro hfin
          rcases hstate hfin with hsame | hlen
          · exact absurd ((h.finished (hsame.symm.trans hfin)).trans h.num.symm) hreduce
          · exact hlen.trans h.num }

theorem Inv.taskFin {nReduce : ℕ} (h : Inv nReduce j) {k now : ℕ}
    (hok : j.reportSafe (.taskFin k now)) (hs : j.taskFin k now = some j') : Inv nReduce j' := by
  obtain ⟨a, ha, hs⟩ := Option.bind_eq_some_iff.mp hs
  split at hs
  · rename_i hdone
    obtain ⟨c, hc, rfl⟩ := Option.map_eq_some_iff.mp hs
    unfold Coordinator.taskFin at hc
    split at hc
    · obtain ⟨states, state, chan, rfl, hstate, hchan⟩ := Coordinator.mapFin_frame hc
      exact
        { h with
          reduceTask := fun t ht => (hchan t ht).elim (h.reduceTask t) (h.num ▸ ·)
          finished := fun hfin => by
            rcases hstate with rfl | rfl
            · exact h.finished hfin
            · cases hfin }
    · rename_i hmap
      split at hc
      · rename_i hreduce
        exact h.reduceFin hc (fun st hst hlate => h.reduced_of_report ha hdone hok
          (not_not.mp hmap) hreduce hst hlate) hreduce
      · obtain rfl := Option.some.inj hc
        exact { h with }
  · cases hs

theorem Inv.step {nReduce : ℕ} (h : Inv nReduce j) {a : Act} (hok : j.reportSafe a)
    (hs : j.step a = some j') : Inv nReduce j' := by
  cases a with
  | getTask now =>
      simp only [Job.step] at hs
      split at hs
      · obtain rfl := Option.some.inj hs
        exact h.getTask now
      · cases hs
  | work k => exact h.work hs
  | taskFin k now =>
      simp only [Job.step] at hs
      split at hs
      · exact h.taskFin hok hs
      · cases hs
  | done now =>
      simp only [Job.step] at hs
      split at hs
      · exact h.done hs
      · cases hs

/-- The job says that it is finished: `Done` would return true, or `State` is 2. -/
def SaysDone (j : Job) : Prop :=
  (∃ now c, j.coordinator.done now = some (c, true)) ∨ j.coordinator.state = .finished

theorem Inv.lenTaskFin_of_saysDone {nReduce : ℕ} (h : Inv nReduce j) (hdone : j.SaysDone) :
    lenTaskFin j.coordinator.reduceTaskStates = nReduce := by
  rcases hdone with ⟨now, c, hc⟩ | hstate
  · obtain ⟨c', hc', he⟩ := Option.map_eq_some_iff.mp hc
    obtain ⟨maps, reduces, rfl, -, -⟩ := Coordinator.timeTick_frame hc'
    have hlen := of_decide_eq_true (Prod.mk.inj he).2
    exact hlen.trans h.num
  · exact h.finished hstate

/-- If no report of a map task is taken for one of reduce task 0 before that task
has been completed, every reduce task has been completed by some worker when the
job says that it is finished. -/
theorem reduced_of_saysDone {files : List String} {nReduce : ℕ} {acts : List Act}
    (h : exec step (make files nReduce) acts = some j)
    (hok : meets step reportSafe (make files nReduce) acts) (hdone : j.SaysDone) {r : ℕ}
    (hr : r < nReduce) : j.reduced r = true := by
  have hinv : Inv nReduce j :=
    exec_invariant (fun _ _ _ hI ha hs => Inv.step hI ha hs) (inv_make files nReduce) hok h
  obtain ⟨st, hst, hfin⟩ :=
    exists_fin_of_lenTaskFin hinv.keys (hinv.lenTaskFin_of_saysDone hdone) hr
  exact hinv.fin r st hst hfin

/-- One worker does the only map task and then the only reduce task. -/
def oneWorker : List Act :=
  [.getTask 0, .work 0, .taskFin 0 1, .getTask 2, .work 1, .taskFin 1 3]

theorem reduced_of_saysDone_oneWorker :
    ∃ j, exec step (make ["pg.txt"] 1) oneWorker = some j ∧ j.coordinator.state = .finished ∧
      j.reduced 0 = true :=
  ⟨_, rfl, rfl, reduced_of_saysDone
    (show exec step (make ["pg.txt"] 1) oneWorker = some _ from rfl) (by decide) (Or.inr rfl)
    Nat.one_pos⟩

/-- The map task times out and is done by a second worker. A third one is given the
reduce task. Then the first worker completes and reports the map task. -/
def lateMap : List Act :=
  [.getTask 0, .done 11, .getTask 11, .work 1, .taskFin 1 12, .getTask 13, .work 0, .taskFin 0 14]

/-- The late report of the map task finishes the job, and nobody has done the
reduce task. -/
theorem lateMap_not_reduced :
    ∃ j, exec step (make ["pg.txt"] 1) lateMap = some j ∧ j.coordinator.state = .finished ∧
      (j.coordinator.done 14).map Prod.snd = some true ∧ j.reduced 0 = false :=
  ⟨_, rfl, rfl, rfl, rfl⟩

end Job

end MapReduce

end DistributedLabs
