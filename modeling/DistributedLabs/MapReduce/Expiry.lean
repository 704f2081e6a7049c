import DistributedLabs.MapReduce.Reports

/-!
# Finished tasks that are handed out again

`TimeTick` sends a task again when it is late, and does not record that it has done so.
The entry of the task stays as it is until a worker takes the task from the channel, so
the next `TimeTick` sends it once more. When the task has then been finished from one
of its copies, another one is still waiting, and `GetTask` hands it out and clears the
flag.
-/

namespace DistributedLabs

namespace MapReduce

namespace Job

/-- `Fin` is set for the task `id` of a kind. -/
def Finished (j : Job) (kind : Kind) (id : ℕ) : Prop :=
  ∃ st ∈ (j.coordinator.states kind).lookup id, st.fin = true

/-- A report is not believed while the task is waiting in its channel. -/
def queueClear (j : Job) : Act → Prop
  | .taskFin k now => ∀ a ∈ j.assigned[k]?, ∀ kind ∈ j.coordinator.reportKind,
      ∀ st ∈ (j.coordinator.states kind).lookup (a.task.id kind), st.isLate now = false →
      ∀ t ∈ j.coordinator.queue kind, t.id kind ≠ a.task.id kind
  | _ => True

instance (j : Job) : (a : Act) → Decidable (j.queueClear a)
  | .taskFin k _ => inferInstanceAs (Decidable (∀ a ∈ j.assigned[k]?, _))
  | .getTask _ | .work _ | .done _ => inferInstanceAs (Decidable True)

/-! ## Finished tasks are not in the channels -/

/-- No finished task waits in its channel. -/
def NoneQueued (j : Job) : Prop :=
  ∀ kind, ∀ t ∈ j.coordinator.queue kind, ¬ j.Finished kind (t.id kind)

/-- What is finished in `j` is finished in the later `j'`, and has not been handed out in
between. -/
def Stays (j j' : Job) : Prop :=
  ∃ new, j'.handed = j.handed ++ new ∧ ∀ kind id, j.Finished kind id →
    j'.Finished kind id ∧ ∀ p ∈ new, ¬ (p.1 = kind ∧ p.2.id kind = id)

theorem Stays.trans {j₁ j₂ j₃ : Job} (h : Stays j₁ j₂) (h' : Stays j₂ j₃) : Stays j₁ j₃ := by
  obtain ⟨new, hnew, hstays⟩ := h
  obtain ⟨new', hnew', hstays'⟩ := h'
  refine ⟨new ++ new', by rw [hnew', hnew, List.append_assoc], fun kind id hfin => ?_⟩
  obtain ⟨hfin₂, hnot⟩ := hstays kind id hfin
  obtain ⟨hfin₃, hnot'⟩ := hstays' kind id hfin₂
  exact ⟨hfin₃, List.forall_mem_append.mpr ⟨hnot, hnot'⟩⟩

section

variable {j j' : Job} {kind : Kind} {id : ℕ}

theorem Finished.of_states (h : j.Finished kind id)
    (hstates : j'.coordinator.states kind = j.coordinator.states kind) : j'.Finished kind id := by
  unfold Finished
  rwa [hstates]

/-- The flags after an entry has been stored for the task `key` of the kind `k`. -/
theorem finished_store {c : Coordinator} {k : Kind} {key : ℕ} {st : TaskState}
    (hc : j'.coordinator.states kind = (c.store k key st).states kind)
    (hold : c.states kind = j.coordinator.states kind) :
    j'.Finished kind id ↔
      (kind = k ∧ id = key ∧ st.fin = true) ∨ (¬ (kind = k ∧ id = key) ∧ j.Finished kind id) := by
  unfold Finished
  rw [hc]
  by_cases hkind : kind = k
  · subst hkind
    rw [Coordinator.store_states_self, hold]
    by_cases hid : id = key
    · subst hid
      rw [AList.lookup_insert]
      simp
    · rw [AList.lookup_insert_ne hid]
      simp [hid]
  · rw [Coordinator.store_states_of_ne _ _ _ _ _ hkind, hold]
    simp [hkind]

/-- Nothing is handed out. -/
theorem stays_of_handed (hhanded : j'.handed = j.handed)
    (h : ∀ kind id, j.Finished kind id → j'.Finished kind id) : Stays j j' := by
  refine ⟨[], by rw [hhanded, List.append_nil], fun kind id hfin => ⟨h kind id hfin, ?_⟩⟩
  intro p hp
  cases hp

/-- A task is handed out that is not finished. -/
theorem give_stays (h : NoneQueued j) {now : ℕ} {task : Task} {rest : List Task}
    (hqueue : j.coordinator.queue kind = task :: rest)
    (hc : j'.coordinator = (j.coordinator.setQueue rest kind).store kind (task.id kind)
      { time := now, fin := false })
    (hhanded : j'.handed = j.handed ++ [(kind, task)]) : NoneQueued j' ∧ Stays j j' := by
  have hfin : ∀ kind' id, j'.Finished kind' id ↔
      ¬ (kind' = kind ∧ id = task.id kind) ∧ j.Finished kind' id := by
    intro kind' id
    rw [finished_store (congrArg (Coordinator.states · kind') hc)
      (Coordinator.setQueue_states _ _ _ _)]
    simp
  have hnot : ¬ j.Finished kind (task.id kind) := h kind task (hqueue ▸ List.mem_cons_self)
  constructor
  · intro kind' t ht hfin'
    rw [hc, Coordinator.store_queue] at ht
    refine h kind' t ?_ ((hfin kind' _).mp hfin').2
    by_cases hkind : kind' = kind
    · subst hkind
      rw [Coordinator.queue_setQueue] at ht
      rw [hqueue]
      exact List.mem_cons_of_mem _ ht
    · rwa [Coordinator.setQueue_queue_of_ne _ _ _ _ hkind] at ht
  · refine ⟨[(kind, task)], hhanded, fun kind' id hfin' => ?_⟩
    have hne : ¬ (kind' = kind ∧ id = task.id kind) := by
      rintro ⟨rfl, rfl⟩
      exact hnot hfin'
    refine ⟨(hfin kind' id).mpr ⟨hne, hfin'⟩, List.forall_mem_singleton.mpr ?_⟩
    rintro ⟨rfl, rfl⟩
    exact hne ⟨rfl, rfl⟩

/-- A report is stored for a task that is not waiting. -/
theorem report_stays (h : NoneQueued j) {task : Task} {now : ℕ}
    (hclear : ∀ t ∈ j.coordinator.queue kind, t.id kind ≠ task.id kind)
    (hstates : ∀ kind', j'.coordinator.states kind' =
      (j.coordinator.stored task now kind).states kind')
    (hqueue : ∀ kind', ∀ t ∈ j'.coordinator.queue kind',
      t ∈ j.coordinator.queue kind' ∨ ¬ j'.Finished kind' (t.id kind'))
    (hhanded : j'.handed = j.handed) : NoneQueued j' ∧ Stays j j' := by
  have hfin : ∀ kind' id, j'.Finished kind' id ↔
      (kind' = kind ∧ id = task.id kind) ∨ j.Finished kind' id := by
    intro kind' id
    rw [finished_store (hstates kind') rfl]
    by_cases heq : kind' = kind ∧ id = task.id kind
    · simp [heq]
    · simp only [heq, not_false_eq_true, true_and, false_or, or_iff_right_iff_imp]
      exact fun h => absurd ⟨h.1, h.2.1⟩ heq
  refine ⟨fun kind' t ht hfin' => ?_, stays_of_handed hhanded fun kind' id hold =>
    (hfin kind' id).mpr (Or.inr hold)⟩
  rcases hqueue kind' t ht with ht | hnot
  · rcases (hfin kind' _).mp hfin' with ⟨rfl, hid⟩ | hold
    · exact hclear t ht hid
    · exact h kind' t ht hold
  · exact hnot hfin'

/-- `TimeTick` sends unfinished tasks. -/
theorem requeue_stays (h : NoneQueued j) {now : ℕ} {chan : List Task}
    (hsent : Coordinator.requeue (j.coordinator.states kind) now (j.coordinator.numTasks kind)
      (fun i => j.coordinator.retry i kind) (j.coordinator.queue kind) = some chan)
    (hc : j'.coordinator = j.coordinator.setQueue chan kind) (hhanded : j'.handed = j.handed) :
    NoneQueued j' ∧ Stays j j' := by
  have hstates : ∀ kind', j'.coordinator.states kind' = j.coordinator.states kind' := by
    intro kind'
    rw [hc, Coordinator.setQueue_states]
  refine ⟨fun kind' t ht hfin => ?_, stays_of_handed hhanded fun kind' id hfin =>
    hfin.of_states (hstates kind')⟩
  have hfin' : j.Finished kind' (t.id kind') := hfin.of_states (hstates kind').symm
  rw [hc] at ht
  by_cases hkind : kind' = kind
  · subst hkind
    rw [Coordinator.queue_setQueue] at ht
    refine Coordinator.requeue_invariant (P := fun t => ¬ j.Finished kind' (t.id kind')) ?_
      (h kind') hsent t ht hfin'
    rintro i st t' - hst ⟨hnotFin, -⟩ ht' ⟨st', hst', hfin⟩
    have hid : t'.id kind' = i := by
      cases kind' with
      | map =>
          obtain ⟨fileName, -, rfl⟩ := Option.map_eq_some_iff.mp ht'
          rfl
      | reduce =>
          obtain rfl := Option.some.inj ht'
          rfl
    rw [hid] at hst'
    obtain rfl := Option.some.inj (hst.symm.trans hst')
    exact Bool.false_ne_true (hnotFin.symm.trans hfin)
  · rw [Coordinator.setQueue_queue_of_ne _ _ _ _ hkind] at ht
    exact h kind' t ht hfin'

theorem queueClear_of_believes {k now : ℕ} {a : Assignment}
    (hclear : j.queueClear (.taskFin k now)) (ha : j.assigned[k]? = some a)
    (hbel : j.coordinator.Believes a.task now kind) :
    ∀ t ∈ j.coordinator.queue kind, t.id kind ≠ a.task.id kind := by
  obtain ⟨st, hst, hlate⟩ := hbel.entry
  exact hclear a ha kind hbel.taken st hst hlate

theorem states_of_phase {c : Coordinator} {state : Phase} {chan : List Task}
    (hc : j'.coordinator = { c with state := state, reduceTask := chan }) (kind : Kind) :
    j'.coordinator.states kind = c.states kind := by
  rw [hc]
  cases kind <;> rfl

/-- What a step does if it does not believe a report of a waiting task. -/
theorem step_stays (hinv : HandedInv j) (h : NoneQueued j) {a : Act} (hclear : j.queueClear a)
    (hs : j.step a = some j') : NoneQueued j' ∧ Stays j j' := by
  cases effect_of_step hs with
  | quiet a hc hhanded =>
      have hfin : ∀ kind id, j'.Finished kind id ↔ j.Finished kind id := by
        intro kind id
        unfold Finished
        rw [hc]
      refine ⟨fun kind t ht => ?_, stays_of_handed hhanded fun kind id => (hfin kind id).mpr⟩
      rw [hc] at ht
      rw [hfin]
      exact h kind t ht
  | give now kind task rest hstate hqueue hc hhanded => exact give_stays h hqueue hc hhanded
  | report k now a kind ha hbel hc hhanded =>
      refine report_stays h (queueClear_of_believes hclear ha hbel)
        (fun kind' => congrArg (Coordinator.states · kind') hc) (fun kind' t ht => Or.inl ?_)
        hhanded
      rw [hc] at ht
      rwa [Coordinator.stored, Coordinator.store_queue] at ht
  | mapsDone k now a chan ha hbel hfull hc hhanded =>
      have hstates := states_of_phase hc
      refine report_stays h (queueClear_of_believes hclear ha hbel) hstates
        (fun kind' t ht => ?_) hhanded
      cases kind' with
      | map =>
          rw [hc] at ht
          exact Or.inl ht
      | reduce =>
          -- the reduce tasks are sent for the first time
          refine Or.inr ?_
          rintro ⟨st, hst, -⟩
          rw [hstates] at hst
          have hnone := hinv.fresh (hinv.state_of_reportKind hbel.taken) (t.id .reduce)
          exact Option.some_ne_none st (hst.symm.trans hnone)
  | reducesDone k now a ha hbel hc hhanded =>
      refine report_stays h (queueClear_of_believes hclear ha hbel) (states_of_phase hc)
        (fun kind' t ht => ?_) hhanded
      rw [hc] at ht
      cases kind' <;> exact Or.inl ht
  | requeue now kind chan hstate hsent hc hhanded => exact requeue_stays h hsent hc hhanded

/-- What a run has finished does not come back. -/
theorem exec_stays (hinv : HandedInv j) (h : NoneQueued j) {acts : List Act}
    (hclear : meets step queueClear j acts) (hexec : exec step j acts = some j') :
    NoneQueued j' ∧ Stays j j' := by
  refine (exec_invariant (I := fun q => HandedInv q ∧ NoneQueued q ∧ Stays j q) ?_
    ⟨hinv, h, stays_of_handed rfl fun _ _ => id⟩ hclear hexec).2
  rintro q a q' ⟨hq, hnone, hstays⟩ hok hs
  obtain ⟨hnone', hstays'⟩ := step_stays hq hnone hok hs
  exact ⟨hq.step hs, hnone', hstays.trans hstays'⟩

end

theorem noneQueued_make (files : List String) (nReduce : ℕ) :
    NoneQueued (make files nReduce) := by
  rintro kind t - ⟨st, hst, -⟩
  cases kind with
  | map =>
      rw [show (make files nReduce).coordinator.states .map = ∅ from rfl, AList.lookup_empty] at hst
      cases hst
  | reduce =>
      rw [show (make files nReduce).coordinator.states .reduce = ∅ from rfl,
        AList.lookup_empty] at hst
      cases hst

/-- If no report is believed while its task is waiting in the channel, finished tasks
stay finished and are not handed out again. -/
theorem finished_stays {files : List String} {nReduce : ℕ} {acts acts' : List Act} {j j' : Job}
    (hexec : exec step (make files nReduce) acts = some j) (hexec' : exec step j acts' = some j')
    (hclear : meets step queueClear (make files nReduce) (acts ++ acts')) : Stays j j' := by
  obtain ⟨hfirst, hrest⟩ := (meets_append hexec).mp hclear
  obtain ⟨hnone, -⟩ := exec_stays (handedInv_make files nReduce) (noneQueued_make files nReduce)
    hfirst hexec
  exact (exec_stays (.of_exec hexec) hnone hrest hexec').2

/-- Map task 0 expires, is sent again and is finished by a second worker; then the map
phase goes on. -/
def expiredOnce : List Act :=
  [.getTask 0, .done 11, .getTask 11, .getTask 11, .work 2, .taskFin 2 12]

theorem finished_stays_expiredOnce :
    ∃ j j', exec step (make ["a", "b"] 1) expiredOnce = some j ∧
      exec step j [.done 13, .getTask 14] = some j' ∧ j.Finished .map 0 ∧ j'.Finished .map 0 := by
  refine ⟨_, _, rfl, rfl, ⟨_, rfl, rfl⟩, ?_⟩
  obtain ⟨new, -, hstays⟩ :=
    finished_stays (show exec step (make ["a", "b"] 1) expiredOnce = some _ from rfl)
      (show exec step _ [.done 13, .getTask 14] = some _ from rfl) (by decide)
  exact (hstays .map 0 ⟨_, rfl, rfl⟩).1

/-- Map task 0 expires and is sent again twice before a second worker takes it. -/
def expiredTwice : List Act :=
  [.getTask 0, .done 11, .getTask 11, .done 12, .getTask 12, .work 2, .taskFin 2 13]

/-- The second worker finishes the task, and a third one gets it again. -/
theorem expiredTwice_not_stays :
    ∃ j j', exec step (make ["a", "b"] 1) expiredTwice = some j ∧
      j.step (.getTask 14) = some j' ∧ j.Finished .map 0 ∧ ¬ j'.Finished .map 0 ∧
      j'.handed = j.handed ++ [(.map, { fileName := "a", mapId := 0 })] := by
  refine ⟨_, _, rfl, rfl, ⟨_, rfl, rfl⟩, ?_, rfl⟩
  rintro ⟨st, hst, hfin⟩
  obtain rfl := Option.some.inj hst
  cases hfin

end Job

end MapReduce

end DistributedLabs
