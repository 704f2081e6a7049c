import DistributedLabs.MapReduce.Roles

/-!
# The change from the map phase to the reduce phase

A call of `TaskFin` that has stored the report of a map task counts the finished map
tasks again, and sends the reduce tasks if it counts all of them. Storing and counting
are separate operations. If two calls both store before either has counted, both may
count all map tasks, and both send the reduce tasks.
-/

namespace DistributedLabs

namespace MapReduce

namespace System

variable {γ : Type*} {fmt : Format γ} {mapf : String → γ → List KeyValue}
  {reducef : String → List String → String} {s s' : System γ} {N R : ℕ}

/-- A report of a map task is stored only if the task is not finished yet, and no other
call is between its own report of a map task and the end of its count. -/
def storesAlone (s : System γ) : Act → Bool
  | .run t =>
    match s.role t with
    | some (.stores m) =>
      !s.coordinator.mapFlag m && s.calls.all fun call => !call.role.isCounts
    | _ => true
  | _ => true

theorem of_storesAlone {t m : ℕ} (ht : s.role t = some (.stores m))
    (halone : s.storesAlone (.run t) = true) :
    s.coordinator.mapFlag m = false ∧ ∀ t' r, s.role t' ≠ some (.counts r) := by
  rw [storesAlone, ht, Bool.and_eq_true, Bool.not_eq_true'] at halone
  refine ⟨halone.1, fun t' r ht' => ?_⟩
  obtain ⟨call, hcall, hrole⟩ := Option.map_eq_some_iff.mp ht'
  have hnot := List.all_eq_true.mp halone.2 call (List.mem_of_getElem? hcall)
  rw [hrole] at hnot
  cases hnot

/-! ## Map tasks without an entry -/

/-- The map task `m` is in the channel, or a call has taken it from there and has not
stored an entry for it. -/
def Pending (s : System γ) (m : ℕ) : Prop :=
  (∃ task ∈ s.coordinator.mapTask, task.mapId = m) ∨ ∃ t, s.role t = some (.holds m)

/-- A map task that has not been handed out is in one place, and has no entry. A report
is stored where there is one. -/
structure Placed (s : System γ) : Prop where
  queued : (s.coordinator.mapTask.map Task.mapId).Nodup
  held : ∀ t m, s.role t = some (.holds m) → ∀ task ∈ s.coordinator.mapTask, task.mapId ≠ m
  holder : ∀ t t' m, s.role t = some (.holds m) → s.role t' = some (.holds m) → t = t'
  fresh : ∀ m, s.Pending m → s.coordinator.mapTaskStates.lookup m = none
  stored : ∀ t m, s.role t = some (.stores m) → (s.coordinator.mapTaskStates.lookup m).isSome

namespace Placed

/-- No call takes a task. -/
theorem of_roles (h : s.Placed) (htasks : s'.coordinator.mapTask = s.coordinator.mapTask)
    (hholds : ∀ t m, s'.role t = some (.holds m) → s.role t = some (.holds m))
    (hfresh : ∀ m, s'.Pending m → s.coordinator.mapTaskStates.lookup m = none →
      s'.coordinator.mapTaskStates.lookup m = none)
    (hstored : ∀ t m, s'.role t = some (.stores m) →
      (s'.coordinator.mapTaskStates.lookup m).isSome) : s'.Placed where
  queued := htasks ▸ h.queued
  held := fun t m hrole => htasks ▸ h.held t m (hholds t m hrole)
  holder := fun t t' m hrole hrole' => h.holder t t' m (hholds t m hrole) (hholds t' m hrole')
  fresh := by
    intro m hm
    refine hfresh m hm (h.fresh m ?_)
    rcases hm with ⟨task, htask, hid⟩ | ⟨t, ht⟩
    · exact Or.inl ⟨task, htasks ▸ htask, hid⟩
    · exact Or.inr ⟨t, hholds t m ht⟩
  stored := hstored

/-- The call `t` takes the task at the head of the channel. -/
theorem take (h : s.Placed) {t : ℕ} {task : Task}
    (hqueue : s.coordinator.mapTask = task :: s'.coordinator.mapTask)
    (hstates : s'.coordinator.mapTaskStates = s.coordinator.mapTaskStates)
    (hafter : s'.role t = some (.holds task.mapId))
    (hothers : ∀ t', t' ≠ t → s'.role t' = s.role t') : s'.Placed := by
  have hmem : task ∈ s.coordinator.mapTask := hqueue ▸ List.mem_cons_self
  have hrest : ∀ task' ∈ s'.coordinator.mapTask, task' ∈ s.coordinator.mapTask :=
    fun task' htask' => hqueue ▸ List.mem_cons_of_mem task htask'
  have hnodup := h.queued
  rw [hqueue, List.map_cons, List.nodup_cons] at hnodup
  have hroles : ∀ {t' : ℕ} {m : ℕ}, s'.role t' = some (.holds m) →
      t' = t ∧ m = task.mapId ∨ t' ≠ t ∧ s.role t' = some (.holds m) := fun hrole =>
    (role_cases hafter hothers hrole).imp_left fun heq => ⟨heq.1, Role.holds.inj heq.2⟩
  constructor
  · exact hnodup.2
  · intro t' m hrole task' htask'
    rcases hroles hrole with ⟨-, rfl⟩ | ⟨-, hold⟩
    · exact fun heq => hnodup.1 (heq ▸ List.mem_map_of_mem htask')
    · exact h.held t' m hold task' (hrest task' htask')
  · intro t₁ t₂ m hrole₁ hrole₂
    rcases hroles hrole₁ with ⟨rfl, rfl⟩ | ⟨-, hold₁⟩ <;>
      rcases hroles hrole₂ with ⟨rfl, hm⟩ | ⟨-, hold₂⟩
    · rfl
    · exact absurd rfl (h.held t₂ _ hold₂ task hmem)
    · exact absurd hm.symm (h.held t₁ m hold₁ task hmem)
    · exact h.holder t₁ t₂ m hold₁ hold₂
  · intro m hm
    rw [hstates]
    refine h.fresh m ?_
    rcases hm with ⟨task', htask', hid⟩ | ⟨t', ht'⟩
    · exact Or.inl ⟨task', hrest task' htask', hid⟩
    · rcases hroles ht' with ⟨-, rfl⟩ | ⟨-, hold⟩
      · exact Or.inl ⟨task, hmem, rfl⟩
      · exact Or.inr ⟨t', hold⟩
  · intro t' m hrole
    rw [hstates]
    exact h.stored t' m (role_of_ne hafter hothers hrole Role.noConfusion).2

theorem fresh_of_holds (h : s.Placed) {t : ℕ} {role : Role} (ht : s.role t = some role) (m : ℕ)
    (hrole : role = .holds m) : s.coordinator.mapTaskStates.lookup m = none :=
  h.fresh m (Or.inr ⟨t, hrole ▸ ht⟩)

/-- A move of the call `t` that takes no task. -/
theorem move (h : s.Placed) {t : ℕ} {role role' : Role} {out : List ℕ}
    (hbefore : s.role t = some role) (hafter : s'.role t = some role')
    (hothers : ∀ t', t' ≠ t → s'.role t' = s.role t')
    (hmove : Move s.coordinator s'.coordinator role role' out)
    (htasks : s'.coordinator.mapTask = s.coordinator.mapTask)
    (hkeep : ∀ m, role' = .holds m → role = .holds m) : s'.Placed := by
  have hholds : ∀ t' m, s'.role t' = some (.holds m) → s.role t' = some (.holds m) := by
    intro t' m hrole
    rcases role_cases hafter hothers hrole with ⟨rfl, heq⟩ | ⟨-, hold⟩
    · rw [hbefore, hkeep m heq.symm]
    · exact hold
  refine h.of_roles htasks hholds (fun m hm hnone => ?_) fun t' m hrole => ?_
  · rcases hmove.states_cases with hsame | ⟨k, now, rfl, rfl, hnew⟩ | ⟨k, now, rfl, -, hnew⟩
    · rw [hsame, hnone]
    · -- the task that is handed out was in no other place
      have hne : m ≠ k := by
        rintro rfl
        rcases hm with ⟨task, htask, hid⟩ | ⟨t', ht'⟩
        · exact h.held t m hbefore task (htasks ▸ htask) hid
        · obtain rfl := h.holder t' t m (hholds t' m ht') hbefore
          cases hafter.symm.trans ht'
      rw [hnew, AList.lookup_insert_ne hne, hnone]
    · have hne : m ≠ k := by
        rintro rfl
        have hsome := h.stored t m hbefore
        rw [hnone] at hsome
        cases hsome
      rw [hnew, AList.lookup_insert_ne hne, hnone]
  · refine hmove.isSome ?_
    rcases role_cases hafter hothers hrole with ⟨-, rfl⟩ | ⟨-, hold⟩
    · cases hmove with
      | skip role tasks states => exact h.stored t m hbefore
      | load m entry same => exact entry
    · exact h.stored t' m hold

theorem step {a : Act} (h : s.Placed) (hs : RoleStep s s' a) : s'.Placed := by
  cases hs with
  | quiet hc hroles hsends =>
      have hkeep : ∀ t role, role ≠ .plain → s'.role t = some role → s.role t = some role :=
        fun t role hne hrole => (hroles t role hrole).resolve_left hne
      refine h.of_roles (congrArg _ hc) (fun t m => hkeep t _ Role.noConfusion)
        (fun m _ hnone => hc ▸ hnone) fun t m hrole => ?_
      rw [hc]
      exact h.stored t m (hkeep t _ Role.noConfusion hrole)
  | move t role role' hbefore hafter hothers hmove hrun =>
      rcases hmove.tasks_cases with ⟨htasks, hkeep⟩ | ⟨task, hqueue, hstates, rfl⟩
      · exact h.move hbefore hafter hothers hmove htasks hkeep
      · exact h.take hqueue hstates hafter hothers

end Placed

/-! ## Counting and sending -/

/-- No call has counted all map tasks. -/
structure Before (s : System γ) (sent : List ℕ) : Prop where
  sent : sent = []
  sender : ∀ t i, s.role t ≠ some (.fires i)

/-- A call has counted all map tasks, and has sent the reduce tasks below `k`. No call
counts a second time. -/
structure After (N R : ℕ) (s : System γ) (sent : List ℕ) (k : ℕ) : Prop where
  finished : ∀ m < N, s.coordinator.mapFlag m = true
  counter : ∀ t r, s.role t ≠ some (.counts r)
  le : k ≤ R
  sent : sent = List.range k
  sender : ∀ t i, s.role t = some (.fires i) → i.getD 0 = k

/-- At most one call counts after it has stored a report, or sends reduce tasks. -/
structure Transit (N R : ℕ) (s : System γ) (sent : List ℕ) : Prop where
  counter : ∀ t t' r r', s.role t = some (.counts r) → s.role t' = some (.counts r') → t = t'
  counted : ∀ t r, s.role t = some (.counts (some r)) →
    r.Counts fun k => k < N ∧ s.coordinator.mapFlag k = true
  sender : ∀ t t' i i', s.role t = some (.fires i) → s.role t' = some (.fires i') → t = t'
  phase : s.Before sent ∨ ∃ k, After N R s sent k

namespace Transit

variable {sent : List ℕ} {t : ℕ}

theorem of_roles (h : Transit N R s sent)
    (hcounts : ∀ t r, s'.role t = some (.counts r) → s.role t = some (.counts r))
    (hfires : ∀ t i, s'.role t = some (.fires i) → s.role t = some (.fires i))
    (hflags : ∀ m, s.coordinator.mapFlag m = true → s'.coordinator.mapFlag m = true) :
    Transit N R s' sent where
  counter := fun t t' r r' hrole hrole' =>
    h.counter t t' r r' (hcounts t r hrole) (hcounts t' r' hrole')
  counted := fun t r hrole =>
    (h.counted t r (hcounts t _ hrole)).mono fun k hk => ⟨hk.1, hflags k hk.2⟩
  sender := fun t t' i i' hrole hrole' =>
    h.sender t t' i i' (hfires t i hrole) (hfires t' i' hrole')
  phase := h.phase.imp
    (fun hb => ⟨hb.sent, fun t i hrole => hb.sender t i (hfires t i hrole)⟩)
    fun ⟨k, ha⟩ => ⟨k,
      { finished := fun m hm => hflags m (ha.finished m hm)
        counter := fun t r hrole => ha.counter t r (hcounts t r hrole)
        le := ha.le
        sent := ha.sent
        sender := fun t i hrole => ha.sender t i (hfires t i hrole) }⟩

/-- The call `t` stores a report, while no other call counts. -/
theorem store (h : Transit N R s sent) {m : ℕ} (hm : m < N)
    (hflag : s.coordinator.mapFlag m = false) (hnone : ∀ t r, s.role t ≠ some (.counts r))
    (hafter : s'.role t = some (.counts none))
    (hothers : ∀ t', t' ≠ t → s'.role t' = s.role t') : Transit N R s' sent := by
  have hcounts : ∀ {t' r}, s'.role t' = some (.counts r) → t' = t ∧ r = none := by
    intro t' r hrole
    rcases role_cases hafter hothers hrole with ⟨ht', heq⟩ | ⟨-, hold⟩
    · exact ⟨ht', Role.counts.inj heq⟩
    · exact absurd hold (hnone t' r)
  have hfires : ∀ {t' i}, s'.role t' = some (.fires i) → s.role t' = some (.fires i) :=
    fun hrole => (role_of_ne hafter hothers hrole Role.noConfusion).2
  constructor
  · intro t₁ t₂ r r' hrole hrole'
    rw [(hcounts hrole).1, (hcounts hrole').1]
  · intro t' r hrole
    cases (hcounts hrole).2
  · exact fun t₁ t₂ i i' hrole hrole' => h.sender t₁ t₂ i i' (hfires hrole) (hfires hrole')
  · rcases h.phase with hb | ⟨k, ha⟩
    · exact Or.inl ⟨hb.sent, fun t' i hrole => hb.sender t' i (hfires hrole)⟩
    · cases hflag.symm.trans (ha.finished m hm)

/-- The call `t` goes on counting. -/
theorem count (h : Transit N R s sent) {ρ : Option Ranging} {r : Ranging}
    (hbefore : s.role t = some (.counts ρ)) (hafter : s'.role t = some (.counts (some r)))
    (hothers : ∀ t', t' ≠ t → s'.role t' = s.role t') (hc : s'.coordinator = s.coordinator)
    (hcounted : r.Counts fun k => k < N ∧ s.coordinator.mapFlag k = true) :
    Transit N R s' sent := by
  have hcounts : ∀ {t' r'}, s'.role t' = some (.counts r') → t' = t ∧ r' = some r := by
    intro t' r' hrole
    rcases role_cases hafter hothers hrole with ⟨ht', heq⟩ | ⟨hne, hold⟩
    · exact ⟨ht', Role.counts.inj heq⟩
    · exact absurd (h.counter t' t r' ρ hold hbefore) hne
  have hfires : ∀ {t' i}, s'.role t' = some (.fires i) → s.role t' = some (.fires i) :=
    fun hrole => (role_of_ne hafter hothers hrole Role.noConfusion).2
  constructor
  · intro t₁ t₂ r₁ r₂ hrole hrole'
    rw [(hcounts hrole).1, (hcounts hrole').1]
  · intro t' r' hrole
    obtain rfl := Option.some.inj (hcounts hrole).2
    rw [hc]
    exact hcounted
  · exact fun t₁ t₂ i i' hrole hrole' => h.sender t₁ t₂ i i' (hfires hrole) (hfires hrole')
  · rcases h.phase with hb | ⟨k, ha⟩
    · exact Or.inl ⟨hb.sent, fun t' i hrole => hb.sender t' i (hfires hrole)⟩
    · exact absurd hbefore (ha.counter t ρ)

/-- The call `t` has counted all map tasks. -/
theorem fire (h : Transit N R s sent) {r : Ranging} (hbefore : s.role t = some (.counts (some r)))
    (hafter : s'.role t = some (.fires none)) (hothers : ∀ t', t' ≠ t → s'.role t' = s.role t')
    (hc : s'.coordinator = s.coordinator) (hfull : r.len = N) : Transit N R s' sent := by
  have hcounts : ∀ t' r', s'.role t' ≠ some (.counts r') := by
    intro t' r' hrole
    obtain ⟨hne, hold⟩ := role_of_ne hafter hothers hrole Role.noConfusion
    exact hne (h.counter t' t r' _ hold hbefore)
  rcases h.phase with hb | ⟨k, ha⟩
  · have hfires : ∀ {t' i}, s'.role t' = some (.fires i) → t' = t ∧ i = none := by
      intro t' i hrole
      rcases role_cases hafter hothers hrole with ⟨ht', heq⟩ | ⟨-, hold⟩
      · exact ⟨ht', Role.fires.inj heq⟩
      · exact absurd hold (hb.sender t' i)
    have hall : ∀ m < N, s'.coordinator.mapFlag m = true := by
      intro m hm
      rw [hc]
      exact ((h.counted t r hbefore).all (fun _ hk => hk.1) hfull hm).2
    constructor
    · exact fun t' _ r' _ hrole _ => absurd hrole (hcounts t' r')
    · exact fun t' r' hrole => absurd hrole (hcounts t' _)
    · intro t₁ t₂ i i' hrole hrole'
      rw [(hfires hrole).1, (hfires hrole').1]
    · refine Or.inr ⟨0, hall, hcounts, Nat.zero_le R, hb.sent, fun t' i hrole => ?_⟩
      rw [(hfires hrole).2]
      rfl
  · exact absurd hbefore (ha.counter t _)

/-- The call `t` goes on with the loop that sends the reduce tasks. -/
theorem send (h : Transit N R s sent) {i i' : Option ℕ} {out : List ℕ}
    (hbefore : s.role t = some (.fires i)) (hafter : s'.role t = some (.fires i'))
    (hothers : ∀ t', t' ≠ t → s'.role t' = s.role t')
    (hflags : ∀ m, s.coordinator.mapFlag m = true → s'.coordinator.mapFlag m = true)
    (hle : i'.getD 0 ≤ R) (hout : List.range (i.getD 0) ++ out = List.range (i'.getD 0)) :
    Transit N R s' (sent ++ out) := by
  rcases h.phase with hb | ⟨k, ha⟩
  · exact absurd hbefore (hb.sender t i)
  · have hcounts : ∀ t' r, s'.role t' ≠ some (.counts r) := by
      intro t' r hrole
      exact ha.counter t' r (role_of_ne hafter hothers hrole Role.noConfusion).2
    have hfires : ∀ {t' j}, s'.role t' = some (.fires j) → t' = t ∧ j = i' := by
      intro t' j hrole
      rcases role_cases hafter hothers hrole with ⟨ht', heq⟩ | ⟨hne, hold⟩
      · exact ⟨ht', Role.fires.inj heq⟩
      · exact absurd (h.sender t' t j i hold hbefore) hne
    constructor
    · exact fun t' _ r' _ hrole _ => absurd hrole (hcounts t' r')
    · exact fun t' r' hrole => absurd hrole (hcounts t' _)
    · intro t₁ t₂ j j' hrole hrole'
      rw [(hfires hrole).1, (hfires hrole').1]
    · refine Or.inr ⟨i'.getD 0, fun m hm => hflags m (ha.finished m hm), hcounts, hle, ?_,
        fun t' j hrole => by rw [(hfires hrole).2]⟩
      rw [ha.sent, ← ha.sender t i hbefore, hout]

/-- A move of the call `t` that neither counts nor sends. -/
theorem of_move (h : Transit N R s sent) {role role' : Role}
    (hbefore : s.role t = some role) (hafter : s'.role t = some role')
    (hothers : ∀ t', t' ≠ t → s'.role t' = s.role t')
    (hflags : ∀ m, s.coordinator.mapFlag m = true → s'.coordinator.mapFlag m = true)
    (hrole : role' = role ∨ (∀ r, .counts r ≠ role') ∧ ∀ i, .fires i ≠ role') :
    Transit N R s' sent := by
  rcases hrole with rfl | ⟨hcounts, hfires⟩
  · have hsame : ∀ t' role, s'.role t' = some role → s.role t' = some role := by
      intro t' role hrole
      rcases role_cases hafter hothers hrole with ⟨rfl, rfl⟩ | ⟨-, hold⟩
      · exact hbefore
      · exact hold
    exact h.of_roles (fun t' r => hsame t' _) (fun t' i => hsame t' _) hflags
  · exact h.of_roles (fun t' r hrole => (role_of_ne hafter hothers hrole (hcounts r)).2)
      (fun t' i hrole => (role_of_ne hafter hothers hrole (hfires i)).2) hflags

theorem step {a : Act} (h : Transit N R s sent) (hbarrier : BarrierInv N R s)
    (hplaced : s.Placed) (halone : s.storesAlone a = true) (hs : RoleStep s s' a) :
    Transit N R s' (sent ++ s.sends a) := by
  cases hs with
  | quiet hc hroles hsends =>
      rw [hsends, List.append_nil]
      refine h.of_roles (fun t r hrole => (hroles t _ hrole).resolve_left Role.noConfusion)
        (fun t i hrole => (hroles t _ hrole).resolve_left Role.noConfusion) fun m hm => ?_
      rwa [hc]
  | move t role role' hbefore hafter hothers hmove hrun =>
      have hflags : ∀ m, s.coordinator.mapFlag m = true → s'.coordinator.mapFlag m = true :=
        fun m => hmove.mapFlag (hplaced.fresh_of_holds hbefore)
      generalize hout : s.sends a = out at hmove
      cases hmove with
      | skip role tasks states =>
          rw [List.append_nil]
          exact h.of_move hbefore hafter hothers hflags (Or.inl rfl)
      | take task rest queue tasks states | hand m now tasks states | load m entry same
      | miss r same | finish i same =>
          rw [List.append_nil]
          exact h.of_move hbefore hafter hothers hflags
            (Or.inr ⟨fun _ => Role.noConfusion, fun _ => Role.noConfusion⟩)
      | store m now tasks states =>
          rw [List.append_nil]
          obtain rfl := hrun m rfl
          obtain ⟨st, hst⟩ := Option.isSome_iff_exists.mp (hplaced.stored t m hbefore)
          obtain ⟨hflag, hnone⟩ := of_storesAlone hbefore halone
          exact h.store (hbarrier.coordinator.mapTaskStates m st hst).1 hflag hnone hafter hothers
      | begun same =>
          rw [List.append_nil]
          exact h.count hbefore hafter hothers same (.begun _)
      | visit r r' key visited same =>
          rw [List.append_nil]
          refine h.count hbefore hafter hothers same
            ((h.counted t r hbefore).visit (fun value hvalue hfin => ?_) visited)
          refine ⟨(hbarrier.coordinator.mapTaskStates key value hvalue).1, ?_⟩
          rw [Coordinator.mapFlag, hvalue]
          exact hfin
      | fire r full same =>
          rw [List.append_nil]
          exact h.fire hbefore hafter hothers same (full.trans hbarrier.coordinator.numMapTasks)
      | start tasks states =>
          exact h.send hbefore hafter hothers hflags (Nat.zero_le R) rfl
      | send i lt tasks states =>
          exact h.send hbefore hafter hothers hflags
            (hbarrier.coordinator.numReduceTasks ▸ lt) List.range_succ.symm

end Transit

/-- The invariant of a run in which no task is late and the reports of map tasks are
stored and counted one after the other, with the reduce tasks that have been sent. -/
structure TransitionInv (N R : ℕ) (s : System γ) (sent : List ℕ) : Prop where
  barrier : BarrierInv N R s
  calm : ∀ call ∈ s.calls, call.Calm s.clock
  placed : s.Placed
  transit : Transit N R s sent

namespace TransitionInv

theorem role_make (files : List String) (nReduce : ℕ) (dir : Dir γ) (t : ℕ) (role : Role) :
    (make files nReduce dir).role t ≠ some role := by
  intro h
  cases h

theorem make (files : List String) (nReduce : ℕ) (dir : Dir γ) :
    TransitionInv files.length nReduce (System.make files nReduce dir) [] where
  barrier := barrierInv_make files nReduce dir
  calm := by rintro call (_ | _)
  placed :=
    { queued := by
        have hids : (files.mapIdx fun id fileName =>
            ({ fileName := fileName, mapId := id } : Task)).map Task.mapId =
              List.range files.length :=
          List.ext_getElem (by simp) fun i hi hi' => by simp
        exact hids ▸ List.nodup_range
      held := fun t m h => absurd h (role_make files nReduce dir t _)
      holder := fun t _ m h => absurd h (role_make files nReduce dir t _)
      fresh := fun m _ => AList.lookup_empty m
      stored := fun t m h => absurd h (role_make files nReduce dir t _) }
  transit :=
    { counter := fun t _ r _ h => absurd h (role_make files nReduce dir t _)
      counted := fun t r h => absurd h (role_make files nReduce dir t _)
      sender := fun t _ i _ h => absurd h (role_make files nReduce dir t _)
      phase := Or.inl ⟨rfl, fun t i => role_make files nReduce dir t _⟩ }

theorem step {sent : List ℕ} {a : Act} (h : TransitionInv N R s sent) (hontime : s.OnTime)
    (halone : s.storesAlone a = true) (hs : s.step fmt mapf reducef a = some s') :
    TransitionInv N R s' (sent ++ s.sends a) := by
  obtain ⟨hroles, hcalm⟩ := roleStep_of_step h.calm hontime hs
  exact
    { barrier := h.barrier.step hs
      calm := hcalm
      placed := h.placed.step hroles
      transit := h.transit.step h.barrier h.placed halone hroles }

end TransitionInv

/-- If no task exceeds the timeout, and no call stores the report of a map task while
another one still counts for its own report, every reduce task is sent at most once. -/
theorem reduceTasks_sent_once {files : List String} {nReduce : ℕ} {dir : Dir γ} {acts : List Act}
    (hrun : exec (step fmt mapf reducef) (make files nReduce dir) acts = some s)
    (hontime : meets (step fmt mapf reducef) (fun s _ => s.OnTime) (make files nReduce dir) acts)
    (halone : meets (step fmt mapf reducef) (fun s a => s.storesAlone a = true)
      (make files nReduce dir) acts) :
    (emits (step fmt mapf reducef) sends (make files nReduce dir) acts).Nodup ∧
      ∀ i ∈ emits (step fmt mapf reducef) sends (make files nReduce dir) acts, i < nReduce := by
  have hinv : TransitionInv files.length nReduce s
      ([] ++ emits (step fmt mapf reducef) sends (make files nReduce dir) acts) :=
    emits_invariant (fun _ _ _ _ hI hok hs => TransitionInv.step hI hok.1 hok.2 hs)
      (TransitionInv.make files nReduce dir) (meets_and hontime halone) hrun
  rw [List.nil_append] at hinv
  rcases hinv.transit.phase with hbefore | ⟨k, hafter⟩
  · rw [hbefore.sent]
    exact ⟨List.nodup_nil, fun i hi => absurd hi List.not_mem_nil⟩
  · rw [hafter.sent]
    exact ⟨List.nodup_range, fun i hi => (List.mem_range.mp hi).trans_le hafter.le⟩

/-- Two workers take the two map tasks and report them at the same time, but the second
report is stored only when the first one has been counted. -/
def reportInTurn : List Act :=
  [.getTask, .getTask, .run 0, .run 1, .run 0, .run 1, .run 1, .run 0, .run 0, .run 1, .run 0,
    .run 1, .run 0, .run 1, .run 0, .run 1, .receive 0, .receive 1,
    .work 0 [], .work 1 [], .work 1 [], .work 0 [], .work 0 [], .work 1 [],
    .taskFin 0, .taskFin 1, .run 2, .run 3, .run 2, .run 3,
    .visit 2 0, .visit 3 1, .visit 2 1, .visit 3 0, .run 2, .run 3, .run 2, .run 3,
    .run 2, .run 2, .visit 2 0, .visit 2 1, .run 2,
    .run 3, .run 3, .visit 3 0, .visit 3 1, .run 3, .run 3, .run 3, .run 3]

theorem reduceTasks_sent_once_reportInTurn :
    ∃ s, exec (step taggedFormat wordMap countReduce) (make ["a", "b"] 1 (twoFiles "a" "b"))
        reportInTurn = some s ∧
      emits (step taggedFormat wordMap countReduce) sends
        (make ["a", "b"] 1 (twoFiles "a" "b")) reportInTurn = [0] ∧
      (emits (step taggedFormat wordMap countReduce) sends
        (make ["a", "b"] 1 (twoFiles "a" "b")) reportInTurn).Nodup :=
  ⟨_, rfl, by decide, (reduceTasks_sent_once
    (show exec (step taggedFormat wordMap countReduce) (make ["a", "b"] 1 (twoFiles "a" "b"))
      reportInTurn = some _ from rfl) (by decide) (by decide)).1⟩

/-- Both reports are stored before either is counted, and no time passes. The call of the
second report sends the reduce task; when a worker has taken it from the channel, the
call of the first report sends it again. -/
def bothSend : List Act :=
  bothReport ++ [.run 2, .run 2, .getTask, .run 4, .run 4, .run 4, .run 4, .run 2]

theorem bothSend_sends_twice :
    (exec (step taggedFormat wordMap countReduce) (make ["a", "b"] 1 (twoFiles "a" "b"))
        bothSend).isSome = true ∧
      meets (step taggedFormat wordMap countReduce) (fun s _ => s.OnTime)
        (make ["a", "b"] 1 (twoFiles "a" "b")) bothSend ∧
      emits (step taggedFormat wordMap countReduce) sends
        (make ["a", "b"] 1 (twoFiles "a" "b")) bothSend = [0, 0] :=
  ⟨rfl, by decide, by decide⟩

end System

end MapReduce

end DistributedLabs
