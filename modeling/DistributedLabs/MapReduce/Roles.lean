import DistributedLabs.MapReduce.Barrier

/-!
# The part of a call in the map phase

Of a call, all that matters for the end of the map phase is its `Role`: a map task that
it has taken from the channel, a report that it is about to store, the count that
follows, or the loop that sends the reduce tasks. This file says what an operation does
to the role of its call and to the map tasks, if no task is late.
-/

namespace DistributedLabs

namespace MapReduce

/-! ## Roles -/

inductive Role where
  | plain
  /-- `GetTask` has taken the map task `m` and has not stored an entry for it. -/
  | holds (m : ℕ)
  /-- `TaskFin` is about to store the report of the map task `m`. -/
  | stores (m : ℕ)
  /-- `TaskFin` counts the finished map tasks after it has stored a report. -/
  | counts (r : Option Ranging)
  /-- `TaskFin` has counted all map tasks, and goes on to send reduce task `i`. -/
  | fires (i : Option ℕ)
deriving DecidableEq, Repr

def Role.isCounts : Role → Bool
  | .counts _ => true
  | _ => false

namespace Call

def role : Call → Role
  | .getTask (.readClock .map _ task) | .getTask (.storeState .map _ task _) => .holds task.mapId
  | .taskFin (.storeState .map task _) => .stores task.mapId
  | .taskFin (.beginCount .map true _ _) => .counts none
  | .taskFin (.count .map true _ _ r) => .counts (some r)
  | .taskFin (.setState .map) => .fires none
  | .taskFin (.send i) => .fires (some i)
  | _ => .plain

/-- The reduce tasks that the next operation of a call sends to the channel. -/
def sends (c : Coordinator) : Call → List ℕ
  | .taskFin (.send i) => if i < c.numReduceTasks then [i] else []
  | .done (.send .reduce _ i) => [i]
  | _ => []

/-- `TimeTick` works with a time that has passed, and has found no task that is late. -/
def Calm (clock : ℕ) : Call → Prop
  | .done (.testKey _ now _) | .done (.loadTask _ now _) => now ≤ clock
  | .done (.send _ _ _) => False
  | _ => True

end Call

/-- No unfinished task is late. -/
def TaskStates.OnTime (m : TaskStates) (now : ℕ) : Prop :=
  ∀ e ∈ m.entries, e.2.fin = false → e.2.isLate now = false

instance (m : TaskStates) (now : ℕ) : Decidable (m.OnTime now) :=
  inferInstanceAs (Decidable (∀ e ∈ m.entries, _))

/-- `Fin` is set for the map task `m`. -/
def Coordinator.mapFlag (c : Coordinator) (m : ℕ) : Bool :=
  (c.mapTaskStates.lookup m).any TaskState.fin

/-- What an operation does to the map tasks, with the reduce tasks that it sends. -/
inductive Move (c c' : Coordinator) : Role → Role → List ℕ → Prop where
  | skip (role : Role) (tasks : c'.mapTask = c.mapTask)
      (states : c'.mapTaskStates = c.mapTaskStates) : Move c c' role role []
  | take (task : Task) (rest : List Task) (queue : c.mapTask = task :: rest)
      (tasks : c'.mapTask = rest) (states : c'.mapTaskStates = c.mapTaskStates) :
      Move c c' .plain (.holds task.mapId) []
  | hand (m now : ℕ) (tasks : c'.mapTask = c.mapTask)
      (states : c'.mapTaskStates = c.mapTaskStates.insert m { time := now, fin := false }) :
      Move c c' (.holds m) .plain []
  | load (m : ℕ) (entry : (c.mapTaskStates.lookup m).isSome) (same : c' = c) :
      Move c c' .plain (.stores m) []
  | store (m now : ℕ) (tasks : c'.mapTask = c.mapTask)
      (states : c'.mapTaskStates = c.mapTaskStates.insert m { time := now, fin := true }) :
      Move c c' (.stores m) (.counts none) []
  | begun (same : c' = c) :
      Move c c' (.counts none) (.counts (some (.begun c.mapTaskStates))) []
  | visit (r r' : Ranging) (key : ℕ) (visited : r.visit c.mapTaskStates key = some r')
      (same : c' = c) : Move c c' (.counts (some r)) (.counts (some r')) []
  | miss (r : Ranging) (same : c' = c) : Move c c' (.counts (some r)) .plain []
  | fire (r : Ranging) (full : r.len = c.numMapTasks) (same : c' = c) :
      Move c c' (.counts (some r)) (.fires none) []
  | start (tasks : c'.mapTask = c.mapTask) (states : c'.mapTaskStates = c.mapTaskStates) :
      Move c c' (.fires none) (.fires (some 0)) []
  | send (i : ℕ) (lt : i < c.numReduceTasks) (tasks : c'.mapTask = c.mapTask)
      (states : c'.mapTaskStates = c.mapTaskStates) :
      Move c c' (.fires (some i)) (.fires (some (i + 1))) [i]
  | finish (i : ℕ) (same : c' = c) : Move c c' (.fires (some i)) .plain []

/-! ## The operations -/

section

variable {c c' : Coordinator} {clock : ℕ}

theorem GetTaskCall.move {call call' : GetTaskCall} (hs : call.step c clock = some (c', call')) :
    Move c c' (Call.getTask call).role (Call.getTask call').role [] := by
  cases call with
  | loadState =>
      obtain ⟨rfl, rfl⟩ := Prod.mk.inj (Option.some.inj hs)
      split <;> exact .skip _ rfl rfl
  | testState state =>
      obtain ⟨rfl, rfl⟩ := Prod.mk.inj (Option.some.inj hs)
      split <;> exact .skip _ rfl rfl
  | testLen kind state =>
      obtain ⟨rfl, rfl⟩ := Prod.mk.inj (Option.some.inj hs)
      split <;> exact .skip _ rfl rfl
  | receive kind state =>
      obtain ⟨task, rest, hqueue, rfl, rfl⟩ := GetTaskCall.receive_cases hs
      cases kind with
      | map => exact .take task rest hqueue rfl rfl
      | reduce => exact .skip _ rfl rfl
  | readClock kind state task =>
      obtain ⟨rfl, rfl⟩ := Prod.mk.inj (Option.some.inj hs)
      cases kind <;> exact .skip _ rfl rfl
  | storeState kind state task now =>
      obtain ⟨rfl, rfl⟩ := Prod.mk.inj (Option.some.inj hs)
      cases kind with
      | map => exact .hand task.mapId now rfl rfl
      | reduce => exact .skip _ rfl rfl
  | readLen kind state task =>
      cases kind with
      | map =>
          obtain ⟨rfl, rfl⟩ := Prod.mk.inj (Option.some.inj hs)
          exact .skip _ rfl rfl
      | reduce =>
          obtain ⟨rfl, rfl⟩ := Prod.mk.inj (Option.some.inj hs)
          exact .skip _ rfl rfl
  | readReduceLen reply =>
      obtain ⟨rfl, rfl⟩ := Prod.mk.inj (Option.some.inj hs)
      exact .skip _ rfl rfl
  | replied reply => cases hs

theorem TaskFinCall.move_afterCount {kind : Kind} {stored : Bool} {task : Task} {now : ℕ}
    {r : Ranging} :
    Move c c (Call.taskFin (.count kind stored task now r)).role
      (Call.taskFin (afterCount c kind stored task now r.len)).role [] := by
  unfold afterCount
  split
  · rename_i hlen
    cases stored <;> cases kind
    · exact .skip _ rfl rfl
    · exact .skip _ rfl rfl
    · exact .fire r hlen rfl
    · exact .skip _ rfl rfl
  · cases stored <;> cases kind
    · exact .skip _ rfl rfl
    · exact .skip _ rfl rfl
    · exact .miss r rfl
    · exact .skip _ rfl rfl

theorem TaskFinCall.move {call call' : TaskFinCall} (hs : call.step c clock = some (c', call')) :
    Move c c' (Call.taskFin call).role (Call.taskFin call').role
      ((Call.taskFin call).sends c) := by
  cases call with
  | readClock task =>
      obtain ⟨rfl, rfl⟩ := Prod.mk.inj (Option.some.inj hs)
      exact .skip _ rfl rfl
  | beginCount kind stored task now =>
      obtain ⟨rfl, rfl⟩ := Prod.mk.inj (Option.some.inj hs)
      cases stored <;> cases kind
      · exact .skip _ rfl rfl
      · exact .skip _ rfl rfl
      · exact .begun rfl
      · exact .skip _ rfl rfl
  | count kind stored task now r =>
      rw [TaskFinCall.step] at hs
      split at hs
      · obtain ⟨rfl, rfl⟩ := Prod.mk.inj (Option.some.inj hs)
        exact move_afterCount
      · cases hs
  | loadState kind task now =>
      obtain ⟨st, hst, hs⟩ := Option.map_eq_some_iff.mp hs
      obtain ⟨rfl, rfl⟩ := Prod.mk.inj hs
      split
      · exact .skip _ rfl rfl
      · cases kind with
        | map => exact .load task.mapId (Option.isSome_iff_exists.mpr ⟨st, hst⟩) rfl
        | reduce => exact .skip _ rfl rfl
  | storeState kind task now =>
      obtain ⟨rfl, rfl⟩ := Prod.mk.inj (Option.some.inj hs)
      cases kind with
      | map => exact .store task.mapId now rfl rfl
      | reduce => exact .skip _ rfl rfl
  | setState kind =>
      cases kind with
      | map =>
          obtain ⟨rfl, rfl⟩ := Prod.mk.inj (Option.some.inj hs)
          exact .start rfl rfl
      | reduce =>
          obtain ⟨rfl, rfl⟩ := Prod.mk.inj (Option.some.inj hs)
          exact .skip _ rfl rfl
  | send i =>
      rw [TaskFinCall.step] at hs
      split at hs
      · rename_i hlt
        obtain ⟨chan, -, hs⟩ := Option.map_eq_some_iff.mp hs
        obtain ⟨rfl, rfl⟩ := Prod.mk.inj hs
        have hsends : (Call.taskFin (.send i)).sends c = [i] := if_pos hlt
        rw [hsends]
        exact .send i hlt rfl rfl
      · rename_i hlt
        obtain ⟨rfl, rfl⟩ := Prod.mk.inj (Option.some.inj hs)
        have hsends : (Call.taskFin (.send i)).sends c = [] := if_neg hlt
        rw [hsends]
        exact .finish i rfl
  | returned => cases hs

theorem TaskStates.OnTime.not_late {m : TaskStates} (h : m.OnTime clock) {id now : ℕ}
    {st : TaskState} (hst : m.lookup id = some st) (hnow : now ≤ clock) :
    ¬ (st.fin = false ∧ st.isLate now = true) := by
  rintro ⟨hfin, hlate⟩
  have hnot := h ⟨id, st⟩ (AList.mem_lookup_iff.mp hst) hfin
  have hlt : st.time + timeout < now := of_decide_eq_true hlate
  have hge : ¬ st.time + timeout < clock := of_decide_eq_false hnot
  omega

/-- `TimeTick` finds nothing to send again. -/
theorem DoneCall.move {call call' : DoneCall} (hontime : ∀ kind, (c.states kind).OnTime clock)
    (hcalm : (Call.done call).Calm clock) (hs : call.step c clock = some (c', call')) :
    Move c c' .plain .plain [] ∧ (Call.done call').role = .plain ∧
      (Call.done call).sends c = [] ∧ (Call.done call').Calm clock := by
  cases call with
  | loadState =>
      obtain ⟨rfl, rfl⟩ := Prod.mk.inj (Option.some.inj hs)
      refine ⟨.skip _ rfl rfl, rfl, rfl, ?_⟩
      split <;> trivial
  | readClock kind =>
      obtain ⟨rfl, rfl⟩ := Prod.mk.inj (Option.some.inj hs)
      exact ⟨.skip _ rfl rfl, rfl, rfl, le_rfl⟩
  | testKey kind now i =>
      obtain ⟨rfl, rfl⟩ := Prod.mk.inj (Option.some.inj hs)
      refine ⟨.skip _ rfl rfl, rfl, rfl, ?_⟩
      split
      · split
        · exact hcalm
        · exact hcalm
      · trivial
  | loadTask kind now i =>
      obtain ⟨st, hst, hs⟩ := Option.map_eq_some_iff.mp hs
      obtain ⟨rfl, rfl⟩ := Prod.mk.inj hs
      rw [if_neg ((hontime kind).not_late hst hcalm)]
      exact ⟨.skip _ rfl rfl, rfl, rfl, hcalm⟩
  | send kind now i => exact hcalm.elim
  | beginCount =>
      obtain ⟨rfl, rfl⟩ := Prod.mk.inj (Option.some.inj hs)
      exact ⟨.skip _ rfl rfl, rfl, rfl, trivial⟩
  | count r =>
      rw [DoneCall.step] at hs
      split at hs
      · obtain ⟨rfl, rfl⟩ := Prod.mk.inj (Option.some.inj hs)
        exact ⟨.skip _ rfl rfl, rfl, rfl, trivial⟩
      · cases hs
  | returned ret => cases hs

theorem Call.move {call call' : Call} (hontime : ∀ kind, (c.states kind).OnTime clock)
    (hcalm : call.Calm clock) (hs : call.step c clock = some (c', call')) :
    Move c c' call.role call'.role (call.sends c) ∧ call'.Calm clock := by
  cases call with
  | getTask call =>
      obtain ⟨r, hr, hs⟩ := Option.map_eq_some_iff.mp hs
      obtain ⟨rfl, rfl⟩ := Prod.mk.inj hs
      exact ⟨GetTaskCall.move hr, trivial⟩
  | taskFin call =>
      obtain ⟨r, hr, hs⟩ := Option.map_eq_some_iff.mp hs
      obtain ⟨rfl, rfl⟩ := Prod.mk.inj hs
      exact ⟨TaskFinCall.move hr, trivial⟩
  | done call =>
      obtain ⟨r, hr, hs⟩ := Option.map_eq_some_iff.mp hs
      obtain ⟨rfl, rfl⟩ := Prod.mk.inj hs
      obtain ⟨hmove, hrole, hsends, hcalm'⟩ := DoneCall.move hontime hcalm hr
      rw [hrole, hsends]
      exact ⟨hmove, hcalm'⟩
  | returned => cases hs

theorem Call.Calm.mono {call : Call} {clock' : ℕ} (h : call.Calm clock) (hle : clock ≤ clock') :
    call.Calm clock' := by
  cases call with
  | getTask call => trivial
  | taskFin call => trivial
  | done call =>
      cases call with
      | testKey kind now i => exact hle.trans' h
      | loadTask kind now i => exact hle.trans' h
      | send kind now i => exact h
      | loadState => trivial
      | readClock kind => trivial
      | beginCount => trivial
      | count r => trivial
      | returned ret => trivial
  | returned => trivial

theorem Call.move_visit {key : ℕ} {call call' : Call} (h : call.visit c key = some call') :
    Move c c call.role call'.role [] ∧ (∀ m, call.role ≠ .stores m) ∧
      (call.Calm clock → call'.Calm clock) := by
  cases call with
  | getTask call => cases h
  | taskFin call =>
      obtain ⟨call₁, hvisit, rfl⟩ := Option.map_eq_some_iff.mp h
      cases call with
      | count kind stored task now r =>
          obtain ⟨r', hr', rfl⟩ := Option.map_eq_some_iff.mp hvisit
          cases stored <;> cases kind
          · exact ⟨.skip _ rfl rfl, fun _ => Role.noConfusion, fun _ => trivial⟩
          · exact ⟨.skip _ rfl rfl, fun _ => Role.noConfusion, fun _ => trivial⟩
          · exact ⟨.visit r r' key hr' rfl, fun _ => Role.noConfusion, fun _ => trivial⟩
          · exact ⟨.skip _ rfl rfl, fun _ => Role.noConfusion, fun _ => trivial⟩
      | _ => cases hvisit
  | done call =>
      obtain ⟨call₁, hvisit, rfl⟩ := Option.map_eq_some_iff.mp h
      cases call with
      | count r =>
          obtain ⟨r', -, rfl⟩ := Option.map_eq_some_iff.mp hvisit
          exact ⟨.skip _ rfl rfl, fun _ => Role.noConfusion, fun _ => trivial⟩
      | _ => cases hvisit
  | returned => cases h

end

/-! ## What a move changes -/

section

variable {c c' : Coordinator} {role role' : Role} {out : List ℕ}

/-- The entries of the map tasks after a move. -/
theorem Move.states_cases (h : Move c c' role role' out) :
    c'.mapTaskStates = c.mapTaskStates ∨
      (∃ m now, role = .holds m ∧ role' = .plain ∧
        c'.mapTaskStates = c.mapTaskStates.insert m { time := now, fin := false }) ∨
      ∃ m now, role = .stores m ∧ role' = .counts none ∧
        c'.mapTaskStates = c.mapTaskStates.insert m { time := now, fin := true } := by
  cases h with
  | hand m now tasks states => exact Or.inr (Or.inl ⟨m, now, rfl, rfl, states⟩)
  | store m now tasks states => exact Or.inr (Or.inr ⟨m, now, rfl, rfl, states⟩)
  | skip role tasks states | take task rest queue tasks states | start tasks states
  | send i lt tasks states => exact Or.inl states
  | load m entry same | begun same | visit r r' key visited same | miss r same
  | fire r full same | finish i same =>
      exact Or.inl (congrArg _ same)

/-- The map tasks in the channel after a move. -/
theorem Move.tasks_cases (h : Move c c' role role' out) :
    (c'.mapTask = c.mapTask ∧ ∀ m, role' = .holds m → role = .holds m) ∨
      ∃ task, c.mapTask = task :: c'.mapTask ∧ c'.mapTaskStates = c.mapTaskStates ∧
        role' = .holds task.mapId := by
  cases h with
  | take task rest queue tasks states => exact Or.inr ⟨task, tasks ▸ queue, states, rfl⟩
  | skip role tasks states => exact Or.inl ⟨tasks, fun _ => id⟩
  | hand m now tasks states | store m now tasks states | start tasks states
  | send i lt tasks states => exact Or.inl ⟨tasks, fun _ h => Role.noConfusion h⟩
  | load m entry same | begun same | visit r r' key visited same | miss r same
  | fire r full same | finish i same =>
      exact Or.inl ⟨congrArg _ same, fun _ h => Role.noConfusion h⟩

theorem Move.isSome (h : Move c c' role role' out) {m : ℕ}
    (hm : (c.mapTaskStates.lookup m).isSome) : (c'.mapTaskStates.lookup m).isSome := by
  rcases h.states_cases with hsame | ⟨k, now, -, -, hnew⟩ | ⟨k, now, -, -, hnew⟩
  · rwa [hsame]
  · rw [hnew]
    exact isSome_lookup_insert hm
  · rw [hnew]
    exact isSome_lookup_insert hm

/-- No flag is cleared: a task that is handed out has had no entry. -/
theorem Move.mapFlag (h : Move c c' role role' out)
    (hfresh : ∀ m, role = .holds m → c.mapTaskStates.lookup m = none) {m : ℕ}
    (hm : c.mapFlag m = true) : c'.mapFlag m = true := by
  unfold Coordinator.mapFlag at hm ⊢
  rcases h.states_cases with hsame | ⟨k, now, hrole, -, hnew⟩ | ⟨k, now, -, -, hnew⟩
  · rwa [hsame]
  · have hne : m ≠ k := by
      rintro rfl
      rw [hfresh m hrole] at hm
      cases hm
    rwa [hnew, AList.lookup_insert_ne hne]
  · rw [hnew]
    by_cases hk : m = k
    · rw [hk, AList.lookup_insert]
      rfl
    · rwa [AList.lookup_insert_ne hk]

end

/-! ## The steps of the system -/

namespace System

variable {γ : Type*} {fmt : Format γ} {mapf : String → γ → List KeyValue}
  {reducef : String → List String → String} {s s' : System γ} {N R : ℕ}

/-- The role of the call `t`. -/
def role (s : System γ) (t : ℕ) : Option Role := (s.calls[t]?).map Call.role

/-- No task that has been handed out and is not finished exceeds the timeout. -/
def OnTime (s : System γ) : Prop :=
  s.coordinator.mapTaskStates.OnTime s.clock ∧ s.coordinator.reduceTaskStates.OnTime s.clock

instance (s : System γ) : Decidable s.OnTime := inferInstanceAs (Decidable (_ ∧ _))

/-- The reduce tasks that a step sends to the channel. -/
def sends (s : System γ) : Act → List ℕ
  | .run t => ((s.calls[t]?).map fun call => call.sends s.coordinator).getD []
  | _ => []

/-- What a step does to the roles, and to the part of the coordinator that they are
about. -/
inductive RoleStep (s s' : System γ) (a : Act) : Prop where
  | quiet (coordinator : s'.coordinator = s.coordinator)
      (roles : ∀ t role, s'.role t = some role → role = .plain ∨ s.role t = some role)
      (sends : s.sends a = []) : RoleStep s s' a
  | move (t : ℕ) (role role' : Role) (before : s.role t = some role)
      (after : s'.role t = some role') (others : ∀ t', t' ≠ t → s'.role t' = s.role t')
      (moved : Move s.coordinator s'.coordinator role role' (s.sends a))
      (run : ∀ m, role = .stores m → a = .run t) : RoleStep s s' a

theorem role_set {t : ℕ} {call call' : Call} (ht : s.calls[t]? = some call)
    (hcalls : s'.calls = s.calls.set t call') :
    s.role t = some call.role ∧ s'.role t = some call'.role ∧
      ∀ t', t' ≠ t → s'.role t' = s.role t' := by
  unfold role
  rw [hcalls]
  refine ⟨by rw [ht]; rfl, ?_, fun t' ht' => ?_⟩
  · rw [List.getElem?_set_self (List.getElem?_eq_some_iff.mp ht).1]
    rfl
  · rw [List.getElem?_set_ne ht'.symm]

theorem role_concat {call : Call} (hcall : call.role = .plain)
    (hcalls : s'.calls = s.calls ++ [call]) :
    ∀ t role, s'.role t = some role → role = .plain ∨ s.role t = some role := by
  intro t role hrole
  unfold System.role at hrole ⊢
  rw [hcalls] at hrole
  obtain ⟨call', hcall', rfl⟩ := Option.map_eq_some_iff.mp hrole
  rcases getElem?_concat_cases hcall' with hold | ⟨-, rfl⟩
  · exact Or.inr (by rw [hold]; rfl)
  · exact Or.inl hcall

theorem roleStep_of_step (hcalm : ∀ call ∈ s.calls, call.Calm s.clock) (hontime : s.OnTime)
    {a : Act} (hs : s.step fmt mapf reducef a = some s') :
    RoleStep s s' a ∧ ∀ call ∈ s'.calls, call.Calm s'.clock := by
  have hconcat : ∀ {call : Call}, call.Calm s.clock →
      ∀ call' ∈ s.calls ++ [call], call'.Calm s.clock := fun hcall =>
    List.forall_mem_append.mpr ⟨hcalm, List.forall_mem_singleton.mpr hcall⟩
  cases a with
  | getTask =>
      obtain rfl := Option.some.inj hs
      exact ⟨.quiet rfl (role_concat rfl rfl) rfl, hconcat trivial⟩
  | taskFin k =>
      obtain ⟨handout, -, hs⟩ := Option.bind_eq_some_iff.mp hs
      split at hs
      · obtain rfl := Option.some.inj hs
        exact ⟨.quiet rfl (role_concat rfl rfl) rfl, hconcat trivial⟩
      · cases hs
  | done =>
      obtain rfl := Option.some.inj hs
      exact ⟨.quiet rfl (role_concat rfl rfl) rfl, hconcat trivial⟩
  | run t =>
      obtain ⟨call, ht, hs⟩ := Option.bind_eq_some_iff.mp hs
      obtain ⟨⟨c, call'⟩, hr, rfl⟩ := Option.map_eq_some_iff.mp hs
      have hall : ∀ kind, (s.coordinator.states kind).OnTime s.clock := by
        intro kind
        cases kind with
        | map => exact hontime.1
        | reduce => exact hontime.2
      obtain ⟨hmove, hcalm'⟩ := Call.move hall (hcalm call (List.mem_of_getElem? ht)) hr
      have hsends : s.sends (.run t) = call.sends s.coordinator := by
        rw [sends, ht]
        rfl
      have hcalls : System.calls { s with coordinator := c, calls := s.calls.set t call' } =
        s.calls.set t call' := rfl
      obtain ⟨hbefore, hafter, hothers⟩ := role_set ht hcalls
      exact ⟨.move t call.role call'.role hbefore hafter hothers (hsends ▸ hmove) fun _ _ => rfl,
        forall_mem_set hcalm hcalm'⟩
  | visit t key =>
      obtain ⟨call, ht, hs⟩ := Option.bind_eq_some_iff.mp hs
      obtain ⟨call', hvisit, rfl⟩ := Option.map_eq_some_iff.mp hs
      obtain ⟨hmove, hne, hcalm'⟩ := Call.move_visit hvisit
      have hcalls : System.calls { s with calls := s.calls.set t call' } = s.calls.set t call' :=
        rfl
      obtain ⟨hbefore, hafter, hothers⟩ := role_set ht hcalls
      have hcall := hcalm' (hcalm call (List.mem_of_getElem? ht))
      exact ⟨.move t call.role call'.role hbefore hafter hothers hmove
        fun m hm => absurd hm (hne m), forall_mem_set hcalm hcall⟩
  | receive t =>
      obtain ⟨reply, hreply, rfl⟩ := Option.map_eq_some_iff.mp hs
      obtain ⟨call, ht, hreply⟩ := Option.bind_eq_some_iff.mp hreply
      refine ⟨.quiet rfl (fun t' role' hrole' => ?_) rfl, forall_mem_set hcalm trivial⟩
      have hcalls : System.calls { s with calls := s.calls.set t .returned } =
        s.calls.set t .returned := rfl
      obtain ⟨-, hafter, hothers⟩ := role_set ht hcalls
      by_cases ht' : t' = t
      · subst ht'
        exact Or.inl (Option.some.inj (hafter.symm.trans hrole')).symm
      · exact Or.inr ((hothers t' ht').symm.trans hrole')
  | work k sorted =>
      obtain ⟨handout, -, hs⟩ := Option.bind_eq_some_iff.mp hs
      obtain ⟨r, -, rfl⟩ := Option.map_eq_some_iff.mp hs
      exact ⟨.quiet rfl (fun _ _ h => Or.inr h) rfl, hcalm⟩
  | tick now =>
      rw [System.step] at hs
      split at hs
      · rename_i hle
        obtain rfl := Option.some.inj hs
        exact ⟨.quiet rfl (fun _ _ h => Or.inr h) rfl, fun call hcall =>
          (hcalm call hcall).mono hle⟩
      · cases hs

/-- After a step of the call `t`, the other roles are as before. -/
theorem role_cases {t : ℕ} {role' : Role} (hafter : s'.role t = some role')
    (hothers : ∀ t', t' ≠ t → s'.role t' = s.role t') {t' : ℕ} {role : Role}
    (h : s'.role t' = some role) : t' = t ∧ role = role' ∨ t' ≠ t ∧ s.role t' = some role := by
  by_cases ht : t' = t
  · subst ht
    exact Or.inl ⟨rfl, Option.some.inj (h.symm.trans hafter)⟩
  · exact Or.inr ⟨ht, (hothers t' ht).symm.trans h⟩

theorem role_of_ne {t : ℕ} {role' : Role} (hafter : s'.role t = some role')
    (hothers : ∀ t', t' ≠ t → s'.role t' = s.role t') {t' : ℕ} {role : Role}
    (h : s'.role t' = some role) (hne : role ≠ role') : t' ≠ t ∧ s.role t' = some role :=
  (role_cases hafter hothers h).resolve_left fun heq => hne heq.2

end System

end MapReduce

end DistributedLabs
