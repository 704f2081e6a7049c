import DistributedLabs.Logic.Lists
import DistributedLabs.Logic.Run
import DistributedLabs.MapReduce.Sequential
import DistributedLabs.MapReduce.Concurrent

/-!
# Calls of `GetTask` that wait for a task

`GetTask` receives from a channel only after it has found it nonempty. Between the two
operations another call may take the last task. The channel is empty then, and the call
waits until a task is sent to it again, which may never happen.
-/

namespace DistributedLabs

namespace MapReduce

/-- The channel that a call is about to receive from. -/
def Call.receives? : Call → Option Kind
  | .getTask (.receive kind _) => some kind
  | _ => none

/-! ## The operations -/

section

variable {c c' : Coordinator} {clock : ℕ}

/-- An operation other than a receive empties no channel, and a call goes on to receive
from a channel that it has found nonempty. -/
structure Fills (c c' : Coordinator) (call' : Call) : Prop where
  queue : ∀ kind, c.queue kind ≠ [] → c'.queue kind ≠ []
  receives : ∀ kind ∈ call'.receives?, c'.queue kind ≠ []

/-- The channels stay as they are. -/
theorem Fills.of_queue {call' : Call} (hqueue : ∀ kind, c'.queue kind = c.queue kind)
    (hcall : call'.receives? = none) : Fills c c' call' := by
  refine ⟨fun kind hne => hqueue kind ▸ hne, fun kind hkind => ?_⟩
  rw [hcall] at hkind
  cases hkind

theorem queue_setStates (c : Coordinator) (states : TaskStates) (kind kind' : Kind) :
    (c.setStates states kind).queue kind' = c.queue kind' := by
  cases kind <;> cases kind' <;> rfl

theorem send_ne_nil {capacity : ℕ} {chan chan' : List Task} {task : Task}
    (h : Coordinator.send capacity chan task = some chan') : chan' ≠ [] := by
  unfold Coordinator.send at h
  split at h
  · obtain rfl := Option.some.inj h
    exact List.append_ne_nil_of_right_ne_nil _ (List.cons_ne_nil _ _)
  · cases h

theorem GetTaskCall.fills {call call' : GetTaskCall} (hs : call.step c clock = some (c', call'))
    (hcall : (Call.getTask call).receives? = none) : Fills c c' (.getTask call') := by
  cases call with
  | loadState =>
      obtain ⟨rfl, rfl⟩ := Prod.mk.inj (Option.some.inj hs)
      refine .of_queue (fun _ => rfl) ?_
      split <;> rfl
  | testState state =>
      obtain ⟨rfl, rfl⟩ := Prod.mk.inj (Option.some.inj hs)
      refine .of_queue (fun _ => rfl) ?_
      split <;> rfl
  | testLen kind state =>
      obtain ⟨rfl, rfl⟩ := Prod.mk.inj (Option.some.inj hs)
      refine ⟨fun _ => id, fun kind' hkind' => ?_⟩
      split at hkind'
      · rename_i task rest hqueue
        obtain rfl := Option.some.inj hkind'
        rw [hqueue]
        exact List.cons_ne_nil _ _
      · cases hkind'
      · cases hkind'
  | receive kind state => cases hcall
  | readClock kind state task =>
      obtain ⟨rfl, rfl⟩ := Prod.mk.inj (Option.some.inj hs)
      exact .of_queue (fun _ => rfl) rfl
  | storeState kind state task now =>
      obtain ⟨rfl, rfl⟩ := Prod.mk.inj (Option.some.inj hs)
      exact .of_queue (queue_setStates c _ kind) rfl
  | readLen kind state task =>
      cases kind with
      | map =>
          obtain ⟨rfl, rfl⟩ := Prod.mk.inj (Option.some.inj hs)
          exact .of_queue (fun _ => rfl) rfl
      | reduce =>
          obtain ⟨rfl, rfl⟩ := Prod.mk.inj (Option.some.inj hs)
          exact .of_queue (fun _ => rfl) rfl
  | readReduceLen reply =>
      obtain ⟨rfl, rfl⟩ := Prod.mk.inj (Option.some.inj hs)
      exact .of_queue (fun _ => rfl) rfl
  | replied reply => cases hs

theorem TaskFinCall.fills {call call' : TaskFinCall}
    (hs : call.step c clock = some (c', call')) : Fills c c' (.taskFin call') := by
  cases call with
  | readClock task =>
      obtain ⟨rfl, rfl⟩ := Prod.mk.inj (Option.some.inj hs)
      exact .of_queue (fun _ => rfl) rfl
  | beginCount kind stored task now =>
      obtain ⟨rfl, rfl⟩ := Prod.mk.inj (Option.some.inj hs)
      exact .of_queue (fun _ => rfl) rfl
  | count kind stored task now r =>
      rw [TaskFinCall.step] at hs
      split at hs
      · obtain ⟨rfl, rfl⟩ := Prod.mk.inj (Option.some.inj hs)
        exact .of_queue (fun _ => rfl) rfl
      · cases hs
  | loadState kind task now =>
      obtain ⟨st, -, hs⟩ := Option.map_eq_some_iff.mp hs
      obtain ⟨rfl, rfl⟩ := Prod.mk.inj hs
      exact .of_queue (fun _ => rfl) rfl
  | storeState kind task now =>
      obtain ⟨rfl, rfl⟩ := Prod.mk.inj (Option.some.inj hs)
      exact .of_queue (queue_setStates c _ kind) rfl
  | setState kind =>
      cases kind with
      | map =>
          obtain ⟨rfl, rfl⟩ := Prod.mk.inj (Option.some.inj hs)
          exact .of_queue (fun kind => by cases kind <;> rfl) rfl
      | reduce =>
          obtain ⟨rfl, rfl⟩ := Prod.mk.inj (Option.some.inj hs)
          exact .of_queue (fun kind => by cases kind <;> rfl) rfl
  | send i =>
      rw [TaskFinCall.step] at hs
      split at hs
      · obtain ⟨chan, hchan, hs⟩ := Option.map_eq_some_iff.mp hs
        obtain ⟨rfl, rfl⟩ := Prod.mk.inj hs
        refine ⟨fun kind hne => ?_, fun kind hkind => nomatch hkind⟩
        cases kind with
        | map => exact hne
        | reduce => exact send_ne_nil hchan
      · obtain ⟨rfl, rfl⟩ := Prod.mk.inj (Option.some.inj hs)
        exact .of_queue (fun _ => rfl) rfl
  | returned => cases hs

theorem DoneCall.fills {call call' : DoneCall}
    (hs : call.step c clock = some (c', call')) : Fills c c' (.done call') := by
  cases call with
  | loadState =>
      obtain ⟨rfl, rfl⟩ := Prod.mk.inj (Option.some.inj hs)
      exact .of_queue (fun _ => rfl) rfl
  | readClock kind =>
      obtain ⟨rfl, rfl⟩ := Prod.mk.inj (Option.some.inj hs)
      exact .of_queue (fun _ => rfl) rfl
  | testKey kind now i =>
      obtain ⟨rfl, rfl⟩ := Prod.mk.inj (Option.some.inj hs)
      exact .of_queue (fun _ => rfl) rfl
  | loadTask kind now i =>
      obtain ⟨st, -, hs⟩ := Option.map_eq_some_iff.mp hs
      obtain ⟨rfl, rfl⟩ := Prod.mk.inj hs
      exact .of_queue (fun _ => rfl) rfl
  | send kind now i =>
      obtain ⟨task, -, hs⟩ := Option.bind_eq_some_iff.mp hs
      obtain ⟨chan, hchan, hs⟩ := Option.map_eq_some_iff.mp hs
      obtain ⟨rfl, rfl⟩ := Prod.mk.inj hs
      refine ⟨fun kind' hne => ?_, fun kind' hkind' => nomatch hkind'⟩
      have hne' := send_ne_nil hchan
      cases kind <;> cases kind' <;> assumption
  | beginCount =>
      obtain ⟨rfl, rfl⟩ := Prod.mk.inj (Option.some.inj hs)
      exact .of_queue (fun _ => rfl) rfl
  | count r =>
      rw [DoneCall.step] at hs
      split at hs
      · obtain ⟨rfl, rfl⟩ := Prod.mk.inj (Option.some.inj hs)
        exact .of_queue (fun _ => rfl) rfl
      · cases hs
  | returned ret => cases hs

theorem Call.fills {call call' : Call} (hs : call.step c clock = some (c', call'))
    (hcall : call.receives? = none) : Fills c c' call' := by
  cases call with
  | getTask call =>
      obtain ⟨r, hr, hs⟩ := Option.map_eq_some_iff.mp hs
      obtain ⟨rfl, rfl⟩ := Prod.mk.inj hs
      exact GetTaskCall.fills hr hcall
  | taskFin call =>
      obtain ⟨r, hr, hs⟩ := Option.map_eq_some_iff.mp hs
      obtain ⟨rfl, rfl⟩ := Prod.mk.inj hs
      exact TaskFinCall.fills hr
  | done call =>
      obtain ⟨r, hr, hs⟩ := Option.map_eq_some_iff.mp hs
      obtain ⟨rfl, rfl⟩ := Prod.mk.inj hs
      exact DoneCall.fills hr
  | returned => cases hs

end

/-! ## The system -/

namespace System

variable {γ : Type*} {fmt : Format γ} {mapf : String → γ → List KeyValue}
  {reducef : String → List String → String} {s s' : System γ}

/-- A call of `GetTask` waits to receive from a channel that is empty. -/
def Waiting (s : System γ) : Prop :=
  ∃ call ∈ s.calls, ∃ kind ∈ call.receives?, s.coordinator.queue kind = []

/-- A call does not take the last task of a channel from which another call is about to
receive. -/
def LeavesTask (s : System γ) : Act → Prop
  | .run t => ∀ call ∈ s.calls[t]?, ∀ kind ∈ call.receives?,
      (s.coordinator.queue kind).length = 1 →
      ∀ call' ∈ s.calls.eraseIdx t, call'.receives? ≠ some kind
  | _ => True

instance (s : System γ) : (a : Act) → Decidable (s.LeavesTask a)
  | .run t => inferInstanceAs (Decidable (∀ call ∈ s.calls[t]?, _))
  | .getTask | .taskFin _ | .done | .visit _ _ | .receive _ | .work _ _ | .tick _ =>
      inferInstanceAs (Decidable True)

theorem not_waiting_iff : ¬ s.Waiting ↔
    ∀ call ∈ s.calls, ∀ kind ∈ call.receives?, s.coordinator.queue kind ≠ [] := by
  simp only [Waiting, not_exists, not_and, ne_eq]

/-- A step that leaves the channels alone and brings no call to a receive. -/
theorem not_waiting_of_calls (h : ¬ s.Waiting) (hc : s'.coordinator = s.coordinator)
    (hcalls : ∀ call ∈ s'.calls, call ∈ s.calls ∨ call.receives? = none) : ¬ s'.Waiting := by
  rw [not_waiting_iff] at h ⊢
  intro call hcall kind hkind
  rw [hc]
  rcases hcalls call hcall with hold | hnone
  · exact h call hold kind hkind
  · rw [hnone] at hkind
    cases hkind

/-- A call is made. -/
theorem not_waiting_call (h : ¬ s.Waiting) {call : Call} (hcall : call.receives? = none) :
    ¬ Waiting { s with calls := s.calls ++ [call] } := by
  refine not_waiting_of_calls h rfl fun call' hcall' => ?_
  rcases List.mem_append.mp hcall' with hold | hnew
  · exact Or.inl hold
  · exact Or.inr (List.mem_singleton.mp hnew ▸ hcall)

theorem receives_of_visit {c : Coordinator} {key : ℕ} {call call' : Call}
    (h : call.visit c key = some call') : call'.receives? = none := by
  cases call with
  | getTask call => cases h
  | taskFin call =>
      obtain ⟨call₁, -, rfl⟩ := Option.map_eq_some_iff.mp h
      rfl
  | done call =>
      obtain ⟨call₁, -, rfl⟩ := Option.map_eq_some_iff.mp h
      rfl
  | returned => cases h

/-- An operation other than a receive. -/
theorem not_waiting_of_fills (h : ¬ s.Waiting) {t : ℕ} {c : Coordinator} {call : Call}
    (hfills : Fills s.coordinator c call) :
    ¬ Waiting { s with coordinator := c, calls := s.calls.set t call } := by
  rw [not_waiting_iff] at h ⊢
  intro call' hcall' kind hkind
  rcases List.mem_or_eq_of_mem_set hcall' with hold | rfl
  · exact hfills.queue kind (h call' hold kind hkind)
  · exact hfills.receives kind hkind

/-- A receive leaves nobody waiting exactly when it does not take the last task from
another call. -/
theorem not_waiting_receive_iff (h : ¬ s.Waiting) {t : ℕ} {kind : Kind} {state : Phase}
    (ht : s.calls[t]? = some (.getTask (.receive kind state))) {task : Task} {rest : List Task}
    (hqueue : s.coordinator.queue kind = task :: rest) (call : Call)
    (hcall : call.receives? = none) :
    ¬ Waiting { s with
        coordinator := s.coordinator.setQueue rest kind, calls := s.calls.set t call } ↔
      s.LeavesTask (.run t) := by
  rw [not_waiting_iff] at h ⊢
  have hlt := (List.getElem?_eq_some_iff.mp ht).1
  constructor
  · rintro hnew call' hcall' kind' hkind' hlen other hother hreceives
    obtain rfl := Option.some.inj (ht.symm.trans hcall')
    obtain rfl := Option.some.inj hkind'
    refine hnew other ((mem_set_iff_eraseIdx hlt).mpr (Or.inr hother)) kind hreceives ?_
    rw [hqueue, List.length_cons, Nat.add_eq_right, List.length_eq_zero_iff] at hlen
    exact (Coordinator.queue_setQueue _ _ _).trans hlen
  · intro hleaves other hother kind' hkind'
    rcases (mem_set_iff_eraseIdx hlt).mp hother with rfl | hrest
    · rw [hcall] at hkind'
      cases hkind'
    · have hold := h other (List.mem_of_mem_eraseIdx hrest) kind' hkind'
      by_cases hkk : kind' = kind
      · subst hkk
        rw [Coordinator.queue_setQueue]
        rintro rfl
        exact hleaves _ ht kind' rfl (by rw [hqueue]; rfl) other hrest hkind'
      · cases kind <;> cases kind' <;> first | exact hold | exact absurd rfl hkk

theorem not_waiting_step_iff (h : ¬ s.Waiting) {a : Act}
    (hs : s.step fmt mapf reducef a = some s') : ¬ s'.Waiting ↔ s.LeavesTask a := by
  cases a with
  | getTask =>
      obtain rfl := Option.some.inj hs
      exact iff_of_true (not_waiting_call h rfl) trivial
  | taskFin k =>
      obtain ⟨handout, -, hs⟩ := Option.bind_eq_some_iff.mp hs
      split at hs
      · obtain rfl := Option.some.inj hs
        exact iff_of_true (not_waiting_call h rfl) trivial
      · cases hs
  | done =>
      obtain rfl := Option.some.inj hs
      exact iff_of_true (not_waiting_call h rfl) trivial
  | run t =>
      obtain ⟨call, ht, hs⟩ := Option.bind_eq_some_iff.mp hs
      obtain ⟨⟨c, call'⟩, hr, rfl⟩ := Option.map_eq_some_iff.mp hs
      cases hreceives : call.receives? with
      | none =>
          refine iff_of_true (not_waiting_of_fills h (Call.fills hr hreceives)) ?_
          intro call₁ ht₁ kind hkind
          obtain rfl := Option.some.inj (ht.symm.trans ht₁)
          rw [hreceives] at hkind
          cases hkind
      | some kind =>
          unfold Call.receives? at hreceives
          split at hreceives
          · rename_i kind₁ state
            obtain ⟨⟨c₁, call₁⟩, hr, heq⟩ := Option.map_eq_some_iff.mp hr
            obtain ⟨task, rest, hqueue, rfl, rfl⟩ := GetTaskCall.receive_cases hr
            obtain ⟨rfl, rfl⟩ := Prod.mk.inj heq
            exact not_waiting_receive_iff h ht hqueue _ rfl
          · cases hreceives
  | visit t key =>
      obtain ⟨call, -, hs⟩ := Option.bind_eq_some_iff.mp hs
      obtain ⟨call', hvisit, rfl⟩ := Option.map_eq_some_iff.mp hs
      refine iff_of_true (not_waiting_of_calls h rfl fun call hcall => ?_) trivial
      exact mem_or_of_mem_set (P := fun call => call.receives? = none) hcall
        (receives_of_visit hvisit)
  | receive t =>
      obtain ⟨reply, -, rfl⟩ := Option.map_eq_some_iff.mp hs
      refine iff_of_true (not_waiting_of_calls h rfl fun call hcall => ?_) trivial
      exact mem_or_of_mem_set (P := fun call => call.receives? = none) hcall rfl
  | work k sorted =>
      obtain ⟨handout, -, hs⟩ := Option.bind_eq_some_iff.mp hs
      obtain ⟨r, -, rfl⟩ := Option.map_eq_some_iff.mp hs
      exact iff_of_true (not_waiting_of_calls h rfl fun call hcall => Or.inl hcall) trivial
  | tick now =>
      rw [System.step] at hs
      split at hs
      · obtain rfl := Option.some.inj hs
        exact iff_of_true (not_waiting_of_calls h rfl fun call hcall => Or.inl hcall) trivial
      · cases hs

/-- No call of `GetTask` ever waits for a task at an empty channel exactly when no call
takes the last task of a channel from which another one is about to receive. -/
theorem never_waiting_iff {files : List String} {nReduce : ℕ} {dir : Dir γ} {acts : List Act}
    (hexec : exec (step fmt mapf reducef) (make files nReduce dir) acts = some s) :
    meets (step fmt mapf reducef) LeavesTask (make files nReduce dir) acts ↔
      ∀ q, passes (step fmt mapf reducef) (make files nReduce dir) acts q → ¬ q.Waiting := by
  refine meets_iff_forall_passes (fun _ _ _ h hs => not_waiting_step_iff h hs) ?_ hexec
  rintro ⟨call, hcall, -⟩
  cases hcall

/-- Two workers ask for a task, and the second one when the first one has got it. -/
def oneAfterTheOther : List Act :=
  [.getTask, .run 0, .run 0, .getTask, .run 0, .run 1, .run 1]

theorem never_waiting_iff_oneAfterTheOther :
    ∃ s, exec (step taggedFormat wordMap countReduce) (make ["a"] 1 (twoFiles "a" "b"))
        oneAfterTheOther = some s ∧
      ∀ q, passes (step taggedFormat wordMap countReduce) (make ["a"] 1 (twoFiles "a" "b"))
        oneAfterTheOther q → ¬ q.Waiting :=
  ⟨_, rfl, (never_waiting_iff (show exec (step taggedFormat wordMap countReduce)
    (make ["a"] 1 (twoFiles "a" "b")) oneAfterTheOther = some _ from rfl)).mp (by decide)⟩

/-- Both find the only map task in the channel before the first one takes it. -/
def bothAsk : List Act :=
  [.getTask, .getTask, .run 0, .run 1, .run 0, .run 1, .run 0]

/-- The second call waits at the empty channel: its receive cannot be carried out. -/
theorem bothAsk_waiting :
    ∃ s, exec (step taggedFormat wordMap countReduce) (make ["a"] 1 (twoFiles "a" "b"))
        bothAsk = some s ∧ s.Waiting ∧ s.coordinator.mapTask = [] ∧
      s.calls[1]? = some (.getTask (.receive .map .map)) ∧
      (s.step taggedFormat wordMap countReduce (.run 1)).isNone :=
  ⟨_, rfl, ⟨_, List.mem_cons_of_mem _ List.mem_cons_self, .map, rfl, rfl⟩, rfl, rfl, rfl⟩

end System

end MapReduce

end DistributedLabs
