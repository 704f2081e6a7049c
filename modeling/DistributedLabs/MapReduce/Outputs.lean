import DistributedLabs.MapReduce.Barrier

/-!
# The output of a job, whatever its workers do

Workers take tasks from the coordinator while its calls interleave; they work file by
file, and any of them may stop or be overtaken by another one with the same task. Every
task that reaches a worker is one of the job, and files are only added or replaced, so
that a worker finds what it reads if the input files are there. What is renamed to the
name of an intermediate or an output file is always what belongs there. So a file that is
there stays right when it is written again, and the output files are those of
`mrsequential` as soon as every reduce task has been completed once.

The latter needs input files that are not overwritten, by the map tasks or, since a map
task may still run when the reduce tasks do, by the reduce tasks. All of it rests on
renames that succeed, and on a name that stands for its file, as in `Worker`.
-/

namespace DistributedLabs

namespace MapReduce

/-! ## Tasks of the job -/

/-- A task of the job with the given input files and `R` reduce tasks. -/
def Task.Genuine (files : List String) (R : ℕ) (task : Task) : Kind → Prop
  | .map => files[task.mapId]? = some task.fileName
  | .reduce => task.reduceId < R

structure Coordinator.Genuine (files : List String) (R : ℕ) (c : Coordinator) : Prop where
  inputs : c.files = files
  queue : ∀ kind, ∀ task ∈ c.queue kind, task.Genuine files R kind

/-- If the reply tells a worker to do something, it is to do with a task of the job. -/
def TaskResponse.Genuine (files : List String) (R : ℕ) (reply : TaskResponse) : Prop :=
  reply.numMapTasks = files.length ∧
    ∀ kind, reply.kind = some kind → reply.xTask.Genuine files R kind

def GetTaskCall.Genuine (files : List String) (R : ℕ) : GetTaskCall → Prop
  | .testState state => state ≠ .map
  | .readClock kind _ task | .storeState kind _ task _ | .readLen kind _ task =>
      task.Genuine files R kind
  | .readReduceLen reply =>
      reply.numMapTasks = files.length ∧ reply.state = .map ∧
        (0 ≤ reply.curNumMapTasks → reply.xTask.Genuine files R .map)
  | .replied reply => reply.Genuine files R
  | .loadState | .testLen _ _ | .receive _ _ => True

/-- `TimeTick` sends the reduce tasks below `NumReduceTasks` again. -/
def DoneCall.Genuine (R : ℕ) : DoneCall → Prop
  | .loadTask kind _ i | .send kind _ i => kind = .reduce → i < R
  | _ => True

def Call.Genuine (files : List String) (R : ℕ) : Call → Prop
  | .getTask call => call.Genuine files R
  | .done call => call.Genuine R
  | .taskFin _ | .returned => True

def Handout.Genuine (files : List String) (R : ℕ) (h : Handout) : Prop :=
  h.reply.numMapTasks = files.length ∧ h.reply.xTask.Genuine files R h.kind

/-- A length of -1 tells a worker that there is no task. -/
theorem not_zero_le_noTask : ¬ (0 : ℤ) ≤ -1 := by decide

theorem TaskResponse.kind_cases {reply : TaskResponse} {kind : Kind}
    (h : reply.kind = some kind) :
    (kind = .map ∧ 0 ≤ reply.curNumMapTasks ∧ reply.state = .map) ∨
      (kind = .reduce ∧ 0 ≤ reply.curNumReduceTasks ∧ reply.state = .reduce) := by
  unfold TaskResponse.kind at h
  split at h
  · rename_i hmap
    exact Or.inl ⟨(Option.some.inj h).symm, hmap⟩
  · split at h
    · rename_i hreduce
      exact Or.inr ⟨(Option.some.inj h).symm, hreduce⟩
    · cases h

section

variable {files : List String} {R : ℕ} {c c' : Coordinator} {clock : ℕ}

theorem Coordinator.Genuine.setStates (hc : c.Genuine files R) (states : TaskStates)
    (kind : Kind) : (c.setStates states kind).Genuine files R := by
  cases kind with
  | map => exact ⟨hc.inputs, hc.queue⟩
  | reduce => exact ⟨hc.inputs, hc.queue⟩

theorem Coordinator.Genuine.setQueue (hc : c.Genuine files R) {queue : List Task} (kind : Kind)
    (hqueue : ∀ task ∈ queue, task.Genuine files R kind) :
    (c.setQueue queue kind).Genuine files R := by
  cases kind with
  | map =>
      refine ⟨hc.inputs, fun kind => ?_⟩
      cases kind with
      | map => exact hqueue
      | reduce => exact hc.queue .reduce
  | reduce =>
      refine ⟨hc.inputs, fun kind => ?_⟩
      cases kind with
      | map => exact hc.queue .map
      | reduce => exact hqueue

theorem Coordinator.Genuine.retry (hc : c.Genuine files R) {i : ℕ} {kind : Kind} {task : Task}
    (hi : kind = .reduce → i < R) (htask : c.retry i kind = some task) :
    task.Genuine files R kind := by
  cases kind with
  | map =>
      obtain ⟨fileName, hname, rfl⟩ := Option.map_eq_some_iff.mp htask
      rw [hc.inputs] at hname
      exact hname
  | reduce =>
      obtain rfl := Option.some.inj htask
      exact hi rfl

/-- A reply without a task makes a worker run `DoReduce` all the same if the job is
finished between the two looks at `State`; it is then the reduce task 0. -/
theorem Coordinator.response_genuine (hN : c.numMapTasks = files.length) (hR : 0 < R)
    {state : Phase} (hstate : state ≠ .map) : (c.response state).Genuine files R := by
  refine ⟨hN, fun kind hkind => ?_⟩
  rcases TaskResponse.kind_cases hkind with ⟨-, -, hmap⟩ | ⟨rfl, -, -⟩
  · exact absurd hmap hstate
  · exact hR

theorem GetTaskCall.Genuine.step {M : ℕ → Prop} {call call' : GetTaskCall} (hR : 0 < R)
    (hsound : c.Sound files.length R M) (hcall : call.Sound files.length R M)
    (hc : c.Genuine files R) (h : call.Genuine files R)
    (hs : call.step c clock = some (c', call')) :
    c'.Genuine files R ∧ call'.Genuine files R := by
  have hN := hsound.numMapTasks
  cases call with
  | loadState =>
      obtain ⟨rfl, rfl⟩ := Prod.mk.inj (Option.some.inj hs)
      refine ⟨hc, ?_⟩
      split
      · trivial
      · rename_i hstate
        exact hstate
  | testState state =>
      obtain ⟨rfl, rfl⟩ := Prod.mk.inj (Option.some.inj hs)
      refine ⟨hc, ?_⟩
      split
      · trivial
      · exact c.response_genuine hN hR h
  | testLen kind state =>
      obtain ⟨rfl, rfl⟩ := Prod.mk.inj (Option.some.inj hs)
      refine ⟨hc, ?_⟩
      split
      · trivial
      · exact ⟨hN, hcall.1 rfl, fun hlen => absurd hlen not_zero_le_noTask⟩
      · refine ⟨hN, fun kind hkind => ?_⟩
        rcases TaskResponse.kind_cases hkind with ⟨-, hlen, -⟩ | ⟨-, hlen, -⟩
        · exact absurd hlen not_zero_le_noTask
        · exact absurd hlen not_zero_le_noTask
  | receive kind state =>
      obtain ⟨task, rest, hqueue, rfl, rfl⟩ := GetTaskCall.receive_cases hs
      have hgenuine := hc.queue kind
      rw [hqueue, List.forall_mem_cons] at hgenuine
      exact ⟨hc.setQueue _ hgenuine.2, hgenuine.1⟩
  | readClock kind state task =>
      obtain ⟨rfl, rfl⟩ := Prod.mk.inj (Option.some.inj hs)
      exact ⟨hc, h⟩
  | storeState kind state task now =>
      obtain ⟨rfl, rfl⟩ := Prod.mk.inj (Option.some.inj hs)
      exact ⟨hc.setStates _ kind, h⟩
  | readLen kind state task =>
      cases kind with
      | map =>
          obtain ⟨rfl, rfl⟩ := Prod.mk.inj (Option.some.inj hs)
          exact ⟨hc, hN, (hcall.1 rfl).1, fun _ => h⟩
      | reduce =>
          obtain ⟨rfl, rfl⟩ := Prod.mk.inj (Option.some.inj hs)
          refine ⟨hc, hN, fun kind hkind => ?_⟩
          rcases TaskResponse.kind_cases hkind with ⟨-, hlen, -⟩ | ⟨rfl, -, -⟩
          · exact absurd hlen not_zero_le_noTask
          · exact h
  | readReduceLen reply =>
      obtain ⟨rfl, rfl⟩ := Prod.mk.inj (Option.some.inj hs)
      obtain ⟨hlen, hstate, htask⟩ := h
      refine ⟨hc, hlen, fun kind hkind => ?_⟩
      rcases TaskResponse.kind_cases hkind with ⟨rfl, hcur, -⟩ | ⟨-, -, hreduce⟩
      · exact htask hcur
      · exact Phase.noConfusion (hstate.symm.trans hreduce)
  | replied reply => cases hs

theorem TaskFinCall.step_genuine {M : ℕ → Prop} {call call' : TaskFinCall}
    (hsound : c.Sound files.length R M) (hc : c.Genuine files R)
    (hs : call.step c clock = some (c', call')) : c'.Genuine files R := by
  cases call with
  | readClock task =>
      obtain ⟨rfl, rfl⟩ := Prod.mk.inj (Option.some.inj hs)
      exact hc
  | beginCount kind stored task now =>
      obtain ⟨rfl, rfl⟩ := Prod.mk.inj (Option.some.inj hs)
      exact hc
  | count kind stored task now r =>
      rw [TaskFinCall.step] at hs
      split at hs
      · obtain ⟨rfl, rfl⟩ := Prod.mk.inj (Option.some.inj hs)
        exact hc
      · cases hs
  | loadState kind task now =>
      obtain ⟨curState, -, hs⟩ := Option.map_eq_some_iff.mp hs
      obtain ⟨rfl, rfl⟩ := Prod.mk.inj hs
      exact hc
  | storeState kind task now =>
      obtain ⟨rfl, rfl⟩ := Prod.mk.inj (Option.some.inj hs)
      exact hc.setStates _ kind
  | setState kind =>
      cases kind with
      | map =>
          obtain ⟨rfl, rfl⟩ := Prod.mk.inj (Option.some.inj hs)
          exact ⟨hc.inputs, hc.queue⟩
      | reduce =>
          obtain ⟨rfl, rfl⟩ := Prod.mk.inj (Option.some.inj hs)
          exact ⟨hc.inputs, hc.queue⟩
  | send i =>
      rw [TaskFinCall.step] at hs
      split at hs
      · rename_i hi
        obtain ⟨chan, hchan, hs⟩ := Option.map_eq_some_iff.mp hs
        obtain ⟨rfl, rfl⟩ := Prod.mk.inj hs
        rw [hsound.numReduceTasks] at hi
        exact hc.setQueue .reduce
          (Coordinator.send_forall hchan (hc.queue .reduce) hi)
      · obtain ⟨rfl, rfl⟩ := Prod.mk.inj (Option.some.inj hs)
        exact hc
  | returned => cases hs

theorem DoneCall.Genuine.step {M : ℕ → Prop} {call call' : DoneCall}
    (hsound : c.Sound files.length R M) (hc : c.Genuine files R) (h : call.Genuine R)
    (hs : call.step c clock = some (c', call')) :
    c'.Genuine files R ∧ call'.Genuine R := by
  cases call with
  | loadState =>
      obtain ⟨rfl, rfl⟩ := Prod.mk.inj (Option.some.inj hs)
      refine ⟨hc, ?_⟩
      split
      · trivial
      · trivial
      · trivial
  | readClock kind =>
      obtain ⟨rfl, rfl⟩ := Prod.mk.inj (Option.some.inj hs)
      exact ⟨hc, trivial⟩
  | testKey kind now i =>
      obtain ⟨rfl, rfl⟩ := Prod.mk.inj (Option.some.inj hs)
      refine ⟨hc, ?_⟩
      split
      · rename_i hi
        split
        · rintro rfl
          exact hsound.numReduceTasks ▸ hi
        · trivial
      · trivial
  | loadTask kind now i =>
      obtain ⟨tmp, -, hs⟩ := Option.map_eq_some_iff.mp hs
      obtain ⟨rfl, rfl⟩ := Prod.mk.inj hs
      refine ⟨hc, ?_⟩
      split
      · exact h
      · trivial
  | send kind now i =>
      obtain ⟨task, htask, hs⟩ := Option.bind_eq_some_iff.mp hs
      obtain ⟨chan, hchan, hs⟩ := Option.map_eq_some_iff.mp hs
      obtain ⟨rfl, rfl⟩ := Prod.mk.inj hs
      exact ⟨hc.setQueue _ (Coordinator.send_forall hchan (hc.queue kind) (hc.retry h htask)),
        trivial⟩
  | beginCount =>
      obtain ⟨rfl, rfl⟩ := Prod.mk.inj (Option.some.inj hs)
      exact ⟨hc, trivial⟩
  | count r =>
      rw [DoneCall.step] at hs
      split at hs
      · obtain ⟨rfl, rfl⟩ := Prod.mk.inj (Option.some.inj hs)
        exact ⟨hc, trivial⟩
      · cases hs
  | returned ret => cases hs

theorem Call.Genuine.step {M : ℕ → Prop} {call call' : Call} (hR : 0 < R)
    (hsound : c.Sound files.length R M) (hcall : call.Sound files.length R M)
    (hc : c.Genuine files R) (h : call.Genuine files R)
    (hs : call.step c clock = some (c', call')) :
    c'.Genuine files R ∧ call'.Genuine files R := by
  cases call with
  | getTask call =>
      obtain ⟨r, hr, hs⟩ := Option.map_eq_some_iff.mp hs
      obtain ⟨rfl, rfl⟩ := Prod.mk.inj hs
      exact GetTaskCall.Genuine.step hR hsound hcall hc h hr
  | taskFin call =>
      obtain ⟨r, hr, hs⟩ := Option.map_eq_some_iff.mp hs
      obtain ⟨rfl, rfl⟩ := Prod.mk.inj hs
      exact ⟨TaskFinCall.step_genuine hsound hc hr, trivial⟩
  | done call =>
      obtain ⟨r, hr, hs⟩ := Option.map_eq_some_iff.mp hs
      obtain ⟨rfl, rfl⟩ := Prod.mk.inj hs
      exact DoneCall.Genuine.step hsound hc h hr
  | returned => cases hs

theorem Call.Genuine.visit {call call' : Call} {key : ℕ}
    (hs : call.visit c key = some call') : call'.Genuine files R := by
  cases call with
  | getTask call => cases hs
  | taskFin call =>
      obtain ⟨call₁, -, rfl⟩ := Option.map_eq_some_iff.mp hs
      trivial
  | done call =>
      obtain ⟨call₁, hcall, rfl⟩ := Option.map_eq_some_iff.mp hs
      cases call with
      | count r =>
          obtain ⟨r', -, rfl⟩ := Option.map_eq_some_iff.mp hcall
          trivial
      | _ => cases hcall
  | returned => cases hs

end

namespace System

variable {γ : Type*} {fmt : Format γ} {mapf : String → γ → List KeyValue}
  {reducef : String → List String → String} {s s' : System γ} {files : List String} {R : ℕ}

/-- Only tasks of the job are in the channels, on their way and in the hands of the
workers. -/
structure TaskInv (files : List String) (R : ℕ) (s : System γ) : Prop where
  barrier : BarrierInv files.length R s
  coordinator : s.coordinator.Genuine files R
  calls : ∀ call ∈ s.calls, call.Genuine files R
  handouts : ∀ h ∈ s.handouts, h.Genuine files R

theorem taskInv_make (files : List String) (R : ℕ) (dir : Dir γ) :
    TaskInv files R (make files R dir) where
  barrier := barrierInv_make files R dir
  coordinator := by
    refine ⟨rfl, fun kind task htask => ?_⟩
    cases kind with
    | map =>
        obtain ⟨i, hi, rfl⟩ := List.mem_mapIdx.mp htask
        exact List.getElem?_eq_getElem hi
    | reduce => cases htask
  calls := by rintro call (_ | _)
  handouts := by rintro h (_ | _)

theorem TaskInv.step (hR : 0 < R) (h : TaskInv files R s) {a : Act}
    (hs : s.step fmt mapf reducef a = some s') : TaskInv files R s' := by
  have hbarrier := h.barrier.step hs
  have hmake : ∀ call : Call, call.Genuine files R →
      ∀ call' ∈ s.calls ++ [call], call'.Genuine files R := fun call hcall =>
    List.forall_mem_append.mpr ⟨h.calls, List.forall_mem_singleton.mpr hcall⟩
  cases a with
  | getTask =>
      obtain rfl := Option.some.inj hs
      exact ⟨hbarrier, h.coordinator, hmake _ trivial, h.handouts⟩
  | taskFin k =>
      obtain ⟨handout, hk, hs⟩ := Option.bind_eq_some_iff.mp hs
      split at hs
      · obtain rfl := Option.some.inj hs
        exact ⟨hbarrier, h.coordinator, hmake _ trivial, h.handouts⟩
      · cases hs
  | done =>
      obtain rfl := Option.some.inj hs
      exact ⟨hbarrier, h.coordinator, hmake _ trivial, h.handouts⟩
  | run t =>
      obtain ⟨call, hcall, hs⟩ := Option.bind_eq_some_iff.mp hs
      obtain ⟨⟨c, call'⟩, hr, rfl⟩ := Option.map_eq_some_iff.mp hs
      have hmem := List.mem_of_getElem? hcall
      obtain ⟨hc, hcall'⟩ := Call.Genuine.step hR h.barrier.coordinator
        (h.barrier.calls call hmem) h.coordinator (h.calls call hmem) hr
      exact ⟨hbarrier, hc, forall_mem_set h.calls hcall', h.handouts⟩
  | visit t key =>
      obtain ⟨call, hcall, hs⟩ := Option.bind_eq_some_iff.mp hs
      obtain ⟨call', hvisit, rfl⟩ := Option.map_eq_some_iff.mp hs
      exact ⟨hbarrier, h.coordinator, forall_mem_set h.calls (Call.Genuine.visit hvisit),
        h.handouts⟩
  | receive t =>
      obtain ⟨reply, hreply, rfl⟩ := Option.map_eq_some_iff.mp hs
      obtain ⟨call, hcall, hreply⟩ := Option.bind_eq_some_iff.mp hreply
      obtain rfl := Call.eq_of_reply? hreply
      have hgenuine : reply.Genuine files R := h.calls _ (List.mem_of_getElem? hcall)
      refine ⟨hbarrier, h.coordinator, forall_mem_set h.calls trivial,
        List.forall_mem_append.mpr ⟨h.handouts, fun handout hmem => ?_⟩⟩
      obtain ⟨kind, hkind, rfl⟩ := Option.map_eq_some_iff.mp (Option.mem_toList.mp hmem)
      exact ⟨hgenuine.1, hgenuine.2 kind hkind⟩
  | work k sorted =>
      obtain ⟨handout, hk, hs⟩ := Option.bind_eq_some_iff.mp hs
      obtain ⟨⟨dir, progress⟩, hwork, rfl⟩ := Option.map_eq_some_iff.mp hs
      exact ⟨hbarrier, h.coordinator, h.calls,
        forall_mem_set h.handouts (h.handouts handout (List.mem_of_getElem? hk))⟩
  | tick now =>
      rw [System.step] at hs
      split at hs
      · obtain rfl := Option.some.inj hs
        exact ⟨hbarrier, h.coordinator, h.calls, h.handouts⟩
      · cases hs

end System

/-! ## Every worker can complete its task -/

namespace Handout

/-- A worker that was given a map task runs `DoMap`, and one that was given a reduce task
runs `DoReduce`. -/
def OnTask (h : Handout) : Prop :=
  match h.kind, h.progress with
  | _, .given | .map, .mapping _ _ | .reduce, .reducing _ _ | _, .done => True
  | .map, .reducing _ _ | .reduce, .mapping _ _ => False

/-- The file operations that are left of a task, with the first and the last step. -/
def remaining (N R : ℕ) (h : Handout) : ℕ :=
  match h.kind, h.progress with
  | .map, .given => R + 2
  | .map, .mapping _ i => R - i + 1
  | .reduce, .given => N + 2
  | .reduce, .reducing _ i => N - i + 1
  | _, _ => 0

variable {γ : Type*} {fmt : Format γ} {mapf : String → γ → List KeyValue}
  {reducef : String → List String → String} {dir dir' : Dir γ} {files : List String} {R : ℕ}
  {h : Handout} {sorted : List KeyValue} {progress : Progress}

theorem onTask_of_work (hwork : h.work fmt mapf reducef dir sorted = some (dir', progress)) :
    OnTask { h with progress := progress } := by
  obtain ⟨kind, reply, progress₀⟩ := h
  unfold Handout.work at hwork
  dsimp only at hwork
  split at hwork
  · obtain ⟨kva, -, hr⟩ := Option.map_eq_some_iff.mp hwork
    obtain ⟨rfl, rfl⟩ := Prod.mk.inj hr
    trivial
  · split at hwork
    · obtain ⟨rfl, rfl⟩ := Prod.mk.inj (Option.some.inj hwork)
      trivial
    · obtain ⟨rfl, rfl⟩ := Prod.mk.inj (Option.some.inj hwork)
      trivial
  · obtain ⟨rfl, rfl⟩ := Prod.mk.inj (Option.some.inj hwork)
    trivial
  · split at hwork
    · obtain ⟨file, -, hr⟩ := Option.map_eq_some_iff.mp hwork
      obtain ⟨rfl, rfl⟩ := Prod.mk.inj hr
      trivial
    · obtain ⟨-, hr⟩ := Option.ite_none_right_eq_some.mp hwork
      obtain ⟨rfl, rfl⟩ := Prod.mk.inj (Option.some.inj hr)
      trivial
  · cases hwork

/-- A worker does not meet with a file that is missing: it can go on with its task until
it has completed it. -/
theorem OnTask.exists_work (honTask : h.OnTask) (htask : h.Genuine files R)
    (hnum : h.reply.numReduceTasks = R) (hR : 0 < R) (hinputs : ∀ f ∈ files, (dir f).isSome)
    (hmaps : h.kind = .reduce → ∀ m < files.length, ∀ r < R,
      (dir (mapOutFileName m r)).isSome)
    (hdone : h.progress ≠ .done) :
    ∃ sorted dir' progress, h.work fmt mapf reducef dir sorted = some (dir', progress) ∧
      remaining files.length R { h with progress := progress } < h.remaining files.length R := by
  obtain ⟨kind, reply, progress₀⟩ := h
  obtain ⟨hlen, htask⟩ := htask
  cases kind with
  | map =>
      cases progress₀ with
      | given =>
          obtain ⟨file, hfile⟩ :=
            Option.isSome_iff_exists.mp (hinputs _ (List.mem_of_getElem? htask))
          obtain ⟨n, rfl⟩ := Nat.exists_eq_add_of_lt hR
          have hinput : mapInput mapf dir reply =
              some (mapf reply.xTask.fileName file.bytes) := by
            rw [mapInput, hfile, Option.bind_some, show reply.numReduceTasks = 0 + n + 1 from hnum]
            rfl
          refine ⟨[], dir, .mapping (mapf reply.xTask.fileName file.bytes) 0, ?_,
            Nat.lt_succ_self _⟩
          exact congrArg (Option.map fun kva => (dir, Progress.mapping kva 0)) hinput
      | mapping kva i =>
          by_cases hi : i < reply.numReduceTasks
          · refine ⟨[], _, _, if_pos hi, ?_⟩
            have hlt : i < R := hnum ▸ hi
            change R - (i + 1) + 1 < R - i + 1
            omega
          · exact ⟨[], _, _, if_neg hi, Nat.succ_pos _⟩
      | reducing intermediate i => exact honTask.elim
      | done => exact absurd rfl hdone
  | reduce =>
      cases progress₀ with
      | given => exact ⟨[], _, _, rfl, Nat.lt_succ_self _⟩
      | mapping kva i => exact honTask.elim
      | reducing intermediate i =>
          by_cases hi : i < reply.numMapTasks
          · have hlt : i < files.length := hlen ▸ hi
            obtain ⟨file, hfile⟩ := Option.isSome_iff_exists.mp (hmaps rfl i hlt _ htask)
            refine ⟨[], dir, .reducing (intermediate ++ (fmt.decode file.bytes).flatten) (i + 1),
              (if_pos hi).trans ?_, ?_⟩
            · rw [hfile]
              rfl
            · change files.length - (i + 1) + 1 < files.length - i + 1
              omega
          · obtain ⟨sorted, hsort⟩ := exists_isSort intermediate
            exact ⟨sorted, _, _, (if_neg hi).trans (if_pos hsort), Nat.succ_pos _⟩
      | done => exact absurd rfl hdone

end Handout

namespace System

variable {γ : Type*} {fmt : Format γ} {mapf : String → γ → List KeyValue}
  {reducef : String → List String → String} {s s' : System γ} {dir₀ : Dir γ}
  {files : List String} {R : ℕ}

/-- A step that is not a step of a worker leaves the files, and hands out a task at
most. -/
theorem step_files {a : Act} (hs : s.step fmt mapf reducef a = some s') :
    (∃ k sorted, a = .work k sorted) ∨
      s'.dir = s.dir ∧ ∀ h ∈ s'.handouts, h ∈ s.handouts ∨ h.progress = .given := by
  cases a with
  | getTask =>
      obtain rfl := Option.some.inj hs
      exact Or.inr ⟨rfl, fun _ => Or.inl⟩
  | taskFin k =>
      obtain ⟨handout, hk, hs⟩ := Option.bind_eq_some_iff.mp hs
      split at hs
      · obtain rfl := Option.some.inj hs
        exact Or.inr ⟨rfl, fun _ => Or.inl⟩
      · cases hs
  | done =>
      obtain rfl := Option.some.inj hs
      exact Or.inr ⟨rfl, fun _ => Or.inl⟩
  | run t =>
      obtain ⟨call, hcall, hs⟩ := Option.bind_eq_some_iff.mp hs
      obtain ⟨r, hr, rfl⟩ := Option.map_eq_some_iff.mp hs
      exact Or.inr ⟨rfl, fun _ => Or.inl⟩
  | visit t key =>
      obtain ⟨call, hcall, hs⟩ := Option.bind_eq_some_iff.mp hs
      obtain ⟨call', hvisit, rfl⟩ := Option.map_eq_some_iff.mp hs
      exact Or.inr ⟨rfl, fun _ => Or.inl⟩
  | receive t =>
      obtain ⟨reply, hreply, rfl⟩ := Option.map_eq_some_iff.mp hs
      refine Or.inr ⟨rfl, fun h hmem => ?_⟩
      rcases List.mem_append.mp hmem with hold | hnew
      · exact Or.inl hold
      · obtain ⟨kind, hkind, rfl⟩ := Option.map_eq_some_iff.mp (Option.mem_toList.mp hnew)
        exact Or.inr rfl
  | work k sorted => exact Or.inl ⟨k, sorted, rfl⟩
  | tick now =>
      rw [System.step] at hs
      split at hs
      · obtain rfl := Option.some.inj hs
        exact Or.inr ⟨rfl, fun _ => Or.inl⟩
      · cases hs

/-- The files that the workers are going to read are there. -/
structure FilesInv (files : List String) (R : ℕ) (s : System γ) : Prop where
  tasks : TaskInv files R s
  inputs : ∀ f ∈ files, (s.dir f).isSome
  onTask : ∀ h ∈ s.handouts, h.OnTask

theorem filesInv_make (hinputs : ∀ f ∈ files, (dir₀ f).isSome) :
    FilesInv files R (make files R dir₀) where
  tasks := taskInv_make files R dir₀
  inputs := hinputs
  onTask := by rintro h (_ | _)

namespace FilesInv

theorem step (h : FilesInv files R s) (hR : 0 < R) {a : Act}
    (hs : s.step fmt mapf reducef a = some s') : FilesInv files R s' := by
  have htasks := h.tasks.step hR hs
  rcases step_files hs with ⟨k, sorted, rfl⟩ | ⟨hdir, hhandouts⟩
  · obtain ⟨handout, hk, hs⟩ := Option.bind_eq_some_iff.mp hs
    obtain ⟨⟨dir, progress⟩, hwork, rfl⟩ := Option.map_eq_some_iff.mp hs
    have hmem := List.mem_of_getElem? hk
    have hfiles := ((h.tasks.barrier.kept handout hmem).work hwork).1
    exact ⟨htasks, fun f hf => hfiles f (h.inputs f hf),
      forall_mem_set h.onTask (Handout.onTask_of_work hwork)⟩
  · refine ⟨htasks, hdir ▸ h.inputs, fun handout hmem => ?_⟩
    rcases hhandouts handout hmem with hold | hgiven
    · exact h.onTask handout hold
    · rw [Handout.OnTask, hgiven]
      trivial

theorem exists_completion (h : FilesInv files R s) (hR : 0 < R) {k : ℕ} {handout : Handout}
    (hk : s.handouts[k]? = some handout) :
    ∃ (sorts : List (List KeyValue)) (s' : System γ),
      exec (System.step fmt mapf reducef) s (sorts.map (Act.work k)) = some s' ∧
      s'.handouts[k]? = some { handout with progress := .done } := by
  -- by induction on the operations that are left
  induction hn : handout.remaining files.length R using Nat.strong_induction_on
    generalizing s handout with
  | _ n ih =>
  by_cases hdone : handout.progress = .done
  · refine ⟨[], s, rfl, hk.trans ?_⟩
    rw [← hdone]
  · have hmem := List.mem_of_getElem? hk
    obtain ⟨sorted, dir', progress, hwork, hlt⟩ := (h.onTask handout hmem).exists_work
      (h.tasks.handouts handout hmem) (h.tasks.barrier.replies handout hmem) hR h.inputs
      (fun hkind m hm r => h.tasks.barrier.isSome_of_mapped
        (h.tasks.barrier.reduces handout hmem hkind m hm)) hdone
    have hstep : s.step fmt mapf reducef (.work k sorted) =
        some { s with handouts := s.handouts.set k { handout with progress := progress }
                      dir := dir' } := by
      rw [System.step, hk, Option.bind_some, hwork]
      rfl
    have hk' : (s.handouts.set k { handout with progress := progress })[k]? =
        some { handout with progress := progress } :=
      List.getElem?_set_self (List.getElem?_eq_some_iff.mp hk).1
    obtain ⟨sorts, s', hrun, hs'⟩ := ih _ (hn ▸ hlt) (h.step hR hstep) hk' rfl
    exact ⟨sorted :: sorts, s', exec_cons_eq_some.mpr ⟨_, hstep, hrun⟩, hs'⟩

end FilesInv

/-- Whatever has happened so far, a worker that was given a task can complete it on its
own: it does not meet with a file that is missing, whoever has written or stopped, provided
that the input files were there. -/
theorem worker_completes (hR : 0 < R) (hinputs : ∀ f ∈ files, (dir₀ f).isSome)
    {acts : List Act} (hrun : exec (step fmt mapf reducef) (make files R dir₀) acts = some s)
    {k : ℕ} {handout : Handout} (hk : s.handouts[k]? = some handout) :
    ∃ (sorts : List (List KeyValue)) (s' : System γ),
      exec (step fmt mapf reducef) s (sorts.map (Act.work k)) = some s' ∧
        s'.handouts[k]? = some { handout with progress := .done } :=
  have hinv : FilesInv files R s :=
    exec_preserves (fun _ _ _ hI hs => hI.step hR hs) (filesInv_make hinputs) hrun
  hinv.exists_completion hR hk

/-- Both map tasks are reported at the same time, and a worker takes the reduce task. -/
def bothReportThenReduce : List Act :=
  bothReport ++ [.run 3, .getTask, .run 4, .run 4, .run 4, .run 4, .run 4, .run 4, .run 4,
    .receive 4]

theorem worker_completes_bothReportThenReduce :
    ∃ s, exec (step taggedFormat wordMap countReduce) (make ["a", "b"] 1 (twoFiles "a" "b"))
        bothReportThenReduce = some s ∧
      ∃ handout, s.handouts[2]? = some handout ∧ handout.kind = .reduce ∧
      ∃ (sorts : List (List KeyValue)) (s' : System (List KeyValue ⊕ String)),
        exec (step taggedFormat wordMap countReduce) s (sorts.map (Act.work 2)) = some s' ∧
          s'.handouts[2]? = some { handout with progress := .done } :=
  ⟨_, rfl, _, rfl, rfl, worker_completes (by decide) (by decide)
    (show exec (step taggedFormat wordMap countReduce) (make ["a", "b"] 1 (twoFiles "a" "b"))
      bothReportThenReduce = some _ from rfl) rfl⟩

end System

/-! ## Files of the job -/

/-- No input file has the name of a file that the workers write. -/
def Apart (files : List String) (R : ℕ) : Prop :=
  ∀ f ∈ files, ∀ r < R, f ≠ outFileName r ∧ ∀ m < files.length, f ≠ mapOutFileName m r

instance (files : List String) (R : ℕ) : Decidable (Apart files R) :=
  inferInstanceAs (Decidable (∀ f ∈ files, ∀ r < R, f ≠ outFileName r ∧
    ∀ m < files.length, f ≠ mapOutFileName m r))

section

variable {γ : Type*} (fmt : Format γ) (mapf : String → γ → List KeyValue)
  (reducef : String → List String → String) (dir₀ : Dir γ) (files : List String) (R : ℕ)

/-- What may be renamed to a name: the pairs of a map task for a reduce task, or the
records of a reduce task. -/
def Belongs (name : String) (file : File γ) : Prop :=
  (∃ m f r, files[m]? = some f ∧ r < R ∧ name = mapOutFileName m r ∧
    file = { bytes := fmt.encode (pairsOf R r (mapOutput mapf dir₀ f)) }) ∨
  ∃ r sorted, r < R ∧ IsSort (pairsOf R r (files.flatMap (mapOutput mapf dir₀))) sorted ∧
    name = outFileName r ∧ file = reduceFile fmt reducef sorted

/-- A file is there, and is what belongs under its name. -/
def Ready (dir : Dir γ) (name : String) : Prop :=
  ∃ file, dir name = some file ∧ Belongs fmt mapf reducef dir₀ files R name file

/-- What a worker has read is what it had to read, and the files that it has written are
there. -/
def Handout.Right (dir : Dir γ) (h : Handout) : Prop :=
  match h.kind, h.progress with
  | _, .given => True
  | .map, .mapping kva i =>
      kva = mapOutput mapf dir₀ h.reply.xTask.fileName ∧
        ∀ r < R, r < i → Ready fmt mapf reducef dir₀ files R dir
          (mapOutFileName h.reply.xTask.mapId r)
  | .map, .done => ∀ r < R, Ready fmt mapf reducef dir₀ files R dir
      (mapOutFileName h.reply.xTask.mapId r)
  | .reduce, .reducing intermediate i =>
      i ≤ files.length ∧ intermediate =
        pairsOf R h.reply.xTask.reduceId ((files.take i).flatMap (mapOutput mapf dir₀))
  | .reduce, .done => Ready fmt mapf reducef dir₀ files R dir (outFileName h.reply.xTask.reduceId)
  | .map, .reducing _ _ | .reduce, .mapping _ _ => False

end

section

variable {γ : Type*} {fmt : Format γ} {mapf : String → γ → List KeyValue}
  {reducef : String → List String → String} {dir₀ dir dir' : Dir γ} {files : List String}
  {R : ℕ} {name name' : String} {file : File γ}

theorem ready_write (h : Belongs fmt mapf reducef dir₀ files R name file) :
    Ready fmt mapf reducef dir₀ files R (dir.write name file) name :=
  ⟨file, Function.update_self _ _ _, h⟩

/-- What is there stays right, also if it is written again. -/
theorem Ready.write (h : Ready fmt mapf reducef dir₀ files R dir name')
    (hfile : Belongs fmt mapf reducef dir₀ files R name file) :
    Ready fmt mapf reducef dir₀ files R (dir.write name file) name' := by
  by_cases hname : name' = name
  · rw [hname]
    exact ready_write hfile
  · obtain ⟨file', hdir, hbelongs⟩ := h
    exact ⟨file', (Function.update_of_ne hname _ _).trans hdir, hbelongs⟩

theorem InputsKept.write (hnames : Apart files R) (h : InputsKept dir₀ files dir)
    (hfile : Belongs fmt mapf reducef dir₀ files R name file) :
    InputsKept dir₀ files (dir.write name file) := by
  intro f hf
  have hne : f ≠ name := by
    rcases hfile with ⟨m, g, r, hm, hr, rfl, -⟩ | ⟨r, sorted, hr, -, rfl, -⟩
    · exact (hnames f hf r hr).2 m (List.getElem?_eq_some_iff.mp hm).1
    · exact (hnames f hf r hr).1
  exact (Function.update_of_ne hne _ _).trans (h f hf)

theorem Ready.eq_intermediate {m r : ℕ} {f : String} (hm : files[m]? = some f)
    (h : Ready fmt mapf reducef dir₀ files R dir (mapOutFileName m r)) :
    dir (mapOutFileName m r) =
      some { bytes := fmt.encode (pairsOf R r (mapOutput mapf dir₀ f)) } := by
  obtain ⟨file, hdir, ⟨m', g, r', hm', -, hname, rfl⟩ | ⟨r', sorted, -, -, hname, -⟩⟩ := h
  · obtain ⟨rfl, rfl⟩ := mapOutFileName_inj hname
    obtain rfl := Option.some.inj (hm.symm.trans hm')
    exact hdir
  · exact absurd hname (mapOutFileName_ne_outFileName m r r')

theorem Ready.reduced {r : ℕ} (h : Ready fmt mapf reducef dir₀ files R dir (outFileName r)) :
    Reduced fmt mapf dir₀ files R reducef r dir := by
  obtain ⟨file, hdir, ⟨m, g, r', -, -, hname, -⟩ | ⟨r', sorted, -, hsort, hname, rfl⟩⟩ := h
  · exact absurd hname.symm (mapOutFileName_ne_outFileName m r' r)
  · obtain rfl := outFileName_inj hname
    exact ⟨sorted, hsort, hdir⟩

namespace Handout

variable {h : Handout} {sorted : List KeyValue} {progress : Progress}

theorem Right.write (hright : h.Right fmt mapf reducef dir₀ files R dir)
    (hfile : Belongs fmt mapf reducef dir₀ files R name file) :
    h.Right fmt mapf reducef dir₀ files R (dir.write name file) := by
  unfold Handout.Right at hright ⊢
  split at hright
  · trivial
  · exact ⟨hright.1, fun r hr hi => (hright.2 r hr hi).write hfile⟩
  · exact fun r hr => (hright r hr).write hfile
  · exact hright
  · exact hright.write hfile
  · exact hright
  · exact hright

/-- One file operation of a worker writes nothing, or what belongs there. -/
theorem Right.work (hright : h.Right fmt mapf reducef dir₀ files R dir)
    (htask : h.Genuine files R) (hR : h.reply.numReduceTasks = R)
    (hinputs : InputsKept dir₀ files dir)
    (hmaps : h.kind = .reduce → ∀ m < files.length, ∀ r < R,
      Ready fmt mapf reducef dir₀ files R dir (mapOutFileName m r))
    (hwork : h.work fmt mapf reducef dir sorted = some (dir', progress)) :
    (dir' = dir ∨ ∃ name file, Belongs fmt mapf reducef dir₀ files R name file ∧
      dir' = dir.write name file) ∧
    Right fmt mapf reducef dir₀ files R dir' { h with progress := progress } := by
  obtain ⟨kind, reply, progress₀⟩ := h
  obtain ⟨hlen, htask⟩ := htask
  unfold Handout.work at hwork
  dsimp only at hwork htask hR hlen hmaps
  split at hwork
  · -- `DoMap` reads its input
    obtain ⟨kva, hkva, hr⟩ := Option.map_eq_some_iff.mp hwork
    obtain ⟨rfl, rfl⟩ := Prod.mk.inj hr
    obtain ⟨file, hfile, rfl⟩ := mapInput_cases hkva
    refine ⟨Or.inl rfl, ?_, fun r _ hr => absurd hr (Nat.not_lt_zero r)⟩
    rw [hinputs _ (List.mem_of_getElem? htask)] at hfile
    rw [mapOutput, hfile]
    rfl
  · rename_i kva i
    change kva = mapOutput mapf dir₀ reply.xTask.fileName ∧ _ at hright
    obtain ⟨rfl, hwritten⟩ := hright
    split at hwork
    · -- it renames its next file
      rename_i hi
      obtain ⟨rfl, rfl⟩ := Prod.mk.inj (Option.some.inj hwork)
      rw [hR] at hi ⊢
      rw [buckets_getElem? R hi]
      have hbelongs : Belongs fmt mapf reducef dir₀ files R (mapOutFileName reply.xTask.mapId i)
          { bytes := fmt.encode (pairsOf R i (mapOutput mapf dir₀ reply.xTask.fileName)) } :=
        Or.inl ⟨_, _, i, htask, hi, rfl, rfl⟩
      refine ⟨Or.inr ⟨_, _, hbelongs, rfl⟩, rfl, fun r hr hri => ?_⟩
      rcases (Nat.lt_succ_iff.mp hri).lt_or_eq with hlt | rfl
      · exact (hwritten r hr hlt).write hbelongs
      · exact ready_write hbelongs
    · rename_i hi
      obtain ⟨rfl, rfl⟩ := Prod.mk.inj (Option.some.inj hwork)
      exact ⟨Or.inl rfl, fun r hr => hwritten r hr (by omega)⟩
  · obtain ⟨rfl, rfl⟩ := Prod.mk.inj (Option.some.inj hwork)
    exact ⟨Or.inl rfl, Nat.zero_le _, rfl⟩
  · rename_i intermediate i
    change _ ∧ intermediate = pairsOf R reply.xTask.reduceId _ at hright
    obtain ⟨-, rfl⟩ := hright
    split at hwork
    · -- `DoReduce` reads the next file
      rename_i hi
      obtain ⟨file, hfile, hr⟩ := Option.map_eq_some_iff.mp hwork
      obtain ⟨rfl, rfl⟩ := Prod.mk.inj hr
      rw [hlen] at hi
      obtain ⟨f, hf⟩ : ∃ f, files[i]? = some f := ⟨_, List.getElem?_eq_getElem hi⟩
      rw [(hmaps rfl i hi _ htask).eq_intermediate hf] at hfile
      obtain rfl := Option.some.inj hfile
      refine ⟨Or.inl rfl, hi, ?_⟩
      rw [fmt.decode_encode, take_succ_of_getElem? hf]
      simp [pairsOf]
    · rename_i hi
      split at hwork
      · -- it sorts and prints what it has read
        rename_i hsort
        obtain ⟨rfl, rfl⟩ := Prod.mk.inj (Option.some.inj hwork)
        rw [List.take_of_length_le (by omega)] at hsort
        have hbelongs : Belongs fmt mapf reducef dir₀ files R (outFileName reply.xTask.reduceId)
            (reduceFile fmt reducef sorted) :=
          Or.inr ⟨_, sorted, htask, hsort, rfl, rfl⟩
        exact ⟨Or.inr ⟨_, _, hbelongs, rfl⟩, ready_write hbelongs⟩
      · cases hwork
  · cases hwork

end Handout

end

namespace System

variable {γ : Type*} {fmt : Format γ} {mapf : String → γ → List KeyValue}
  {reducef : String → List String → String} {s s' : System γ} {dir₀ : Dir γ}
  {files : List String} {R : ℕ}

/-- Some worker has completed `DoReduce` for the reduce task `r`. -/
def reduced (s : System γ) (r : ℕ) : Bool :=
  s.handouts.any fun h => h.kind == .reduce && h.reply.xTask.reduceId == r && h.progress == .done

theorem reduced_iff {r : ℕ} : s.reduced r = true ↔
    ∃ h ∈ s.handouts, h.kind = .reduce ∧ h.reply.xTask.reduceId = r ∧ h.progress = .done := by
  simp [reduced, and_assoc]

variable (fmt mapf reducef dir₀ files R) in
/-- Files are as they were in the beginning or what belongs under their names; input
files are as they were. -/
structure OutputInv (s : System γ) : Prop where
  tasks : TaskInv files R s
  inputs : InputsKept dir₀ files s.dir
  ready : ∀ name, s.dir name = dir₀ name ∨ Ready fmt mapf reducef dir₀ files R s.dir name
  right : ∀ h ∈ s.handouts, h.Right fmt mapf reducef dir₀ files R s.dir

namespace OutputInv

/-- A map task that has been completed has left its files. -/
theorem ready_of_mapped (h : OutputInv fmt mapf reducef dir₀ files R s) {m r : ℕ}
    (hm : s.mapped m = true) (hr : r < R) :
    Ready fmt mapf reducef dir₀ files R s.dir (mapOutFileName m r) := by
  obtain ⟨handout, hmem, hkind, rfl, hdone⟩ := mapped_iff.mp hm
  have hright := h.right handout hmem
  rw [Handout.Right, hkind, hdone] at hright
  exact hright r hr

/-- The files that `DoReduce` reads are there. -/
theorem ready_of_reduce (h : OutputInv fmt mapf reducef dir₀ files R s) {handout : Handout}
    (hmem : handout ∈ s.handouts) (hkind : handout.kind = .reduce) :
    ∀ m < files.length, ∀ r < R,
      Ready fmt mapf reducef dir₀ files R s.dir (mapOutFileName m r) := fun m hm _ hr =>
  h.ready_of_mapped (h.tasks.barrier.reduces handout hmem hkind m hm) hr

theorem write (h : OutputInv fmt mapf reducef dir₀ files R s) (hnames : Apart files R)
    {name : String} {file : File γ} (hfile : Belongs fmt mapf reducef dir₀ files R name file) :
    InputsKept dir₀ files (s.dir.write name file) ∧
      (∀ name', s.dir.write name file name' = dir₀ name' ∨
        Ready fmt mapf reducef dir₀ files R (s.dir.write name file) name') ∧
      ∀ h ∈ s.handouts, h.Right fmt mapf reducef dir₀ files R (s.dir.write name file) := by
  refine ⟨h.inputs.write hnames hfile, fun name' => ?_, fun h' hh' => (h.right h' hh').write hfile⟩
  by_cases hname : name' = name
  · rw [hname]
    exact Or.inr (ready_write hfile)
  · rcases h.ready name' with hsame | hready
    · exact Or.inl ((Function.update_of_ne hname _ _).trans hsame)
    · exact Or.inr (hready.write hfile)

theorem step (h : OutputInv fmt mapf reducef dir₀ files R s) (hR : 0 < R)
    (hnames : Apart files R) {a : Act} (hs : s.step fmt mapf reducef a = some s') :
    OutputInv fmt mapf reducef dir₀ files R s' := by
  have htasks := h.tasks.step hR hs
  rcases step_files hs with ⟨k, sorted, rfl⟩ | ⟨hdir, hhandouts⟩
  · obtain ⟨handout, hk, hs⟩ := Option.bind_eq_some_iff.mp hs
    obtain ⟨⟨dir, progress⟩, hwork, rfl⟩ := Option.map_eq_some_iff.mp hs
    have hmem := List.mem_of_getElem? hk
    obtain ⟨hdir, hright⟩ := (h.right handout hmem).work (h.tasks.handouts handout hmem)
      (h.tasks.barrier.replies handout hmem) h.inputs (h.ready_of_reduce hmem) hwork
    rcases hdir with rfl | ⟨name, file, hfile, rfl⟩
    · exact ⟨htasks, h.inputs, h.ready, forall_mem_set h.right hright⟩
    · obtain ⟨hinputs, hready, hothers⟩ := h.write hnames hfile
      exact ⟨htasks, hinputs, hready, forall_mem_set hothers hright⟩
  · refine ⟨htasks, hdir ▸ h.inputs, hdir ▸ h.ready, fun handout hmem => ?_⟩
    rw [hdir]
    rcases hhandouts handout hmem with hold | hgiven
    · exact h.right handout hold
    · rw [Handout.Right, hgiven]
      trivial

end OutputInv

end System

end MapReduce

end DistributedLabs
