import DistributedLabs.MapReduce.Concurrent
import DistributedLabs.MapReduce.Completion
import DistributedLabs.MapReduce.Sequential

/-!
# No reduce task before the last map task

`TaskFin` takes the map phase for finished when a `Range` over `MapTaskStates` has
counted as many finished tasks as there are. While the count goes on, flags are set,
and cleared again by a `GetTask` that hands a task out a second time. What stays is
the work itself: a map task that some worker has completed remains completed. Every
flag that is set belongs to such a task, and a count visits each key once, so that a
full count has met all map tasks, at different moments, after their completion.
-/

namespace DistributedLabs

namespace MapReduce

/-! ## What a count shows -/

/-- The keys that have been counted are different keys that satisfy `P`. -/
def Ranging.Counts (P : ℕ → Prop) (r : Ranging) : Prop :=
  ∃ fins : List ℕ, fins.Nodup ∧ (∀ key ∈ fins, key ∈ r.visited ∧ P key) ∧ fins.length = r.len

namespace Ranging.Counts

variable {P : ℕ → Prop} {r r' : Ranging}

theorem begun (m : TaskStates) : (Ranging.begun m).Counts P :=
  ⟨[], List.nodup_nil, fun _ h => absurd h List.not_mem_nil, rfl⟩

theorem mono {P' : ℕ → Prop} (hP : ∀ k, P k → P' k) (h : r.Counts P) : r.Counts P' := by
  obtain ⟨fins, hnodup, hfins, hlen⟩ := h
  exact ⟨fins, hnodup, fun key hkey => ⟨(hfins key hkey).1, hP key (hfins key hkey).2⟩, hlen⟩

theorem visit (h : r.Counts P) {m : TaskStates} {key : ℕ}
    (hm : ∀ value, m.lookup key = some value → value.fin = true → P key)
    (hv : r.visit m key = some r') : r'.Counts P := by
  obtain ⟨fins, hnodup, hfins, hlen⟩ := h
  unfold Ranging.visit at hv
  split at hv
  · cases hv
  · rename_i hnew
    obtain ⟨value, hvalue, rfl⟩ := Option.map_eq_some_iff.mp hv
    cases hfin : value.fin with
    | true =>
        refine ⟨key :: fins, List.nodup_cons.mpr ⟨fun hmem => hnew (hfins key hmem).1, hnodup⟩,
          List.forall_mem_cons.mpr ⟨⟨List.mem_cons_self, hm value hvalue hfin⟩, fun k hk =>
            ⟨List.mem_cons_of_mem key (hfins k hk).1, (hfins k hk).2⟩⟩, ?_⟩
        rw [List.length_cons, hlen]
        rfl
    | false =>
        exact ⟨fins, hnodup, fun k hk => ⟨List.mem_cons_of_mem key (hfins k hk).1, (hfins k hk).2⟩,
          hlen⟩

/-- A count of `n` numbers below `n` has met all of them. -/
theorem all {n : ℕ} (h : r.Counts P) (hP : ∀ k, P k → k < n) (hlen : r.len = n) {k : ℕ}
    (hk : k < n) : P k := by
  obtain ⟨fins, hnodup, hfins, hlen'⟩ := h
  have hmem := mem_of_nodup_of_length hnodup (fun key hkey => hP key (hfins key hkey).2)
    (hlen'.trans hlen).ge hk
  exact (hfins k hmem).2

end Ranging.Counts

/-! ## The coordinator and its calls -/

/-- All map tasks have been completed, if `M` holds of those that have. -/
def AllMapped (N : ℕ) (M : ℕ → Prop) : Prop := ∀ m < N, M m

/-- What the coordinator knows about the `N` map tasks of a job with `R` reduce tasks,
where `M` holds of the map tasks that have been completed. -/
structure Coordinator.Sound (N R : ℕ) (M : ℕ → Prop) (c : Coordinator) : Prop where
  numMapTasks : c.numMapTasks = N
  numReduceTasks : c.numReduceTasks = R
  mapTask : ∀ task ∈ c.mapTask, task.mapId < N
  mapTaskStates : ∀ k st, c.mapTaskStates.lookup k = some st → k < N ∧ (st.fin = true → M k)
  state : c.state ≠ .map → AllMapped N M
  reduceTask : c.reduceTask ≠ [] → AllMapped N M

/-- A call of `GetTask` has seen that the map phase is over before it looks for a
reduce task. -/
def GetTaskCall.Sound (N R : ℕ) (M : ℕ → Prop) : GetTaskCall → Prop
  | .loadState => True
  | .testState _ => AllMapped N M
  | .testLen kind state | .receive kind state =>
      (kind = .map → state = .map) ∧ (kind = .reduce → AllMapped N M)
  | .readClock kind state task | .storeState kind state task _ | .readLen kind state task =>
      (kind = .map → state = .map ∧ task.mapId < N) ∧ (kind = .reduce → AllMapped N M)
  | .readReduceLen reply | .replied reply =>
      reply.numReduceTasks = R ∧ (reply.state ≠ .map → AllMapped N M)

/-- A report is about a map task that has been completed, or comes after the map
phase. -/
def Task.Reported (N : ℕ) (M : ℕ → Prop) (task : Task) : Prop := M task.mapId ∨ AllMapped N M

/-- A call of `TaskFin` counts completed map tasks only. -/
def TaskFinCall.Sound (N : ℕ) (M : ℕ → Prop) : TaskFinCall → Prop
  | .readClock task => task.Reported N M
  | .beginCount kind _ task _ | .loadState kind task _ =>
      task.Reported N M ∧ (kind = .reduce → AllMapped N M)
  | .count kind _ task _ r =>
      task.Reported N M ∧ (kind = .reduce → AllMapped N M) ∧
        (kind = .map → r.Counts fun k => k < N ∧ M k)
  | .storeState kind task _ =>
      task.Reported N M ∧ (kind = .reduce → AllMapped N M) ∧ (kind = .map → task.mapId < N)
  | .setState _ | .send _ => AllMapped N M
  | .returned => True

/-- `TimeTick` sends reduce tasks again only after the map phase. -/
def DoneCall.Sound (N : ℕ) (M : ℕ → Prop) : DoneCall → Prop
  | .readClock kind | .testKey kind _ _ => kind = .reduce → AllMapped N M
  | .loadTask kind _ i | .send kind _ i =>
      (kind = .reduce → AllMapped N M) ∧ (kind = .map → i < N)
  | .loadState | .beginCount | .count _ | .returned _ => True

def Call.Sound (N R : ℕ) (M : ℕ → Prop) : Call → Prop
  | .getTask call => call.Sound N R M
  | .taskFin call => call.Sound N M
  | .done call => call.Sound N M
  | .returned => True

section

variable {N R : ℕ} {M : ℕ → Prop} {c c' : Coordinator} {clock : ℕ}

/-- A channel changes: only map tasks of the job are sent to `MapTask`, and nothing is
in `ReduceTask` before the map phase is over. -/
theorem Coordinator.Sound.setQueue (hc : c.Sound N R M) {kind : Kind} {queue : List Task}
    (hmap : kind = .map → ∀ task ∈ queue, task.mapId < N)
    (hreduce : kind = .reduce → queue ≠ [] → AllMapped N M) :
    (c.setQueue queue kind).Sound N R M := by
  cases kind with
  | map => exact { hc with mapTask := hmap rfl }
  | reduce => exact { hc with reduceTask := hreduce rfl }

/-- A flag changes: it is set only for a map task that has been completed. -/
theorem Coordinator.Sound.setStates (hc : c.Sound N R M) {kind : Kind} {key : ℕ}
    {value : TaskState} (hmap : kind = .map → key < N ∧ (value.fin = true → M key)) :
    (c.setStates ((c.states kind).insert key value) kind).Sound N R M := by
  cases kind with
  | map => exact { hc with mapTaskStates := forall_lookup_insert hc.mapTaskStates (hmap rfl) }
  | reduce => exact { hc with }

theorem Coordinator.Sound.setState (hc : c.Sound N R M) (h : AllMapped N M) (state : Phase) :
    Sound N R M { c with state := state } :=
  { hc with state := fun _ => h }

theorem GetTaskCall.Sound.step {call call' : GetTaskCall} (hc : c.Sound N R M)
    (h : call.Sound N R M) (hs : call.step c clock = some (c', call')) :
    c'.Sound N R M ∧ call'.Sound N R M := by
  cases call with
  | loadState =>
      obtain ⟨rfl, rfl⟩ := Prod.mk.inj (Option.some.inj hs)
      refine ⟨hc, ?_⟩
      split
      · rename_i hstate
        exact ⟨fun _ => hstate, fun hk => Kind.noConfusion hk⟩
      · rename_i hstate
        exact hc.state hstate
  | testState state =>
      obtain ⟨rfl, rfl⟩ := Prod.mk.inj (Option.some.inj hs)
      refine ⟨hc, ?_⟩
      split
      · exact ⟨fun hk => Kind.noConfusion hk, fun _ => h⟩
      · exact ⟨hc.numReduceTasks, fun _ => h⟩
  | testLen kind state =>
      obtain ⟨rfl, rfl⟩ := Prod.mk.inj (Option.some.inj hs)
      refine ⟨hc, ?_⟩
      split
      · exact h
      · exact ⟨hc.numReduceTasks, fun hstate => absurd (h.1 rfl) hstate⟩
      · exact ⟨hc.numReduceTasks, fun _ => h.2 rfl⟩
  | receive kind state =>
      obtain ⟨task, rest, hqueue, rfl, rfl⟩ := GetTaskCall.receive_cases hs
      refine ⟨hc.setQueue ?_ fun hk _ => h.2 hk, ?_, h.2⟩
      · rintro rfl t ht
        have hmap : c.mapTask = task :: rest := hqueue
        exact hc.mapTask t (hmap ▸ List.mem_cons_of_mem task ht)
      · rintro rfl
        have hmap : c.mapTask = task :: rest := hqueue
        exact ⟨h.1 rfl, hc.mapTask task (hmap ▸ List.mem_cons_self)⟩
  | readClock kind state task =>
      obtain ⟨rfl, rfl⟩ := Prod.mk.inj (Option.some.inj hs)
      exact ⟨hc, h⟩
  | storeState kind state task now =>
      obtain ⟨rfl, rfl⟩ := Prod.mk.inj (Option.some.inj hs)
      refine ⟨hc.setStates ?_, h⟩
      rintro rfl
      exact ⟨(h.1 rfl).2, fun hfin => Bool.noConfusion hfin⟩
  | readLen kind state task =>
      cases kind with
      | map =>
          obtain ⟨rfl, rfl⟩ := Prod.mk.inj (Option.some.inj hs)
          exact ⟨hc, hc.numReduceTasks, fun hstate => absurd (h.1 rfl).1 hstate⟩
      | reduce =>
          obtain ⟨rfl, rfl⟩ := Prod.mk.inj (Option.some.inj hs)
          exact ⟨hc, hc.numReduceTasks, fun _ => h.2 rfl⟩
  | readReduceLen reply =>
      obtain ⟨rfl, rfl⟩ := Prod.mk.inj (Option.some.inj hs)
      exact ⟨hc, h⟩
  | replied reply => cases hs

theorem TaskFinCall.Sound.afterCount {kind : Kind} {stored : Bool} {task : Task} {now : ℕ}
    {r : Ranging} (hc : c.Sound N R M)
    (h : TaskFinCall.Sound N M (.count kind stored task now r)) :
    (TaskFinCall.afterCount c kind stored task now r.len).Sound N M := by
  obtain ⟨htask, hreduce, hcounts⟩ := h
  unfold TaskFinCall.afterCount
  split
  · rename_i hlen
    -- the count is full: all map tasks have been completed
    have hall : AllMapped N M := by
      cases kind with
      | map =>
          intro m hm
          have hlen' : r.len = N := hlen.trans hc.numMapTasks
          exact ((hcounts rfl).all (fun _ hk => hk.1) hlen' hm).2
      | reduce => exact hreduce rfl
    split
    · exact hall
    · exact ⟨htask, fun _ => hall⟩
    · trivial
  · split
    · trivial
    · exact ⟨htask, hreduce⟩

theorem TaskFinCall.Sound.step {call call' : TaskFinCall} (hc : c.Sound N R M)
    (h : call.Sound N M) (hs : call.step c clock = some (c', call')) :
    c'.Sound N R M ∧ call'.Sound N M := by
  cases call with
  | readClock task =>
      obtain ⟨rfl, rfl⟩ := Prod.mk.inj (Option.some.inj hs)
      exact ⟨hc, h, fun hk => Kind.noConfusion hk⟩
  | beginCount kind stored task now =>
      obtain ⟨rfl, rfl⟩ := Prod.mk.inj (Option.some.inj hs)
      exact ⟨hc, h.1, h.2, fun _ => .begun _⟩
  | count kind stored task now r =>
      rw [TaskFinCall.step] at hs
      split at hs
      · obtain ⟨rfl, rfl⟩ := Prod.mk.inj (Option.some.inj hs)
        exact ⟨hc, .afterCount hc h⟩
      · cases hs
  | loadState kind task now =>
      obtain ⟨curState, hcur, hs⟩ := Option.map_eq_some_iff.mp hs
      obtain ⟨rfl, rfl⟩ := Prod.mk.inj hs
      refine ⟨hc, ?_⟩
      split
      · trivial
      · refine ⟨h.1, h.2, ?_⟩
        rintro rfl
        exact (hc.mapTaskStates _ _ hcur).1
  | storeState kind task now =>
      obtain ⟨rfl, rfl⟩ := Prod.mk.inj (Option.some.inj hs)
      obtain ⟨htask, hreduce, hlt⟩ := h
      refine ⟨hc.setStates ?_, htask, hreduce⟩
      rintro rfl
      exact ⟨hlt rfl, fun _ => htask.elim id fun hall => hall _ (hlt rfl)⟩
  | setState kind =>
      cases kind with
      | map =>
          obtain ⟨rfl, rfl⟩ := Prod.mk.inj (Option.some.inj hs)
          exact ⟨hc.setState h _, h⟩
      | reduce =>
          obtain ⟨rfl, rfl⟩ := Prod.mk.inj (Option.some.inj hs)
          exact ⟨hc.setState h _, trivial⟩
  | send i =>
      rw [TaskFinCall.step] at hs
      split at hs
      · obtain ⟨chan, -, hs⟩ := Option.map_eq_some_iff.mp hs
        obtain ⟨rfl, rfl⟩ := Prod.mk.inj hs
        exact ⟨{ hc with reduceTask := fun _ => h }, h⟩
      · obtain ⟨rfl, rfl⟩ := Prod.mk.inj (Option.some.inj hs)
        exact ⟨hc, trivial⟩
  | returned => cases hs

theorem DoneCall.Sound.step {call call' : DoneCall} (hc : c.Sound N R M)
    (h : call.Sound N M) (hs : call.step c clock = some (c', call')) :
    c'.Sound N R M ∧ call'.Sound N M := by
  cases call with
  | loadState =>
      obtain ⟨rfl, rfl⟩ := Prod.mk.inj (Option.some.inj hs)
      refine ⟨hc, ?_⟩
      split
      · exact fun hk => Kind.noConfusion hk
      · rename_i hstate
        exact fun _ => hc.state (hstate ▸ Phase.noConfusion)
      · trivial
  | readClock kind =>
      obtain ⟨rfl, rfl⟩ := Prod.mk.inj (Option.some.inj hs)
      exact ⟨hc, h⟩
  | testKey kind now i =>
      obtain ⟨rfl, rfl⟩ := Prod.mk.inj (Option.some.inj hs)
      refine ⟨hc, ?_⟩
      split
      · rename_i hlt
        split
        · refine ⟨h, ?_⟩
          rintro rfl
          exact hc.numMapTasks ▸ hlt
        · exact h
      · trivial
  | loadTask kind now i =>
      obtain ⟨tmp, -, hs⟩ := Option.map_eq_some_iff.mp hs
      obtain ⟨rfl, rfl⟩ := Prod.mk.inj hs
      refine ⟨hc, ?_⟩
      split
      · exact h
      · exact h.1
  | send kind now i =>
      obtain ⟨task, htask, hs⟩ := Option.bind_eq_some_iff.mp hs
      obtain ⟨chan, hchan, hs⟩ := Option.map_eq_some_iff.mp hs
      obtain ⟨rfl, rfl⟩ := Prod.mk.inj hs
      refine ⟨hc.setQueue ?_ fun hk _ => h.1 hk, h.1⟩
      rintro rfl
      obtain ⟨fileName, -, rfl⟩ := Option.map_eq_some_iff.mp htask
      exact Coordinator.send_forall hchan hc.mapTask (h.2 rfl)
  | beginCount =>
      obtain ⟨rfl, rfl⟩ := Prod.mk.inj (Option.some.inj hs)
      exact ⟨hc, trivial⟩
  | count r =>
      rw [DoneCall.step] at hs
      split at hs
      · obtain ⟨rfl, rfl⟩ := Prod.mk.inj (Option.some.inj hs)
        exact ⟨hc, trivial⟩
      · cases hs
  | returned ret => cases hs

theorem Call.Sound.step {call call' : Call} (hc : c.Sound N R M) (h : call.Sound N R M)
    (hs : call.step c clock = some (c', call')) : c'.Sound N R M ∧ call'.Sound N R M := by
  cases call with
  | getTask call =>
      obtain ⟨r, hr, hs⟩ := Option.map_eq_some_iff.mp hs
      obtain ⟨rfl, rfl⟩ := Prod.mk.inj hs
      exact GetTaskCall.Sound.step hc h hr
  | taskFin call =>
      obtain ⟨r, hr, hs⟩ := Option.map_eq_some_iff.mp hs
      obtain ⟨rfl, rfl⟩ := Prod.mk.inj hs
      exact TaskFinCall.Sound.step hc h hr
  | done call =>
      obtain ⟨r, hr, hs⟩ := Option.map_eq_some_iff.mp hs
      obtain ⟨rfl, rfl⟩ := Prod.mk.inj hs
      exact DoneCall.Sound.step hc h hr
  | returned => cases hs

/-- A visit counts a key only if its map task has been completed. -/
theorem Call.Sound.visit {call call' : Call} {key : ℕ} (hc : c.Sound N R M)
    (h : call.Sound N R M) (hs : call.visit c key = some call') : call'.Sound N R M := by
  cases call with
  | getTask call => cases hs
  | taskFin call =>
      obtain ⟨call₁, hcall, rfl⟩ := Option.map_eq_some_iff.mp hs
      cases call with
      | count kind stored task now r =>
          obtain ⟨r', hr, rfl⟩ := Option.map_eq_some_iff.mp hcall
          refine ⟨h.1, h.2.1, ?_⟩
          rintro rfl
          refine (h.2.2 rfl).visit (fun value hvalue hfin => ?_) hr
          obtain ⟨hlt, hM⟩ := hc.mapTaskStates key value hvalue
          exact ⟨hlt, hM hfin⟩
      | _ => cases hcall
  | done call =>
      obtain ⟨call₁, hcall, rfl⟩ := Option.map_eq_some_iff.mp hs
      cases call with
      | count r =>
          obtain ⟨r', -, rfl⟩ := Option.map_eq_some_iff.mp hcall
          trivial
      | _ => cases hcall
  | returned => cases hs

end

/-! ## More map tasks have been completed -/

section

variable {N R : ℕ} {M M' : ℕ → Prop} (hM : ∀ m, M m → M' m)

include hM

theorem AllMapped.mono (h : AllMapped N M) : AllMapped N M' := fun m hm => hM m (h m hm)

theorem Coordinator.Sound.mono {c : Coordinator} (hc : c.Sound N R M) : c.Sound N R M' :=
  { hc with
    mapTaskStates := fun k st hst =>
      ⟨(hc.mapTaskStates k st hst).1, fun hfin => hM k ((hc.mapTaskStates k st hst).2 hfin)⟩
    state := fun hstate => (hc.state hstate).mono hM
    reduceTask := fun hne => (hc.reduceTask hne).mono hM }

theorem Task.Reported.mono {task : Task} (h : task.Reported N M) : task.Reported N M' :=
  h.imp (hM _) (AllMapped.mono hM)

theorem Call.Sound.mono {call : Call} (h : call.Sound N R M) : call.Sound N R M' := by
  have hall : AllMapped N M → AllMapped N M' := AllMapped.mono hM
  cases call with
  | getTask call =>
      cases call with
      | loadState => trivial
      | testState state => exact hall h
      | testLen kind state | receive kind state => exact ⟨h.1, fun hk => hall (h.2 hk)⟩
      | readClock kind state task | storeState kind state task now | readLen kind state task =>
          exact ⟨h.1, fun hk => hall (h.2 hk)⟩
      | readReduceLen reply | replied reply => exact ⟨h.1, fun hk => hall (h.2 hk)⟩
  | taskFin call =>
      cases call with
      | readClock task => exact Task.Reported.mono hM h
      | beginCount kind stored task now | loadState kind task now =>
          exact ⟨h.1.mono hM, fun hk => hall (h.2 hk)⟩
      | count kind stored task now r =>
          exact ⟨h.1.mono hM, fun hk => hall (h.2.1 hk),
            fun hk => (h.2.2 hk).mono fun k hk => ⟨hk.1, hM k hk.2⟩⟩
      | storeState kind task now => exact ⟨h.1.mono hM, fun hk => hall (h.2.1 hk), h.2.2⟩
      | setState kind | send i => exact hall h
      | returned => trivial
  | done call =>
      cases call with
      | readClock kind | testKey kind now i => exact fun hk => hall (h hk)
      | loadTask kind now i | send kind now i => exact ⟨fun hk => hall (h.1 hk), h.2⟩
      | loadState | beginCount | count r | returned ret => trivial
  | returned => trivial

end

/-! ## The workers -/

theorem Dir.isSome_write {γ : Type*} {dir : Dir γ} {name name' : String} {file : File γ}
    (h : (dir name).isSome) : (dir.write name' file name).isSome := by
  unfold Dir.write
  by_cases hname : name = name'
  · rw [hname, Function.update_self]
    rfl
  · rwa [Function.update_of_ne hname]

/-- The output files of a map task that a worker has written so far. -/
def Handout.written (h : Handout) : ℕ :=
  match h.kind, h.progress with
  | .map, .mapping _ i => i
  | .map, .done => h.reply.numReduceTasks
  | _, _ => 0

/-- The files that a worker has written are there. -/
def Handout.Kept {γ : Type*} (dir : Dir γ) (h : Handout) : Prop :=
  ∀ r < h.written, (dir (mapOutFileName h.reply.xTask.mapId r)).isSome

section

variable {γ : Type*} {fmt : Format γ} {mapf : String → γ → List KeyValue}
  {reducef : String → List String → String} {dir dir' : Dir γ} {sorted : List KeyValue}
  {h : Handout} {progress : Progress}

/-- A worker that has completed its task does nothing more for it. -/
theorem Handout.work_ne_done (hwork : h.work fmt mapf reducef dir sorted = some (dir', progress)) :
    h.progress ≠ .done := by
  intro hdone
  unfold Handout.work at hwork
  rw [hdone] at hwork
  cases hkind : h.kind <;> rw [hkind] at hwork <;> cases hwork

/-- No file disappears, and a worker finds the files that it has written. -/
theorem Handout.Kept.work (hkept : h.Kept dir)
    (hwork : h.work fmt mapf reducef dir sorted = some (dir', progress)) :
    (∀ name, (dir name).isSome → (dir' name).isSome) ∧
      Handout.Kept dir' { h with progress := progress } := by
  obtain ⟨kind, reply, progress₀⟩ := h
  unfold Handout.work at hwork
  dsimp only at hwork
  split at hwork
  · obtain ⟨file, -, hr⟩ := Option.map_eq_some_iff.mp hwork
    obtain ⟨rfl, rfl⟩ := Prod.mk.inj hr
    exact ⟨fun _ => id, fun r hr => absurd hr (Nat.not_lt_zero r)⟩
  · rename_i kva i
    split at hwork
    · obtain ⟨rfl, rfl⟩ := Prod.mk.inj (Option.some.inj hwork)
      refine ⟨fun name => Dir.isSome_write, fun r hr => ?_⟩
      rcases (Nat.lt_succ_iff.mp hr).lt_or_eq with hlt | rfl
      · exact Dir.isSome_write (hkept r hlt)
      · unfold Dir.write
        rw [Function.update_self]
        rfl
    · rename_i hlen
      obtain ⟨rfl, rfl⟩ := Prod.mk.inj (Option.some.inj hwork)
      exact ⟨fun _ => id, fun r hr => hkept r (hr.trans_le (Nat.not_lt.mp hlen))⟩
  · obtain ⟨rfl, rfl⟩ := Prod.mk.inj (Option.some.inj hwork)
    exact ⟨fun _ => id, fun r hr => absurd hr (Nat.not_lt_zero r)⟩
  · split at hwork
    · obtain ⟨file, -, hr⟩ := Option.map_eq_some_iff.mp hwork
      obtain ⟨rfl, rfl⟩ := Prod.mk.inj hr
      exact ⟨fun _ => id, fun r hr => absurd hr (Nat.not_lt_zero r)⟩
    · split at hwork
      · obtain ⟨rfl, rfl⟩ := Prod.mk.inj (Option.some.inj hwork)
        exact ⟨fun name => Dir.isSome_write, fun r hr => absurd hr (Nat.not_lt_zero r)⟩
      · cases hwork
  · cases hwork

end

/-! ## The system -/

/-- A call of `GetTask` that has taken a reduce task from the channel, or whose reply
tells a worker to run `DoReduce`. -/
def Call.CarriesReduce : Call → Prop
  | .getTask (.readClock kind _ _) | .getTask (.storeState kind _ _ _)
  | .getTask (.readLen kind _ _) => kind = .reduce
  | .getTask (.replied reply) => reply.kind = some .reduce
  | _ => False

theorem Call.eq_of_reply? {call : Call} {reply : TaskResponse} (h : call.reply? = some reply) :
    call = .getTask (.replied reply) := by
  unfold Call.reply? at h
  split at h
  · rw [Option.some.inj h]
  · cases h

theorem TaskResponse.state_of_kind {reply : TaskResponse} (h : reply.kind = some .reduce) :
    reply.state = .reduce := by
  unfold TaskResponse.kind at h
  split at h
  · cases h
  · split at h
    · rename_i hreduce
      exact hreduce.2
    · cases h

theorem Call.Sound.of_carriesReduce {N R : ℕ} {M : ℕ → Prop} {call : Call}
    (h : call.Sound N R M) (hcarries : call.CarriesReduce) : AllMapped N M := by
  unfold Call.CarriesReduce at hcarries
  split at hcarries
  · exact h.2 hcarries
  · exact h.2 hcarries
  · exact h.2 hcarries
  · refine h.2 ?_
    rw [TaskResponse.state_of_kind hcarries]
    exact Phase.noConfusion
  · exact hcarries.elim

namespace System

variable {γ : Type*} {fmt : Format γ} {mapf : String → γ → List KeyValue}
  {reducef : String → List String → String} {s s' : System γ} {N R : ℕ}

/-- Some worker has completed `DoMap` for the map task `m`. -/
def mapped (s : System γ) (m : ℕ) : Bool :=
  s.handouts.any fun h => h.kind == .map && h.reply.xTask.mapId == m && h.progress == .done

theorem mapped_iff {m : ℕ} : s.mapped m = true ↔
    ∃ h ∈ s.handouts, h.kind = .map ∧ h.reply.xTask.mapId = m ∧ h.progress = .done := by
  simp [mapped, and_assoc]

/-- A reduce task is in the channel, on its way to a worker, or has been handed to
one. -/
def ReduceIsOut (s : System γ) : Prop :=
  s.coordinator.reduceTask ≠ [] ∨ (∃ call ∈ s.calls, call.CarriesReduce) ∨
    ∃ h ∈ s.handouts, h.kind = .reduce

/-- The invariant of a job with `N` map tasks and `R` reduce tasks. -/
structure BarrierInv (N R : ℕ) (s : System γ) : Prop where
  coordinator : s.coordinator.Sound N R fun m => s.mapped m
  calls : ∀ call ∈ s.calls, call.Sound N R fun m => s.mapped m
  reduces : ∀ h ∈ s.handouts, h.kind = .reduce → AllMapped N fun m => s.mapped m
  kept : ∀ h ∈ s.handouts, h.Kept s.dir
  replies : ∀ h ∈ s.handouts, h.reply.numReduceTasks = R

theorem barrierInv_make (files : List String) (nReduce : ℕ) (dir : Dir γ) :
    BarrierInv files.length nReduce (make files nReduce dir) where
  coordinator :=
    { numMapTasks := rfl
      numReduceTasks := rfl
      mapTask := by
        intro task htask
        obtain ⟨i, hi, rfl⟩ := List.mem_mapIdx.mp htask
        exact hi
      mapTaskStates := by
        intro k st hst
        rw [show (make files nReduce dir).coordinator.mapTaskStates = ∅ from rfl,
          AList.lookup_empty] at hst
        cases hst
      state := fun h => absurd rfl h
      reduceTask := fun h => absurd rfl h }
  calls := by rintro call (_ | _)
  reduces := by rintro h (_ | _)
  kept := by rintro h (_ | _)
  replies := by rintro h (_ | _)

namespace BarrierInv

/-- A call is made. -/
theorem call (h : BarrierInv N R s) {call : Call}
    (hcall : call.Sound N R fun m => s.mapped m) :
    BarrierInv N R { s with calls := s.calls ++ [call] } :=
  { h with
    coordinator := h.coordinator
    calls := List.forall_mem_append.mpr ⟨h.calls, List.forall_mem_singleton.mpr hcall⟩ }

/-- What a worker reports it has completed. -/
theorem reported (h : BarrierInv N R s) {k : ℕ} {handout : Handout}
    (hk : s.handouts[k]? = some handout) (hdone : handout.progress = .done) :
    handout.reply.xTask.Reported N fun m => s.mapped m := by
  have hmem := List.mem_of_getElem? hk
  cases hkind : handout.kind with
  | map => exact Or.inl (mapped_iff.mpr ⟨handout, hmem, hkind, rfl, hdone⟩)
  | reduce => exact Or.inr (h.reduces handout hmem hkind)

/-- A call goes on. -/
theorem setCall (h : BarrierInv N R s) {c : Coordinator} {call : Call} (t : ℕ)
    (hc : c.Sound N R fun m => s.mapped m) (hcall : call.Sound N R fun m => s.mapped m) :
    BarrierInv N R { s with coordinator := c, calls := s.calls.set t call } :=
  { h with
    coordinator := hc
    calls := forall_mem_set h.calls hcall }

/-- A worker is given a task. -/
theorem give (h : BarrierInv N R s) {handout : Handout} (hgiven : handout.progress = .given)
    (hreply : handout.reply.numReduceTasks = R)
    (hreduce : handout.kind = .reduce → AllMapped N fun m => s.mapped m) :
    BarrierInv N R { s with handouts := s.handouts ++ [handout] } := by
  have hmono : ∀ m, s.mapped m = true →
      System.mapped { s with handouts := s.handouts ++ [handout] } m = true := by
    intro m hm
    obtain ⟨h', hmem, hdone⟩ := mapped_iff.mp hm
    exact mapped_iff.mpr ⟨h', List.mem_append_left _ hmem, hdone⟩
  have hkept : handout.Kept s.dir := by
    intro r hr
    unfold Handout.written at hr
    rw [hgiven] at hr
    cases hkind : handout.kind <;> rw [hkind] at hr <;> exact absurd hr (Nat.not_lt_zero r)
  exact
    { coordinator := h.coordinator.mono hmono
      calls := fun call hcall => (h.calls call hcall).mono hmono
      reduces := List.forall_mem_append.mpr
        ⟨fun h' hmem hkind => (h.reduces h' hmem hkind).mono hmono,
          List.forall_mem_singleton.mpr fun hkind => (hreduce hkind).mono hmono⟩
      kept := List.forall_mem_append.mpr ⟨h.kept, List.forall_mem_singleton.mpr hkept⟩
      replies := List.forall_mem_append.mpr ⟨h.replies, List.forall_mem_singleton.mpr hreply⟩ }

/-- A worker works on a file. -/
theorem work (h : BarrierInv N R s) {k : ℕ} {handout : Handout} {sorted : List KeyValue}
    {dir : Dir γ} {progress : Progress} (hk : s.handouts[k]? = some handout)
    (hwork : handout.work fmt mapf reducef s.dir sorted = some (dir, progress)) :
    BarrierInv N R
      { s with
        handouts := s.handouts.set k { handout with progress := progress }, dir := dir } := by
  have hmem := List.mem_of_getElem? hk
  have hne := Handout.work_ne_done hwork
  obtain ⟨hfiles, hkept⟩ := (h.kept handout hmem).work hwork
  have hmono : ∀ m, s.mapped m = true → System.mapped
      { s with handouts := s.handouts.set k { handout with progress := progress }, dir := dir } m =
        true := by
    intro m hm
    exact mapped_iff.mpr (exists_mem_set hk (fun hdone => absurd hdone.2.2 hne)
      (mapped_iff.mp hm))
  exact
    { coordinator := h.coordinator.mono hmono
      calls := fun call hcall => (h.calls call hcall).mono hmono
      reduces := forall_mem_set (fun h' hh' hkind => (h.reduces h' hh' hkind).mono hmono)
        fun hkind => (h.reduces handout hmem hkind).mono hmono
      kept := forall_mem_set (fun h' hh' r hr => hfiles _ (h.kept h' hh' r hr)) hkept
      replies := forall_mem_set h.replies (h.replies handout hmem) }

theorem step (h : BarrierInv N R s) {a : Act} (hs : s.step fmt mapf reducef a = some s') :
    BarrierInv N R s' := by
  cases a with
  | getTask =>
      obtain rfl := Option.some.inj hs
      exact h.call trivial
  | taskFin k =>
      obtain ⟨handout, hk, hs⟩ := Option.bind_eq_some_iff.mp hs
      split at hs
      · rename_i hdone
        obtain rfl := Option.some.inj hs
        exact h.call (h.reported hk hdone)
      · cases hs
  | done =>
      obtain rfl := Option.some.inj hs
      exact h.call trivial
  | run t =>
      obtain ⟨call, hcall, hs⟩ := Option.bind_eq_some_iff.mp hs
      obtain ⟨⟨c, call'⟩, hr, rfl⟩ := Option.map_eq_some_iff.mp hs
      obtain ⟨hc, hcall'⟩ :=
        Call.Sound.step h.coordinator (h.calls call (List.mem_of_getElem? hcall)) hr
      exact h.setCall t hc hcall'
  | visit t key =>
      obtain ⟨call, hcall, hs⟩ := Option.bind_eq_some_iff.mp hs
      obtain ⟨call', hvisit, rfl⟩ := Option.map_eq_some_iff.mp hs
      exact h.setCall t h.coordinator
        (Call.Sound.visit h.coordinator (h.calls call (List.mem_of_getElem? hcall)) hvisit)
  | receive t =>
      obtain ⟨reply, hreply, rfl⟩ := Option.map_eq_some_iff.mp hs
      obtain ⟨call, hcall, hreply⟩ := Option.bind_eq_some_iff.mp hreply
      obtain rfl := Call.eq_of_reply? hreply
      obtain ⟨hnum, hstate⟩ := h.calls _ (List.mem_of_getElem? hcall)
      have hret : BarrierInv N R { s with calls := s.calls.set t .returned } :=
        h.setCall t h.coordinator trivial
      cases hkind : reply.kind with
      | none =>
          rw [Option.map_none, Option.toList_none, List.append_nil]
          exact hret
      | some kind =>
          refine hret.give rfl hnum fun hreduce => hstate ?_
          obtain rfl : kind = .reduce := hreduce
          rw [TaskResponse.state_of_kind hkind]
          exact Phase.noConfusion
  | work k sorted =>
      obtain ⟨handout, hk, hs⟩ := Option.bind_eq_some_iff.mp hs
      obtain ⟨⟨dir, progress⟩, hwork, rfl⟩ := Option.map_eq_some_iff.mp hs
      exact h.work hk hwork
  | tick now =>
      rw [System.step] at hs
      split at hs
      · obtain rfl := Option.some.inj hs
        exact { h with coordinator := h.coordinator }
      · cases hs

/-- A map task that has been completed has left its files. -/
theorem isSome_of_mapped (h : BarrierInv N R s) {m r : ℕ} (hm : s.mapped m = true)
    (hr : r < R) : (s.dir (mapOutFileName m r)).isSome := by
  obtain ⟨handout, hmem, hkind, rfl, hdone⟩ := mapped_iff.mp hm
  refine h.kept handout hmem r ?_
  unfold Handout.written
  rw [hkind, hdone, h.replies handout hmem]
  exact hr

end BarrierInv

/-- In every state that any interleaving of the calls, the workers and the clock leads
to, a reduce task is out only if every map task has been completed by some worker; the
files that `DoReduce` opens are then there. -/
theorem mapped_of_reduceIsOut {files : List String} {nReduce : ℕ} {dir : Dir γ}
    {acts : List Act}
    (hrun : exec (step fmt mapf reducef) (make files nReduce dir) acts = some s)
    (hreduce : s.ReduceIsOut) {m : ℕ} (hm : m < files.length) :
    s.mapped m = true ∧ ∀ r < nReduce, (s.dir (mapOutFileName m r)).isSome := by
  have hinv : BarrierInv files.length nReduce s :=
    exec_preserves (fun _ _ _ hI hs => hI.step hs) (barrierInv_make files nReduce dir) hrun
  have hall : AllMapped files.length fun m => s.mapped m := by
    rcases hreduce with hchan | ⟨call, hcall, hcarries⟩ | ⟨h, hmem, hkind⟩
    · exact hinv.coordinator.reduceTask hchan
    · exact (hinv.calls call hcall).of_carriesReduce hcarries
    · exact hinv.reduces h hmem hkind
  exact ⟨hall m hm, fun r hr => hinv.isSome_of_mapped (hall m hm) hr⟩

/-- Two workers take the two map tasks, complete them, and report at the same time:
both reports are stored before either is counted. The call of the second report then
sends the reduce task. -/
def bothReport : List Act :=
  [.getTask, .getTask, .run 0, .run 1, .run 0, .run 1, .run 1, .run 0, .run 0, .run 1, .run 0,
    .run 1, .run 0, .run 1, .run 0, .run 1, .receive 0, .receive 1,
    .work 0 [], .work 1 [], .work 1 [], .work 0 [], .work 0 [], .work 1 [],
    .taskFin 0, .taskFin 1, .run 2, .run 3, .run 2, .run 3,
    .visit 2 0, .visit 3 1, .visit 2 1, .visit 3 0, .run 2, .run 3, .run 2, .run 3,
    .run 2, .run 3, .run 2, .run 3, .visit 2 0, .visit 3 0, .visit 3 1, .visit 2 1,
    .run 3, .run 3, .run 3]

theorem mapped_of_reduceIsOut_bothReport :
    ∃ s, exec (step taggedFormat wordMap countReduce) (make ["a", "b"] 1 (twoFiles "a" "b"))
        bothReport = some s ∧ s.ReduceIsOut ∧
      s.mapped 1 = true ∧ (s.dir (mapOutFileName 1 0)).isSome := by
  refine ⟨_, rfl, Or.inl (by decide), ?_⟩
  have h := mapped_of_reduceIsOut
    (show exec (step taggedFormat wordMap countReduce) (make ["a", "b"] 1 (twoFiles "a" "b"))
      bothReport = some _ from rfl) (Or.inl (by decide)) (m := 1) (by decide)
  exact ⟨h.1, h.2 0 Nat.one_pos⟩

end System

end MapReduce

end DistributedLabs
