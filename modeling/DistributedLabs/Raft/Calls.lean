import DistributedLabs.Raft.Spec
import DistributedLabs.Raft.Cluster

/-!
# Where the calls on the network come from

After a step, a call of `AppendEntries` or `InstallSnapshot` is one from before,
whose handler may have run in this step, or a new one that a leader has just made
for another peer.
-/

namespace DistributedLabs

namespace Raft

namespace Cluster

variable {n : ℕ} {Cmd : Type*}

/-- A leader has just made the call with the request `out`. -/
structure Fresh (c : Cluster n Cmd) (src dst : Fin n) (inst : ℕ) (out : Outgoing n Cmd) :
    Prop where
  inst : inst = (c.peers src).inst
  leader : (c.peers src).rf.state = .leader
  other : dst ≠ (c.peers src).rf.me
  sent : (c.peers src).rf.heartbeatTo dst = some out

/-- The call `r'` is the call `r`, with the reply that it may have got in this
step. -/
structure Continues {Args Reply : Type*} (handled : Rpc n Args Reply → Reply → Prop)
    (r r' : Rpc n Args Reply) : Prop where
  src : r'.src = r.src
  dst : r'.dst = r.dst
  inst : r'.inst = r.inst
  args : r'.args = r.args
  reply : r'.reply = r.reply ∨
    r.reply = none ∧ ∃ reply, r'.reply = some reply ∧ handled r reply

theorem Continues.refl {Args Reply : Type*} (handled : Rpc n Args Reply → Reply → Prop)
    (r : Rpc n Args Reply) : Continues handled r r :=
  ⟨rfl, rfl, rfl, rfl, Or.inl rfl⟩

theorem mem_appendsOf {i : Fin n} {inst : ℕ} {out : List (Outgoing n Cmd)}
    {r : Rpc n (AppendEntriesArgs n Cmd) AppendEntriesReply} (hr : r ∈ appendsOf i inst out) :
    .appendEntries r.dst r.args ∈ out ∧ r.src = i ∧ r.inst = inst ∧ r.reply = none := by
  obtain ⟨o, ho, heq⟩ := List.mem_filterMap.mp hr
  cases o with
  | appendEntries peer args =>
      obtain rfl := Option.some.inj heq
      exact ⟨ho, rfl, rfl, rfl⟩
  | installSnapshot peer args => cases heq

theorem mem_installsOf {i : Fin n} {inst : ℕ} {out : List (Outgoing n Cmd)}
    {r : Rpc n (InstallSnapshotArgs n) InstallSnapshotReply} (hr : r ∈ installsOf i inst out) :
    .installSnapshot r.dst r.args ∈ out ∧ r.src = i ∧ r.inst = inst ∧ r.reply = none := by
  obtain ⟨o, ho, heq⟩ := List.mem_filterMap.mp hr
  cases o with
  | appendEntries peer args => cases heq
  | installSnapshot peer args =>
      obtain rfl := Option.some.inj heq
      exact ⟨ho, rfl, rfl, rfl⟩

/-- The peer that a request is for. -/
theorem heartbeatTo_dst {rf : Raft n Cmd} {i : Fin n} {o : Outgoing n Cmd}
    (h : rf.heartbeatTo i = some o) :
    (∃ args, o = .appendEntries i args) ∨ ∃ args, o = .installSnapshot i args := by
  rcases heartbeatTo_cases h with ⟨-, rfl⟩ | ⟨prev, old, -, -, -, -, rfl⟩
  · exact Or.inr ⟨_, rfl⟩
  · exact Or.inl ⟨_, rfl⟩

theorem heartbeatTo_of_appendEntries_mem {rf : Raft n Cmd} {out : List (Outgoing n Cmd)}
    (h : rf.broadcastHeartbeat = some out) {dst : Fin n} {args : AppendEntriesArgs n Cmd}
    (hmem : .appendEntries dst args ∈ out) :
    dst ≠ rf.me ∧ rf.heartbeatTo dst = some (.appendEntries dst args) := by
  obtain ⟨i, hi, ho⟩ := broadcastHeartbeat_mem h hmem
  rcases heartbeatTo_dst ho with ⟨args', heq⟩ | ⟨args', heq⟩
  · cases heq
    exact ⟨hi, ho⟩
  · cases heq

theorem heartbeatTo_of_installSnapshot_mem {rf : Raft n Cmd} {out : List (Outgoing n Cmd)}
    (h : rf.broadcastHeartbeat = some out) {dst : Fin n} {args : InstallSnapshotArgs n}
    (hmem : .installSnapshot dst args ∈ out) :
    dst ≠ rf.me ∧ rf.heartbeatTo dst = some (.installSnapshot dst args) := by
  obtain ⟨i, hi, ho⟩ := broadcastHeartbeat_mem h hmem
  rcases heartbeatTo_dst ho with ⟨args', heq⟩ | ⟨args', heq⟩
  · cases heq
  · cases heq
    exact ⟨hi, ho⟩

/-- What a step does to the calls of `AppendEntries` and `InstallSnapshot`. -/
inductive Traffic (c : Cluster n Cmd) (c' : Cluster n Cmd) : Prop where
  | none (appends : c'.appends = c.appends) (installs : c'.installs = c.installs)
  /-- A leader broadcasts. -/
  | broadcast (i : Fin n) (out : List (Outgoing n Cmd))
      (leader : (c'.peers i).rf.state = .leader)
      (sent : (c'.peers i).rf.broadcastHeartbeat = some out)
      (appends : c'.appends = c.appends ++ appendsOf i (c'.peers i).inst out)
      (installs : c'.installs = c.installs ++ installsOf i (c'.peers i).inst out)
  /-- The handler of a call runs. -/
  | append (k : ℕ) (r : Rpc n (AppendEntriesArgs n Cmd) AppendEntriesReply) (rf : Raft n Cmd)
      (reply : AppendEntriesReply) (call : c.appends[k]? = some r) (new : r.reply = .none)
      (handled : (c.peers r.dst).rf.appendEntries r.args = some (rf, reply))
      (appends : c'.appends = c.appends.set k { r with reply := some reply })
      (installs : c'.installs = c.installs)
  | install (k : ℕ) (r : Rpc n (InstallSnapshotArgs n) InstallSnapshotReply)
      (call : c.installs[k]? = some r) (new : r.reply = .none)
      (appends : c'.appends = c.appends)
      (installs : c'.installs = c.installs.set k
        { r with reply := some ((c.peers r.dst).installSnapshot r.args).2 })
  /-- The caller takes a reply. -/
  | appendTaken (k : ℕ) (r : Rpc n (AppendEntriesArgs n Cmd) AppendEntriesReply)
      (call : c.appends[k]? = some r)
      (appends : c'.appends = c.appends.set k { r with taken := true })
      (installs : c'.installs = c.installs)
  | installTaken (k : ℕ) (r : Rpc n (InstallSnapshotArgs n) InstallSnapshotReply)
      (call : c.installs[k]? = some r) (appends : c'.appends = c.appends)
      (installs : c'.installs = c.installs.set k { r with taken := true })

theorem traffic_of_step {c c' : Cluster n Cmd} {a : Act n Cmd} (h : c.step a = some c') :
    Traffic c c' := by
  cases a with
  | ticker j =>
      obtain rfl := Option.some.inj h
      exact .none rfl rfl
  | heartbeat j =>
      obtain ⟨out, hout, rfl⟩ := Option.map_eq_some_iff.mp h
      unfold heartbeatEvent at hout
      split at hout
      · rename_i hlead
        exact .broadcast j out hlead hout rfl rfl
      · obtain rfl := Option.some.inj hout
        exact .none (List.append_nil _) (List.append_nil _)
  | start j command =>
      obtain rfl := Option.some.inj h
      exact .none rfl rfl
  | snapshot j index data =>
      obtain ⟨rf, -, rfl⟩ := Option.map_eq_some_iff.mp h
      exact .none rfl rfl
  | requestVote k =>
      obtain ⟨r, -, -, rfl⟩ := step_requestVote h
      exact .none rfl rfl
  | appendEntries k =>
      obtain ⟨r, rf, reply, hk, hnone, hrf, rfl⟩ := step_appendEntries h
      exact .append k r rf reply hk hnone hrf rfl rfl
  | installSnapshot k =>
      obtain ⟨r, hk, hnone, rfl⟩ := step_installSnapshot h
      exact .install k r hk hnone rfl rfl
  | voteReply k =>
      obtain ⟨r, reply, rf, out, -, -, -, -, hrf, rfl⟩ := step_voteReply h
      rcases handleVoteReply_cases hrf with ⟨-, rfl⟩ | ⟨-, rfl, -⟩ | ⟨-, -, rfl, -⟩ |
        ⟨-, -, -, hlead, hout⟩
      · exact .none (List.append_nil _) (List.append_nil _)
      · exact .none (List.append_nil _) (List.append_nil _)
      · exact .none (List.append_nil _) (List.append_nil _)
      · have hself : ((c.setRf r.src rf).peers r.src).rf = rf :=
          congrArg Peer.rf (setRf_self c r.src rf)
        refine .broadcast r.src out ?_ ?_ rfl rfl
        · change ((c.setRf r.src rf).peers r.src).rf.state = .leader
          rw [hself, hlead]
          rfl
        · change ((c.setRf r.src rf).peers r.src).rf.broadcastHeartbeat = some out
          rw [hself, hout]
  | appendReply k =>
      obtain ⟨r, reply, rf, hk, -, -, -, -, rfl⟩ := step_appendReply h
      exact .appendTaken k r hk rfl rfl
  | snapshotReply k =>
      obtain ⟨r, reply, hk, -, -, -, rfl⟩ := step_snapshotReply h
      exact .installTaken k r hk rfl rfl
  | applier j =>
      obtain ⟨p, -, rfl⟩ := Option.map_eq_some_iff.mp h
      exact .none rfl rfl
  | poll j k =>
      obtain ⟨p, -, rfl⟩ := Option.map_eq_some_iff.mp h
      exact .none rfl rfl
  | deliver j k =>
      obtain ⟨p, -, rfl⟩ := Option.map_eq_some_iff.mp h
      exact .none rfl rfl
  | restart j =>
      obtain rfl := Option.some.inj h
      exact .none rfl rfl

/-- A call of `AppendEntries` continues one from before or is new. -/
theorem step_appends {c c' : Cluster n Cmd} {a : Act n Cmd} (h : c.step a = some c')
    {r' : Rpc n (AppendEntriesArgs n Cmd) AppendEntriesReply} (hr' : r' ∈ c'.appends) :
    (∃ r ∈ c.appends, Continues (fun r reply =>
        ∃ rf, (c.peers r.dst).rf.appendEntries r.args = some (rf, reply)) r r') ∨
      (r'.reply = none ∧ c'.Fresh r'.src r'.dst r'.inst (.appendEntries r'.dst r'.args)) := by
  cases traffic_of_step h with
  | none happends hinstalls => exact Or.inl ⟨r', happends ▸ hr', .refl _ r'⟩
  | broadcast i out hlead hsent happends hinstalls =>
      rw [happends] at hr'
      rcases List.mem_append.mp hr' with hr' | hr'
      · exact Or.inl ⟨r', hr', .refl _ r'⟩
      · obtain ⟨hmem, rfl, hinst, hnone⟩ := mem_appendsOf hr'
        obtain ⟨hother, hto⟩ := heartbeatTo_of_appendEntries_mem hsent hmem
        exact Or.inr ⟨hnone, hinst, hlead, hother, hto⟩
  | append k r rf reply hk hnew hhandled happends hinstalls =>
      refine Or.inl (exists_rel_of_mem_set (.refl _) hk ?_ (happends ▸ hr'))
      exact ⟨rfl, rfl, rfl, rfl, Or.inr ⟨hnew, reply, rfl, rf, hhandled⟩⟩
  | install k r hk hnew happends hinstalls => exact Or.inl ⟨r', happends ▸ hr', .refl _ r'⟩
  | appendTaken k r hk happends hinstalls =>
      refine Or.inl (exists_rel_of_mem_set (.refl _) hk ?_ (happends ▸ hr'))
      exact ⟨rfl, rfl, rfl, rfl, Or.inl rfl⟩
  | installTaken k r hk happends hinstalls => exact Or.inl ⟨r', happends ▸ hr', .refl _ r'⟩

/-- A call of `InstallSnapshot` continues one from before or is new. -/
theorem step_installs {c c' : Cluster n Cmd} {a : Act n Cmd} (h : c.step a = some c')
    {r' : Rpc n (InstallSnapshotArgs n) InstallSnapshotReply} (hr' : r' ∈ c'.installs) :
    (∃ r ∈ c.installs, Continues (fun r reply =>
        reply = ((c.peers r.dst).installSnapshot r.args).2) r r') ∨
      (r'.reply = none ∧
        c'.Fresh r'.src r'.dst r'.inst (.installSnapshot r'.dst r'.args)) := by
  cases traffic_of_step h with
  | none happends hinstalls => exact Or.inl ⟨r', hinstalls ▸ hr', .refl _ r'⟩
  | broadcast i out hlead hsent happends hinstalls =>
      rw [hinstalls] at hr'
      rcases List.mem_append.mp hr' with hr' | hr'
      · exact Or.inl ⟨r', hr', .refl _ r'⟩
      · obtain ⟨hmem, rfl, hinst, hnone⟩ := mem_installsOf hr'
        obtain ⟨hother, hto⟩ := heartbeatTo_of_installSnapshot_mem hsent hmem
        exact Or.inr ⟨hnone, hinst, hlead, hother, hto⟩
  | append k r rf reply hk hnew hhandled happends hinstalls =>
      exact Or.inl ⟨r', hinstalls ▸ hr', .refl _ r'⟩
  | install k r hk hnew happends hinstalls =>
      refine Or.inl (exists_rel_of_mem_set (.refl _) hk ?_ (hinstalls ▸ hr'))
      exact ⟨rfl, rfl, rfl, rfl, Or.inr ⟨hnew, _, rfl, rfl⟩⟩
  | appendTaken k r hk happends hinstalls => exact Or.inl ⟨r', hinstalls ▸ hr', .refl _ r'⟩
  | installTaken k r hk happends hinstalls =>
      refine Or.inl (exists_rel_of_mem_set (.refl _) hk ?_ (hinstalls ▸ hr'))
      exact ⟨rfl, rfl, rfl, rfl, Or.inl rfl⟩

end Cluster

end Raft

end DistributedLabs
