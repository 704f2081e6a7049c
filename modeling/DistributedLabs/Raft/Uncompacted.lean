import DistributedLabs.Raft.Cluster
import DistributedLabs.Raft.Spec

/-!
# Runs without `Snapshot` calls

Without a call of `Snapshot` no peer ever compacts its log: the snapshot point of
every peer stays 0, and an `InstallSnapshot` request, which a leader may still
send when it backs up below its first entry, offers the empty snapshot and is
answered without effect.
-/

namespace DistributedLabs

namespace Raft

variable {n : ℕ} {Cmd : Type*}

/-- The action is a crash followed by a restart. -/
def Cluster.Act.isRestart : Cluster.Act n Cmd → Bool
  | .restart _ => true
  | _ => false

/-- The action is a call of `Snapshot`. -/
def Cluster.Act.isSnapshot : Cluster.Act n Cmd → Bool
  | .snapshot _ _ _ => true
  | _ => false

/-- No peer has compacted its log, and no request or goroutine carries a snapshot
of anything. -/
structure Uncompacted (c : Cluster n Cmd) : Prop where
  included : ∀ i, (c.peers i).rf.lastIncludedIndex = 0
  senders : ∀ i, (c.peers i).senders = []
  calls : ∀ r ∈ c.installs, r.args.lastIncludedIndex = 0

theorem uncompacted_init (n : ℕ) (Cmd : Type*) : Uncompacted (Cluster.init n Cmd) :=
  ⟨fun _ => rfl, fun _ => rfl, fun _ hr => nomatch hr⟩

namespace Uncompacted

variable {c c' : Cluster n Cmd} {i : Fin n}

theorem setPeer (h : Uncompacted c) {p : Peer n Cmd} (hinc : p.rf.lastIncludedIndex = 0)
    (hsend : p.senders = []) : Uncompacted (c.setPeer i p) := by
  refine ⟨fun j => ?_, fun j => ?_, h.calls⟩
  · by_cases hj : j = i
    · subst hj
      rwa [Cluster.setPeer_self]
    · rw [Cluster.setPeer_of_ne c _ hj]
      exact h.included j
  · by_cases hj : j = i
    · subst hj
      rwa [Cluster.setPeer_self]
    · rw [Cluster.setPeer_of_ne c _ hj]
      exact h.senders j

theorem setRf (h : Uncompacted c) {rf : Raft n Cmd} (hinc : rf.lastIncludedIndex = 0) :
    Uncompacted (c.setRf i rf) :=
  h.setPeer hinc (h.senders i)

/-- A change of the calls that keeps what the `InstallSnapshot` calls offer. -/
theorem of_calls (h : Uncompacted c) (hpeers : c'.peers = c.peers)
    (hcalls : ∀ r ∈ c'.installs, ∃ r₀ ∈ c.installs, r.args = r₀.args) : Uncompacted c' := by
  refine ⟨fun j => ?_, fun j => ?_, fun r hr => ?_⟩
  · rw [hpeers]
    exact h.included j
  · rw [hpeers]
    exact h.senders j
  · obtain ⟨r₀, hr₀, hargs⟩ := hcalls r hr
    rw [hargs]
    exact h.calls r₀ hr₀

theorem set_calls {k : ℕ} {r y : Rpc n (InstallSnapshotArgs n) InstallSnapshotReply}
    (hk : c.installs[k]? = some r) (hy : y.args = r.args) :
    ∀ r' ∈ c.installs.set k y, ∃ r₀ ∈ c.installs, r'.args = r₀.args := by
  intro r' hr'
  exact exists_rel_of_mem_set (R := fun r₀ r => r.args = r₀.args) (fun _ => rfl) hk hy hr'

theorem send (h : Uncompacted c) {out : List (Outgoing n Cmd)}
    (hout : ∀ o ∈ out, ∃ p, (c.peers i).rf.heartbeatTo p = some o) :
    Uncompacted (c.send i out) := by
  refine ⟨h.included, h.senders, fun r hr => ?_⟩
  rcases List.mem_append.mp hr with hr | hr
  · exact h.calls r hr
  · obtain ⟨o, ho, hro⟩ := List.mem_filterMap.mp hr
    obtain ⟨p, hto⟩ := hout o ho
    rcases heartbeatTo_cases hto with ⟨-, rfl⟩ | ⟨prev, old, -, -, -, -, rfl⟩
    · obtain rfl := Option.some.inj hro
      exact h.included i
    · cases hro

/-- A request that offers the empty snapshot is answered without effect. -/
theorem installSnapshot (h : Uncompacted c) {args : InstallSnapshotArgs n}
    (hargs : args.lastIncludedIndex = 0) :
    (((c.peers i).installSnapshot args).1).rf.lastIncludedIndex = 0 ∧
      (((c.peers i).installSnapshot args).1).senders = [] := by
  have hinc := h.included i
  have hsend := h.senders i
  unfold Peer.installSnapshot
  rcases installSnapshot_cases (c.peers i).rf args with ⟨-, he⟩ | ⟨-, -, he⟩ | ⟨-, hlt, -, -⟩
  · simp [he, hinc, hsend]
  · refine ⟨?_, by simp [he, hsend]⟩
    simp only [he]
    exact (adoptTerm_lastIncludedIndex _ _).trans hinc
  · omega

/-- A step that is neither a restart nor a call of `Snapshot`. -/
theorem step (h : Uncompacted c) {a : Cluster.Act n Cmd} (hrestart : a.isRestart = false)
    (hsnapshot : a.isSnapshot = false) (hs : c.step a = some c') : Uncompacted c' := by
  cases a with
  | ticker i =>
      obtain rfl := Option.some.inj hs
      have hrf : Uncompacted (c.setRf i (c.peers i).rf.ticker.1) := h.setRf (h.included i)
      exact hrf.of_calls rfl (fun r hr => ⟨r, hr, rfl⟩)
  | heartbeat i =>
      obtain ⟨out, hout, rfl⟩ := Option.map_eq_some_iff.mp hs
      refine h.send fun o ho => ?_
      unfold heartbeatEvent at hout
      split at hout
      · obtain ⟨p, -, hto⟩ := broadcastHeartbeat_mem hout ho
        exact ⟨p, hto⟩
      · obtain rfl := Option.some.inj hout
        cases ho
  | start i command =>
      obtain rfl := Option.some.inj hs
      refine h.setRf ?_
      obtain ⟨_, _, _, _, he⟩ := start_frame (c.peers i).rf command
      rw [he]
      exact h.included i
  | snapshot i index data => cases hsnapshot
  | requestVote k =>
      obtain ⟨r, -, -, rfl⟩ := Cluster.step_requestVote hs
      refine (h.setRf (i := r.dst) ?_).of_calls rfl (fun r hr => ⟨r, hr, rfl⟩)
      obtain ⟨_, _, _, _, he⟩ := requestVote_frame (c.peers r.dst).rf r.args
      rw [he]
      exact h.included r.dst
  | appendEntries k =>
      obtain ⟨r, rf, reply, -, -, hrf, rfl⟩ := Cluster.step_appendEntries hs
      refine (h.setRf (i := r.dst) ?_).of_calls rfl (fun r hr => ⟨r, hr, rfl⟩)
      obtain ⟨_, _, _, _, _, _, rfl⟩ := appendEntries_frame hrf
      exact h.included r.dst
  | installSnapshot k =>
      obtain ⟨r, hk, -, rfl⟩ := Cluster.step_installSnapshot hs
      obtain ⟨hinc, hsend⟩ := h.installSnapshot (i := r.dst) (h.calls r (List.mem_of_getElem? hk))
      exact (h.setPeer hinc hsend).of_calls rfl (set_calls hk rfl)
  | voteReply k =>
      obtain ⟨r, reply, rf, out, -, -, -, -, hrf, rfl⟩ := Cluster.step_voteReply hs
      have hinc : rf.lastIncludedIndex = 0 := by
        obtain ⟨_, _, _, _, _, _, _, rfl⟩ := handleVoteReply_frame hrf
        exact h.included r.src
      refine ((h.setRf (i := r.src) hinc).send fun o ho => ?_).of_calls rfl
        (fun r hr => ⟨r, hr, rfl⟩)
      rw [Cluster.setRf_self]
      rcases handleVoteReply_cases hrf with
        ⟨-, rfl⟩ | ⟨-, rfl, -⟩ | ⟨-, -, rfl, -⟩ | ⟨-, -, -, -, hout⟩
      · cases ho
      · cases ho
      · cases ho
      · obtain ⟨p, -, hto⟩ := broadcastHeartbeat_mem hout ho
        exact ⟨p, hto⟩
  | appendReply k =>
      obtain ⟨r, reply, rf, -, -, -, -, hrf, rfl⟩ := Cluster.step_appendReply hs
      refine (h.setRf (i := r.src) ?_).of_calls rfl (fun r hr => ⟨r, hr, rfl⟩)
      obtain ⟨_, _, _, _, _, _, rfl⟩ := handleSendAppendEntries_frame hrf
      exact h.included r.src
  | snapshotReply k =>
      obtain ⟨r, reply, hk, -, -, -, rfl⟩ := Cluster.step_snapshotReply hs
      refine (h.setRf (i := r.src) ?_).of_calls rfl (set_calls hk rfl)
      obtain ⟨_, _, _, _, _, he⟩ :=
        handleSendInstallSnapshot_frame (c.peers r.src).rf r.dst r.args reply
      rw [he]
      exact h.included r.src
  | applier i =>
      obtain ⟨p, hp, rfl⟩ := Option.map_eq_some_iff.mp hs
      obtain ⟨-, hsend, _, _, hrf⟩ := Peer.applierStep_frame hp
      refine h.setPeer ?_ (hsend.trans (h.senders i))
      rw [hrf]
      exact h.included i
  | poll i k =>
      obtain ⟨p, hp, rfl⟩ := Option.map_eq_some_iff.mp hs
      obtain ⟨sender, hk, -⟩ := Peer.pollStep_eq_some.mp hp
      rw [h.senders i] at hk
      cases hk
  | deliver i k =>
      obtain ⟨p, hp, rfl⟩ := Option.map_eq_some_iff.mp hs
      obtain ⟨sender, hk, -⟩ := Peer.sendStep_eq_some.mp hp
      rw [h.senders i] at hk
      cases hk
  | restart i => cases hrestart

end Uncompacted

end Raft

end DistributedLabs
