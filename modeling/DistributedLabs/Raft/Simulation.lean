import DistributedLabs.Raft.PeerSteps

/-!
# Every step of a cluster is a move in the ledger

A run without restarts, in which the test of `InstallSnapshot` on slot 0 has the
outcome of the test on the entry it stands for, can be followed in a ledger.
-/

namespace DistributedLabs

namespace Raft

open Consensus

variable {n : ℕ} {Cmd : Type*} {c c' : Cluster n Cmd} {st st' : Book n Cmd} {i : Fin n}

/-- One peer has moved, and the calls show the new ledger. -/
theorem Refines.update (h : Refines c st) (hm : Book.Moves i st st') (hb : BallotInv c')
    (others : ∀ j, j ≠ i → (c'.peers j).rf = (c.peers j).rf)
    (hpeer : PeerRel st' i (c'.peers i).rf)
    (hvotes : ∀ r ∈ c'.votes, r ∈ c.votes ∨ VoteCall st' r)
    (happends : ∀ r ∈ c'.appends, r ∈ c.appends ∨ AppendCall st' r)
    (hinstalls : ∀ r ∈ c'.installs, r ∈ c.installs ∨ InstallCall st' r) : Refines c' st' where
  ballots := hb
  inv := h.inv.moves hm
  peers j := by
    by_cases hj : j = i
    · subst hj
      exact hpeer
    · rw [others j hj]
      exact (h.peers j).frame hm.le hm.frame hj
  votes r hr := (hvotes r hr).elim (fun hr => (h.votes r hr).mono hm.le) id
  appends r hr := (happends r hr).elim (fun hr => (h.appends r hr).mono hm.le) id
  installs r hr := (hinstalls r hr).elim (fun hr => (h.installs r hr).mono hm.le) id

/-- The requests of a leader show its log. -/
theorem Refines.send (h : Refines c st) (hstate : (c.peers i).rf.state = .leader)
    {out : List (Outgoing n Cmd)} (hout : (c.peers i).rf.broadcastHeartbeat = some out) :
    Refines (c.send i out) st := by
  have hb := h.ballots
  have hrel := h.peers i
  have hme := hb.me i
  generalize hrf : (c.peers i).rf = rf at hstate hout hrel hme
  have hleads := hrel.leader.mp hstate
  have hown : st.lead rf.currentTerm = st.log i := by
    rw [hrel.term] at hleads ⊢
    exact (h.inv.logs.own hleads).symm
  refine h.update .refl ⟨hb.me, hb.calls, hb.past, hb.keys, hb.count⟩ (fun _ _ => rfl)
    (h.peers i) (fun _ hr => Or.inl hr) (fun r hr => ?_) (fun r hr => ?_)
  · rcases List.mem_append.mp hr with hr | hr
    · exact Or.inl hr
    right
    obtain ⟨o, ho, hro⟩ := List.mem_filterMap.mp hr
    obtain ⟨p, hp, hto⟩ := broadcastHeartbeat_mem hout ho
    rcases heartbeatTo_cases hto with
      ⟨-, rfl⟩ | ⟨prev, old, -, hinc, hprev, hold, rfl⟩
    · cases hro
    · obtain rfl := Option.some.inj hro
      rw [hrel.log.lastLogIndex] at hprev
      have hall : (st.log i).take prev ++ rf.logs.rest.drop (prev - rf.lastIncludedIndex) =
          st.log i := by
        rw [hrel.log.rest, List.drop_drop, Nat.add_sub_cancel' hinc, List.take_append_drop]
      have hlen := congrArg List.length hall
      rw [List.length_append, List.length_take_of_le hprev] at hlen
      refine ⟨hleads, fun hip => hp (hip.symm.trans hme.symm), hown ▸ hprev, ?_, ?_, ?_, ?_,
        fun _ hreply => nomatch hreply⟩
      · dsimp only
        rw [hown]
        exact hrel.log.entryAt?_term hinc hold
      · dsimp only
        rw [hown, hall]
      · exact hlen ▸ hrel.committed
      · dsimp only
        rw [hown]
        exact hrel.chosen
  · rcases List.mem_append.mp hr with hr | hr
    · exact Or.inl hr
    right
    obtain ⟨o, ho, hro⟩ := List.mem_filterMap.mp hr
    obtain ⟨p, hp, hto⟩ := broadcastHeartbeat_mem hout ho
    rcases heartbeatTo_cases hto with ⟨-, rfl⟩ | ⟨prev, old, -, -, -, -, rfl⟩
    · obtain rfl := Option.some.inj hro
      refine ⟨hleads, fun hip => hp (hip.symm.trans hme.symm), ?_, ?_, ?_,
        fun _ hreply => nomatch hreply⟩
      · rw [hown]
        exact hrel.log.included
      · dsimp only
        rw [hown]
        exact congrArg LogEntry.term hrel.log.zero
      · dsimp only
        rw [hown]
        exact hrel.chosen.start (List.take_prefix_take_left hrel.included)
    · cases hro

/-- A peer has moved and the calls are those of before. -/
theorem Refines.setRf (h : Refines c st) {rf : Raft n Cmd} (hm : Book.Moves i st st')
    (hb : BallotInv (c.setRf i rf)) (hpeer : PeerRel st' i rf) : Refines (c.setRf i rf) st' := by
  refine h.update hm hb (fun j hj => by rw [Cluster.setRf_of_ne c _ hj]) ?_
    (fun _ hr => Or.inl hr) (fun _ hr => Or.inl hr) (fun _ hr => Or.inl hr)
  rw [Cluster.setRf_self]
  exact hpeer

/-- A goroutine of a peer has moved, and nothing that the ledger sees. -/
theorem Refines.setPeer (h : Refines c st) {p : Peer n Cmd} (hb : BallotInv (c.setPeer i p))
    (hpeer : PeerRel st i p.rf) : Refines (c.setPeer i p) st := by
  refine h.update (i := i) .refl hb (fun j hj => by rw [Cluster.setPeer_of_ne c _ hj]) ?_
    (fun _ hr => Or.inl hr) (fun _ hr => Or.inl hr) (fun _ hr => Or.inl hr)
  rw [Cluster.setPeer_self]
  exact hpeer

theorem Refines.ticker (h : Refines c st) (hs : c.step (.ticker i) = some c') (hb : BallotInv c') :
    ∃ st', st ≤ st' ∧ Refines c' st' := by
  obtain rfl := Option.some.inj hs
  have hrel := h.peers i
  obtain ⟨st', hm, hpeer, hstood⟩ := hrel.ticker h.inv (h.ballots.me i)
  refine ⟨st', hm.le, h.update hm hb (fun j hj => ?_) ?_ (fun r hr => ?_)
    (fun _ hr => Or.inl hr) (fun _ hr => Or.inl hr)⟩
  · rw [Cluster.sendVotes, Cluster.setRf_of_ne c _ hj]
  · rw [Cluster.sendVotes, Cluster.setRf_self]
    exact hpeer
  · rcases List.mem_append.mp hr with hr | hr
    · exact Or.inl hr
    · obtain ⟨call, hcall, rfl⟩ := List.mem_map.mp hr
      obtain ⟨d, -, rfl⟩ := List.mem_map.mp hcall
      refine Or.inr ⟨⟨st.log i, hstood, hrel.log.lastLogIndex, hrel.log.lastLogTerm⟩, ?_⟩
      rintro ⟨reply, hreply, -⟩
      cases hreply

theorem Refines.requestVote (h : Refines c st) {k : ℕ} (hs : c.step (.requestVote k) = some c')
    (hb : BallotInv c') : ∃ st', st ≤ st' ∧ Refines c' st' := by
  obtain ⟨r, hk, -, rfl⟩ := Cluster.step_requestVote hs
  have hmem := List.mem_of_getElem? hk
  obtain ⟨st', hm, hpeer, hgrant⟩ :=
    (h.peers r.dst).requestVote h.inv (h.votes r hmem) (h.ballots.calls r hmem).1
  refine ⟨st', hm.le, h.update hm hb (fun j hj => by rw [Cluster.setRf_of_ne c _ hj]) ?_
    (fun r' hr' => ?_) (fun _ hr => Or.inl hr) (fun _ hr => Or.inl hr)⟩
  · rw [Cluster.setRf_self]
    exact hpeer
  · refine mem_or_of_mem_set hr' ⟨((h.votes r hmem).mono hm.le).stood, ?_⟩
    rintro ⟨reply, hreply, hg⟩
    obtain rfl := Option.some.inj hreply
    exact hgrant hg

theorem Refines.appendEntries (h : Refines c st) {k : ℕ}
    (hs : c.step (.appendEntries k) = some c') (hb : BallotInv c') :
    ∃ st', st ≤ st' ∧ Refines c' st' := by
  obtain ⟨r, rf, reply, hk, -, hrf, rfl⟩ := Cluster.step_appendEntries hs
  have hcall := h.appends r (List.mem_of_getElem? hk)
  obtain ⟨st', hm, hpeer, hsucc⟩ := (h.peers r.dst).appendEntries h.inv hcall rfl hrf
  refine ⟨st', hm.le, h.update hm hb (fun j hj => by rw [Cluster.setRf_of_ne c _ hj]) ?_
    (fun _ hr => Or.inl hr) (fun r' hr' => ?_) (fun _ hr => Or.inl hr)⟩
  · rw [Cluster.setRf_self]
    exact hpeer
  · refine mem_or_of_mem_set hr'
      { hcall.mono hm.le with success := fun reply' hreply hg => ?_ }
    obtain rfl := Option.some.inj hreply
    exact hsucc hg

theorem Refines.installSnapshot (h : Refines c st) {k : ℕ}
    (htest : ∀ r ∈ Rpc.request? c.installs k, (c.peers r.dst).rf.snapshotTestHolds r.args)
    (hs : c.step (.installSnapshot k) = some c') (hb : BallotInv c') :
    ∃ st', st ≤ st' ∧ Refines c' st' := by
  obtain ⟨r, hk, hnone, rfl⟩ := Cluster.step_installSnapshot hs
  have hcall := h.installs r (List.mem_of_getElem? hk)
  obtain ⟨st', hm, hpeer, hsucc⟩ := (h.peers r.dst).installSnapshot h.inv hcall rfl
    (htest r (Rpc.request?_eq_some.mpr ⟨hk, hnone⟩))
  refine ⟨st', hm.le, h.update hm hb (fun j hj => by rw [Cluster.setPeer_of_ne c _ hj]) ?_
    (fun _ hr => Or.inl hr) (fun _ hr => Or.inl hr) (fun r' hr' => ?_)⟩
  · rw [Cluster.setPeer_self]
    exact hpeer
  · refine mem_or_of_mem_set hr'
      { hcall.mono hm.le with success := fun reply' hreply hg => ?_ }
    obtain rfl := Option.some.inj hreply
    exact hsucc hg

theorem Refines.appendReply (h : Refines c st) {k : ℕ}
    (hs : c.step (.appendReply k) = some c') (hb : BallotInv c') :
    ∃ st', st ≤ st' ∧ Refines c' st' := by
  obtain ⟨r, reply, rf, hk, -, hreply, -, hrf, rfl⟩ := Cluster.step_appendReply hs
  have hcall := h.appends r (List.mem_of_getElem? hk)
  obtain ⟨st', hm, hpeer⟩ := (h.peers r.src).handleSendAppendEntries h.inv hcall hreply hrf
  refine ⟨st', hm.le, h.update hm hb (fun j hj => by rw [Cluster.setRf_of_ne c _ hj]) ?_
    (fun _ hr => Or.inl hr) (fun r' hr' => ?_) (fun _ hr => Or.inl hr)⟩
  · rw [Cluster.setRf_self]
    exact hpeer
  · exact mem_or_of_mem_set hr' { hcall.mono hm.le with }

theorem Refines.snapshotReply (h : Refines c st) {k : ℕ}
    (hs : c.step (.snapshotReply k) = some c') (hb : BallotInv c') :
    ∃ st', st ≤ st' ∧ Refines c' st' := by
  obtain ⟨r, reply, hk, -, hreply, -, rfl⟩ := Cluster.step_snapshotReply hs
  have hcall := h.installs r (List.mem_of_getElem? hk)
  obtain ⟨st', hm, hpeer⟩ := (h.peers r.src).handleSendInstallSnapshot h.inv hcall hreply
  refine ⟨st', hm.le, h.update hm hb (fun j hj => by rw [Cluster.setRf_of_ne c _ hj]) ?_
    (fun _ hr => Or.inl hr) (fun _ hr => Or.inl hr) (fun r' hr' => ?_)⟩
  · rw [Cluster.setRf_self]
    exact hpeer
  · exact mem_or_of_mem_set hr' { hcall.mono hm.le with }

/-- The voters that a winning candidate has counted have voted for it in the
ledger. -/
theorem Refines.counted_votes (h : Refines c st) {k : ℕ} {r : VoteRpc n}
    {reply : RequestVoteReply} {rf : Raft n Cmd} (hk : c.votes[k]? = some r)
    (htaken : r.taken = false) (hreply : r.reply = some reply)
    (hinst : r.inst = (c.peers r.src).inst)
    (hterm : (c.peers r.src).rf.currentTerm = r.args.term)
    (hcount : Counted reply (c.peers r.src).rf rf) (hwin : rf.state = .leader) :
    ∃ Q : Finset (Fin n), n / 2 < Q.card ∧
      ∀ v ∈ Q, st.votes v (c.peers r.src).rf.currentTerm r.src := by
  have hmem := List.mem_of_getElem? hk
  obtain ⟨c₁, hvotes₁, hpeer₁⟩ : ∃ c₁ : Cluster n Cmd,
      c₁.votes = c.votes.set k { r with taken := true } ∧
        c₁.peers r.src = (c.peers r.src).setRf rf :=
    ⟨{ c.setRf r.src rf with votes := _ }, rfl, Cluster.setRf_self c r.src rf⟩
  obtain ⟨Q, hcard, hQ⟩ := h.ballots.counted hk htaken hreply hinst (by rw [hpeer₁]; rfl) hvotes₁
    hterm (by rw [hpeer₁]; exact hcount)
  rw [hpeer₁] at hcard
  refine ⟨Q, hcard.symm ▸ hcount.win hwin, fun v hv => ?_⟩
  rcases hQ v hv with rfl | ⟨r', hr', -, hg, hkey⟩
  · exact ((h.peers r.src).candidate hcount.candidate).2
  · have hvote : st.votes r'.dst r'.args.term r'.src := by
      rw [hvotes₁] at hr'
      rcases List.mem_or_eq_of_mem_set hr' with hr' | rfl
      · exact (h.votes r' hr').granted hg
      · exact (h.votes r hmem).granted hg
    simp only [VoteRpc.key, Prod.mk.injEq, hpeer₁] at hkey
    obtain ⟨hsrc, -, ht, hdst⟩ := hkey
    rw [hsrc, ht, hdst] at hvote
    exact hcount.term ▸ hvote

theorem Refines.voteReply (h : Refines c st) {k : ℕ} (hs : c.step (.voteReply k) = some c')
    (hb : BallotInv c') : ∃ st', st ≤ st' ∧ Refines c' st' := by
  obtain ⟨r, reply, rf, out, hk, htaken, hreply, hinst, hrf, rfl⟩ := Cluster.step_voteReply hs
  have hrel := h.peers r.src
  -- the cluster after the reply has been processed, before the broadcast
  have hdone : ∀ {st'}, Book.Moves r.src st st' → PeerRel st' r.src rf →
      Refines { c.setRf r.src rf with votes := c.votes.set k { r with taken := true } } st' := by
    intro st' hm hpeer
    refine h.update hm ⟨hb.me, hb.calls, hb.past, hb.keys, hb.count⟩
      (fun j hj => by rw [Cluster.setRf_of_ne c _ hj]) ?_ (fun r' hr' => ?_)
      (fun _ hr => Or.inl hr) (fun _ hr => Or.inl hr)
    · rw [Cluster.setRf_self]
      exact hpeer
    · exact mem_or_of_mem_set hr' { (h.votes r (List.mem_of_getElem? hk)).mono hm.le with }
  have hsilent : ∀ {st'}, out = [] → Book.Moves r.src st st' → PeerRel st' r.src rf →
      ∃ st', st ≤ st' ∧ Refines { (c.setRf r.src rf).send r.src out with
        votes := c.votes.set k { r with taken := true } } st' := by
    rintro st' rfl hm hpeer
    refine ⟨st', hm.le, ?_⟩
    simpa [Cluster.send, Cluster.appendsOf, Cluster.installsOf] using hdone hm hpeer
  have hcountRel : PeerRel st r.src ((c.peers r.src).rf.countVote reply) := by
    rcases countVote_cases (c.peers r.src).rf reply with ⟨-, he⟩ | ⟨-, he⟩
    · rw [he]
      exact hrel.unseen _ _ _ _ _ _
    · rw [he]
      exact hrel
  rcases handleVoteReply_cases hrf with
    ⟨hsame, hout⟩ | ⟨hlt, hout, hsame⟩ | ⟨-, -, hout, hsame⟩ | ⟨hterm, hcand, -, hsame, hout⟩
  · exact hsilent hout .refl (hsame ▸ hrel)
  · obtain ⟨st', hm, -, hpeer⟩ := hrel.bump h.inv hlt noVote
    refine hsilent hout hm ?_
    rw [hsame]
    exact hpeer.unseen _ _ _ _ _ _
  · exact hsilent hout .refl (hsame ▸ hcountRel)
  · have hwin : rf.state = .leader := by
      rw [hsame]
      rfl
    have hcount : Counted reply (c.peers r.src).rf rf := by
      rcases handleVoteReply_quiet_or_counted hrf with hquiet | ⟨-, hcount⟩
      · obtain ⟨hlead, -⟩ := leader_of_role hquiet.role hwin
        rw [hcand] at hlead
        cases hlead
      · exact hcount
    obtain ⟨Q, hQ, hvotes⟩ := h.counted_votes hk htaken hreply hinst hterm hcount hwin
    obtain ⟨hstate', hterm', hme'⟩ :
        ((c.peers r.src).rf.countVote reply).state = (c.peers r.src).rf.state ∧
        ((c.peers r.src).rf.countVote reply).currentTerm = (c.peers r.src).rf.currentTerm ∧
        ((c.peers r.src).rf.countVote reply).me = (c.peers r.src).rf.me := by
      rcases countVote_cases (c.peers r.src).rf reply with ⟨-, he⟩ | ⟨-, he⟩ <;> simp [he]
    obtain ⟨st', hm, hpeer⟩ := hcountRel.win h.inv (hstate'.trans hcand)
      (hme'.trans (h.ballots.me r.src)) hQ (hterm'.symm ▸ hvotes)
    rw [← hsame] at hpeer
    refine ⟨st', hm.le, ?_⟩
    exact (hdone hm hpeer).send (i := r.src) (by rw [Cluster.setRf_self]; exact hwin)
      (by rw [Cluster.setRf_self]; exact hout)

/-- The deliveries of `InstallSnapshot` whose test on slot 0 has the right outcome. -/
def snapshotSafe (c : Cluster n Cmd) : Cluster.Act n Cmd → Prop
  | .installSnapshot k =>
    ∀ r ∈ Rpc.request? c.installs k, (c.peers r.dst).rf.snapshotTestHolds r.args
  | _ => True

instance (c : Cluster n Cmd) : DecidablePred (snapshotSafe c)
  | .installSnapshot k => inferInstanceAs (Decidable
      (∀ r ∈ Rpc.request? c.installs k, (c.peers r.dst).rf.snapshotTestHolds r.args))
  | .ticker _ | .heartbeat _ | .start _ _ | .snapshot _ _ _ | .requestVote _ | .appendEntries _
  | .voteReply _ | .appendReply _ | .snapshotReply _ | .applier _ | .poll _ _ | .deliver _ _
  | .restart _ => .isTrue trivial

/-- Every step without a restart is a move in the ledger. -/
theorem Refines.step (h : Refines c st) {a : Cluster.Act n Cmd}
    (hok : (∀ i, a ≠ .restart i) ∧ snapshotSafe c a) (hs : c.step a = some c') :
    ∃ st', st ≤ st' ∧ Refines c' st' := by
  have hb := h.ballots.step (electionStep_of_step hs)
  cases a with
  | ticker i => exact h.ticker hs hb
  | heartbeat i =>
      obtain ⟨out, hout, rfl⟩ := Option.map_eq_some_iff.mp hs
      refine ⟨st, le_rfl, ?_⟩
      unfold heartbeatEvent at hout
      split at hout
      · rename_i hstate
        exact h.send hstate hout
      · obtain rfl := Option.some.inj hout
        simpa [Cluster.send, Cluster.appendsOf, Cluster.installsOf] using h
  | start i command =>
      obtain rfl := Option.some.inj hs
      obtain ⟨st', hm, hpeer⟩ := (h.peers i).start h.inv (h.ballots.me i) command
      exact ⟨st', hm.le, h.setRf hm hb hpeer⟩
  | snapshot i index data =>
      obtain ⟨rf, hrf, rfl⟩ := Option.map_eq_some_iff.mp hs
      exact ⟨st, le_rfl, h.setRf .refl hb ((h.peers i).snapshotUpTo hrf)⟩
  | requestVote k => exact h.requestVote hs hb
  | appendEntries k => exact h.appendEntries hs hb
  | installSnapshot k => exact h.installSnapshot hok.2 hs hb
  | voteReply k => exact h.voteReply hs hb
  | appendReply k => exact h.appendReply hs hb
  | snapshotReply k => exact h.snapshotReply hs hb
  | applier i =>
      obtain ⟨p, hp, rfl⟩ := Option.map_eq_some_iff.mp hs
      obtain ⟨-, -, flag, lastApplied, hrf⟩ := Peer.applierStep_frame hp
      refine ⟨st, le_rfl, h.setPeer hb ?_⟩
      rw [hrf]
      exact (h.peers i).unseen _ _ _ _ _ _
  | poll i k =>
      obtain ⟨p, hp, rfl⟩ := Option.map_eq_some_iff.mp hs
      obtain ⟨sender, -, -, rfl⟩ := Peer.pollStep_eq_some.mp hp
      exact ⟨st, le_rfl, h.setPeer hb (h.peers i)⟩
  | deliver i k =>
      obtain ⟨p, hp, rfl⟩ := Option.map_eq_some_iff.mp hs
      obtain ⟨sender, -, -, rfl⟩ := Peer.sendStep_eq_some.mp hp
      exact ⟨st, le_rfl, h.setPeer hb (h.peers i)⟩
  | restart i => exact absurd rfl (hok.1 i)

end Raft

end DistributedLabs
