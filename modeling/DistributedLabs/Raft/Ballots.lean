import DistributedLabs.Raft.Durability
import DistributedLabs.Raft.Cluster
import DistributedLabs.Logic.Lists
import Mathlib.Data.Finset.Card

/-!
# The election view of a cluster step

`Quiet rf rf'` is what the elections need to know about a step of a peer that
neither stands, votes nor wins. `ElectionStep c a c'` lists the six ways in which
a step of the cluster can touch the vote requests and the voting state, and
`electionStep_of_step` shows that there are no others. The first invariant over
these steps is the counter: a candidate has counted one vote for itself and one
for each distinct peer whose granting reply it has taken.
-/

namespace DistributedLabs

namespace Raft

variable {n : ℕ} {Cmd : Type*}

/-! ## Quiet steps of a peer -/

/-- A step of a peer that neither stands, votes nor wins: it keeps the role and
the counter or becomes a follower, keeps the vote unless the term rises, and
saves the status it ends with if it saves anything. -/
structure Quiet (rf rf' : Raft n Cmd) : Prop where
  me : rf'.me = rf.me
  role : rf'.state = .follower ∨
    (rf'.state = rf.state ∧ rf'.currentTerm = rf.currentTerm ∧
      rf'.voteGrantedCnt = rf.voteGrantedCnt)
  term : rf.currentTerm ≤ rf'.currentTerm
  vote : rf'.currentTerm = rf.currentTerm → rf'.votedFor = rf.votedFor
  saved : rf'.persister.raftstate = rf.persister.raftstate ∨
    rf'.persister.raftstate = some rf'.status

/-- A step that leaves the election fields alone. -/
theorem Quiet.of_eq {rf rf' : Raft n Cmd} (hme : rf'.me = rf.me)
    (hstate : rf'.state = rf.state) (hterm : rf'.currentTerm = rf.currentTerm)
    (hvote : rf'.votedFor = rf.votedFor) (hcnt : rf'.voteGrantedCnt = rf.voteGrantedCnt)
    (hsaved : rf'.persister.raftstate = rf.persister.raftstate ∨
      rf'.persister.raftstate = some rf'.status) : Quiet rf rf' :=
  ⟨hme, Or.inr ⟨hstate, hterm, hcnt⟩, hterm.ge, fun _ => hvote, hsaved⟩

theorem Quiet.refl (rf : Raft n Cmd) : Quiet rf rf :=
  Quiet.of_eq rfl rfl rfl rfl rfl (Or.inl rfl)

/-- A step that adopts a larger term and becomes a follower. -/
theorem Quiet.of_lt {rf rf' : Raft n Cmd} (hme : rf'.me = rf.me)
    (hstate : rf'.state = .follower) (hterm : rf.currentTerm < rf'.currentTerm)
    (hsaved : rf'.persister.raftstate = rf.persister.raftstate ∨
      rf'.persister.raftstate = some rf'.status) : Quiet rf rf' :=
  ⟨hme, Or.inl hstate, hterm.le, fun h => absurd h hterm.ne', hsaved⟩

theorem Quiet.persist {rf rf' : Raft n Cmd} (h : Quiet rf rf') : Quiet rf rf'.persist :=
  ⟨h.me, h.role, h.term, h.vote, Or.inr rfl⟩

theorem quiet_followTerm (rf : Raft n Cmd) (term : ℕ) : Quiet rf (rf.followTerm term) := by
  rcases followTerm_cases rf term with ⟨-, h⟩ | ⟨hlt, h⟩
  · rw [h]
    exact Quiet.refl rf
  · rw [h]
    exact Quiet.of_lt rfl rfl hlt (Or.inl rfl)

/-- Adopting the term of a leader, in either of the two orders of the source. -/
theorem quiet_adoptTerm_toFollower (rf : Raft n Cmd) (term : ℕ) :
    Quiet rf (rf.adoptTerm term).toFollower := by
  rcases adoptTerm_cases rf term with ⟨-, h⟩ | ⟨hlt, h⟩
  · rw [h]
    exact ⟨rfl, Or.inl rfl, le_rfl, fun _ => rfl, Or.inl rfl⟩
  · rw [h]
    exact Quiet.of_lt rfl rfl hlt (Or.inl rfl)

theorem toFollower_adoptTerm (rf : Raft n Cmd) (term : ℕ) :
    rf.toFollower.adoptTerm term = (rf.adoptTerm term).toFollower := by
  unfold adoptTerm toFollower
  split <;> rfl

theorem quiet_start (rf : Raft n Cmd) (command : Option Cmd) :
    Quiet rf (rf.start command).1 := by
  rcases start_cases rf command with ⟨-, h⟩ | ⟨-, rf₁, rfl, h⟩
  · rw [h]
    exact Quiet.refl rf
  · rw [h]
    exact Quiet.of_eq rfl rfl rfl rfl rfl (Or.inr rfl)

theorem quiet_snapshotUpTo {rf rf' : Raft n Cmd} {index : ℕ} {data : Bytes}
    (h : rf.snapshotUpTo index data = some rf') : Quiet rf rf' := by
  rcases snapshotUpTo_cases h with rfl | ⟨-, -, entry, -, rfl⟩
  · exact Quiet.refl rf'
  · exact Quiet.of_eq rfl rfl rfl rfl rfl (Or.inr rfl)

theorem quiet_appendEntries {rf rf' : Raft n Cmd} {args : AppendEntriesArgs n Cmd}
    {reply : AppendEntriesReply} (h : rf.appendEntries args = some (rf', reply)) :
    Quiet rf rf' := by
  rcases appendEntries_cases h with ⟨-, rfl, -⟩ | ⟨-, rf₁, hrep, rfl⟩
  · exact Quiet.refl rf'
  · have hq := quiet_adoptTerm_toFollower rf args.term
    rw [← toFollower_adoptTerm] at hq
    obtain ⟨logs, commitIndex, rfl⟩ := replicate_frame hrep
    refine Quiet.persist ⟨hq.me, hq.role, hq.term, hq.vote, Or.inl ?_⟩
    obtain ⟨_, _, he⟩ := adoptTerm_frame rf.toFollower args.term
    rw [he]
    rfl

theorem quiet_installSnapshot (rf : Raft n Cmd) (args : InstallSnapshotArgs n) :
    Quiet rf (rf.installSnapshot args).1 := by
  have hq := quiet_adoptTerm_toFollower rf args.term
  rcases installSnapshot_cases rf args with ⟨-, h⟩ | ⟨-, -, h⟩ | ⟨-, -, -, h⟩
  · rw [h]
    exact Quiet.refl rf
  · rw [h]
    exact hq
  · rw [h]
    exact ⟨hq.me, hq.role, hq.term, hq.vote, Or.inr rfl⟩

theorem quiet_handleSendAppendEntries {rf rf' : Raft n Cmd} {peer : Fin n}
    {args : AppendEntriesArgs n Cmd} {reply : AppendEntriesReply}
    (h : rf.handleSendAppendEntries peer args reply = some rf') : Quiet rf rf' := by
  rcases handleSendAppendEntries_cases h with
    rfl | ⟨-, -, hlt, rfl⟩ | ⟨-, -, -, hcommit⟩ | ⟨-, -, -, rfl⟩
  · exact Quiet.refl rf'
  · exact Quiet.of_lt rfl rfl hlt (Or.inr rfl)
  · obtain ⟨N, rfl⟩ := checkAndCommitLogs_eq hcommit
    exact Quiet.of_eq rfl rfl rfl rfl rfl (Or.inl rfl)
  · exact Quiet.of_eq rfl rfl rfl rfl rfl (Or.inl rfl)

theorem quiet_handleSendInstallSnapshot (rf : Raft n Cmd) (peer : Fin n)
    (args : InstallSnapshotArgs n) (reply : InstallSnapshotReply) :
    Quiet rf (rf.handleSendInstallSnapshot peer args reply) := by
  rcases handleSendInstallSnapshot_cases rf peer args reply with h | ⟨-, -, hlt, h⟩ | ⟨-, -, -, h⟩
  · rw [h]
    exact Quiet.refl rf
  · rw [h]
    exact Quiet.of_lt rfl rfl hlt (Or.inr rfl)
  · rw [h]
    exact Quiet.of_eq rfl rfl rfl rfl rfl (Or.inl rfl)

theorem quiet_applierStep {p p' : Peer n Cmd} (h : p.applierStep = some p') :
    Quiet p.rf p'.rf := by
  obtain ⟨-, -, flag, lastApplied, hrf⟩ := Peer.applierStep_frame h
  rw [hrf]
  exact Quiet.of_eq rfl rfl rfl rfl rfl (Or.inl rfl)

/-- A reply is counted: the counter rises with a granted vote, and the candidate
may become a leader once it exceeds half of the peers. -/
structure Counted (reply : RequestVoteReply) (rf rf' : Raft n Cmd) : Prop where
  me : rf'.me = rf.me
  term : rf'.currentTerm = rf.currentTerm
  vote : rf'.votedFor = rf.votedFor
  saved : rf'.persister = rf.persister
  candidate : rf.state = .candidate
  count : rf'.voteGrantedCnt = rf.voteGrantedCnt + if reply.voteGranted then 1 else 0
  win : rf'.state = .leader → n / 2 < rf'.voteGrantedCnt

theorem handleVoteReply_quiet_or_counted {rf rf' : Raft n Cmd} {args : RequestVoteArgs n}
    {reply : RequestVoteReply} {out : List (Outgoing n Cmd)}
    (h : rf.handleVoteReply args reply = some (rf', out)) :
    Quiet rf rf' ∨ (rf.currentTerm = args.term ∧ Counted reply rf rf') := by
  rcases handleVoteReply_cases h with
    ⟨rfl, -⟩ | ⟨hlt, -, rfl⟩ | ⟨hterm, hcand, -, rfl⟩ | ⟨hterm, hcand, hwin, rfl, -⟩
  · exact Or.inl (Quiet.refl rf')
  · exact Or.inl (Quiet.of_lt rfl rfl hlt (Or.inr rfl))
  · refine Or.inr ⟨hterm, ?_⟩
    rcases countVote_cases rf reply with ⟨hg, he⟩ | ⟨hg, he⟩
    · rw [he]
      exact ⟨rfl, rfl, rfl, rfl, hcand, by simp [hg], fun hl => by simp [hcand] at hl⟩
    · rw [he]
      exact ⟨rfl, rfl, rfl, rfl, hcand, by simp [hg], fun hl => by simp [hcand] at hl⟩
  · refine Or.inr ⟨hterm, ?_⟩
    rcases countVote_cases rf reply with ⟨hg, he⟩ | ⟨hg, he⟩
    · rw [he] at hwin ⊢
      exact ⟨rfl, rfl, rfl, rfl, hcand, by simp [hg]; rfl, fun _ => hwin⟩
    · rw [he] at hwin ⊢
      exact ⟨rfl, rfl, rfl, rfl, hcand, by simp [hg]; rfl, fun _ => hwin⟩

theorem restart_me (p : Peer n Cmd) : p.restart.rf.me = p.rf.me := by
  cases h : p.rf.persister.raftstate <;> simp [Peer.restart, Peer.make, make, readPersist, h]

theorem restart_state (p : Peer n Cmd) : p.restart.rf.state = .follower := by
  cases h : p.rf.persister.raftstate <;> simp [Peer.restart, Peer.make, make, readPersist, h]

/-! ## Steps of the cluster -/

/-- A call of `RequestVote`. -/
abbrev VoteRpc (n : ℕ) := Rpc n (RequestVoteArgs n) RequestVoteReply

/-- The handler has answered the call with a vote. -/
def VoteRpc.granted (r : VoteRpc n) : Prop :=
  ∃ reply, r.reply = some reply ∧ reply.voteGranted = true

/-- A granted vote: the voter was not ahead of the candidate and had not voted
for another one in this term; it ends in the term of the candidate, with its
vote recorded and saved. -/
structure Grants (args : RequestVoteArgs n) (rf rf' : Raft n Cmd) : Prop where
  me : rf'.me = rf.me
  role : rf'.state = .follower ∨
    (rf'.state = rf.state ∧ rf'.currentTerm = rf.currentTerm ∧
      rf'.voteGrantedCnt = rf.voteGrantedCnt)
  term : rf.currentTerm ≤ args.term
  free : rf.currentTerm = args.term →
    rf.votedFor = noVote ∨ rf.votedFor = (args.candidateId : ℕ)
  newTerm : rf'.currentTerm = args.term
  newVote : rf'.votedFor = (args.candidateId : ℕ)
  saved : rf'.persister.raftstate = some rf'.status

/-- `RequestVote` refuses quietly or grants. -/
theorem requestVote_quiet_or_grants (rf : Raft n Cmd) (args : RequestVoteArgs n) :
    (Quiet rf (rf.requestVote args).1 ∧ (rf.requestVote args).2.voteGranted = false) ∨
      (Grants args rf (rf.requestVote args).1 ∧
        (rf.requestVote args).2.voteGranted = true) := by
  have hq := quiet_followTerm rf args.term
  rcases requestVote_cases rf args with ⟨-, h⟩ | ⟨-, h⟩ | ⟨hle, hfree, -, h⟩
  · rw [h]
    exact Or.inl ⟨Quiet.refl rf, rfl⟩
  · rw [h]
    exact Or.inl ⟨hq.persist, rfl⟩
  · rw [h]
    refine Or.inr ⟨⟨hq.me, hq.role, hle, ?_, ?_, rfl, rfl⟩, rfl⟩
    · intro heq
      rcases followTerm_cases rf args.term with ⟨-, he⟩ | ⟨hlt, -⟩
      · rwa [he] at hfree
      · omega
    · rcases followTerm_cases rf args.term with ⟨hge, he⟩ | ⟨-, he⟩
      · rw [he]
        exact le_antisymm hle hge
      · rw [he]
        rfl

/-- The calls that a candidate issues. -/
def callsOf (i : Fin n) (inst : ℕ) (rf : Raft n Cmd) : List (VoteRpc n) :=
  rf.ticker.2.map fun r => { src := i, dst := r.1, inst := inst, args := r.2 }

/-- What a step of the cluster can do to the vote requests and to the voting
state of its peers. -/
inductive ElectionStep (c : Cluster n Cmd) (a : Cluster.Act n Cmd) (c' : Cluster n Cmd) :
    Prop where
  | quiet (i : Fin n) (others : ∀ j, j ≠ i → c'.peers j = c.peers j)
      (inst : (c'.peers i).inst = (c.peers i).inst) (votes : c'.votes = c.votes)
      (peer : Quiet (c.peers i).rf (c'.peers i).rf)
  | stand (i : Fin n) (others : ∀ j, j ≠ i → c'.peers j = c.peers j)
      (inst : (c'.peers i).inst = (c.peers i).inst)
      (votes : c'.votes = c.votes ++ callsOf i (c.peers i).inst (c.peers i).rf)
      (peer : (c'.peers i).rf = (c.peers i).rf.ticker.1)
  | refuse (k : ℕ) (r : VoteRpc n) (reply : RequestVoteReply)
      (call : c.votes[k]? = some r) (fresh : r.reply = none)
      (others : ∀ j, j ≠ r.dst → c'.peers j = c.peers j)
      (inst : (c'.peers r.dst).inst = (c.peers r.dst).inst)
      (votes : c'.votes = c.votes.set k { r with reply := some reply })
      (refused : reply.voteGranted = false)
      (peer : Quiet (c.peers r.dst).rf (c'.peers r.dst).rf)
  | grant (k : ℕ) (r : VoteRpc n) (reply : RequestVoteReply)
      (call : c.votes[k]? = some r) (fresh : r.reply = none)
      (others : ∀ j, j ≠ r.dst → c'.peers j = c.peers j)
      (inst : (c'.peers r.dst).inst = (c.peers r.dst).inst)
      (votes : c'.votes = c.votes.set k { r with reply := some reply })
      (granted : reply.voteGranted = true)
      (peer : Grants r.args (c.peers r.dst).rf (c'.peers r.dst).rf)
  | take (k : ℕ) (r : VoteRpc n) (reply : RequestVoteReply)
      (call : c.votes[k]? = some r) (fresh : r.taken = false)
      (answer : r.reply = some reply) (instance_eq : r.inst = (c.peers r.src).inst)
      (others : ∀ j, j ≠ r.src → c'.peers j = c.peers j)
      (inst : (c'.peers r.src).inst = (c.peers r.src).inst)
      (votes : c'.votes = c.votes.set k { r with taken := true })
      (peer : Quiet (c.peers r.src).rf (c'.peers r.src).rf ∨
        ((c.peers r.src).rf.currentTerm = r.args.term ∧
          Counted reply (c.peers r.src).rf (c'.peers r.src).rf))
  | restart (i : Fin n) (act : a = .restart i)
      (others : ∀ j, j ≠ i → c'.peers j = c.peers j)
      (votes : c'.votes = c.votes) (peer : c'.peers i = (c.peers i).restart)

theorem electionStep_of_step {c c' : Cluster n Cmd} {a : Cluster.Act n Cmd}
    (h : c.step a = some c') : ElectionStep c a c' := by
  cases a with
  | ticker i =>
      obtain rfl := Option.some.inj h
      refine .stand i (fun j hj => Cluster.setRf_of_ne c _ hj) ?_ ?_ ?_ <;>
        simp [Cluster.sendVotes, Peer.setRf, callsOf, Cluster.setRf, Cluster.setPeer]
  | heartbeat i =>
      obtain ⟨out, -, rfl⟩ := Option.map_eq_some_iff.mp h
      exact .quiet i (fun _ _ => rfl) rfl rfl (Quiet.refl _)
  | start i command =>
      obtain rfl := Option.some.inj h
      refine .quiet i (fun j hj => Cluster.setRf_of_ne c _ hj) (by simp [Peer.setRf]) rfl ?_
      simpa [Peer.setRf] using quiet_start (c.peers i).rf command
  | snapshot i index data =>
      obtain ⟨rf, hrf, rfl⟩ := Option.map_eq_some_iff.mp h
      refine .quiet i (fun j hj => Cluster.setRf_of_ne c _ hj) (by simp [Peer.setRf]) rfl ?_
      simpa [Peer.setRf] using quiet_snapshotUpTo hrf
  | requestVote k =>
      obtain ⟨r, hk, hnone, rfl⟩ := Cluster.step_requestVote h
      rcases requestVote_quiet_or_grants (c.peers r.dst).rf r.args with ⟨hq, hg⟩ | ⟨hq, hg⟩
      · exact .refuse k r _ hk hnone (fun j hj => Cluster.setRf_of_ne c _ hj)
          (by simp [Peer.setRf]) rfl hg (by simpa [Peer.setRf] using hq)
      · exact .grant k r _ hk hnone (fun j hj => Cluster.setRf_of_ne c _ hj)
          (by simp [Peer.setRf]) rfl hg (by simpa [Peer.setRf] using hq)
  | appendEntries k =>
      obtain ⟨r, rf, reply, -, -, hrf, rfl⟩ := Cluster.step_appendEntries h
      refine .quiet r.dst (fun j hj => Cluster.setRf_of_ne c _ hj) (by simp [Peer.setRf]) rfl ?_
      simpa [Peer.setRf] using quiet_appendEntries hrf
  | installSnapshot k =>
      obtain ⟨r, -, -, rfl⟩ := Cluster.step_installSnapshot h
      refine .quiet r.dst (fun j hj => Cluster.setPeer_of_ne c _ hj)
        (by simp [Peer.installSnapshot]) rfl ?_
      simpa [Peer.installSnapshot] using quiet_installSnapshot (c.peers r.dst).rf r.args
  | voteReply k =>
      obtain ⟨r, reply, rf, out, hk, htaken, hreply, hinst, hrf, rfl⟩ := Cluster.step_voteReply h
      refine .take k r reply hk htaken hreply hinst
        (fun j hj => Cluster.setRf_of_ne c _ hj) (by simp [Cluster.send, Peer.setRf]) rfl ?_
      simpa [Cluster.send, Peer.setRf] using handleVoteReply_quiet_or_counted hrf
  | appendReply k =>
      obtain ⟨r, reply, rf, -, -, -, -, hrf, rfl⟩ := Cluster.step_appendReply h
      refine .quiet r.src (fun j hj => Cluster.setRf_of_ne c _ hj) (by simp [Peer.setRf]) rfl ?_
      simpa [Peer.setRf] using quiet_handleSendAppendEntries hrf
  | snapshotReply k =>
      obtain ⟨r, reply, -, -, -, -, rfl⟩ := Cluster.step_snapshotReply h
      refine .quiet r.src (fun j hj => Cluster.setRf_of_ne c _ hj) (by simp [Peer.setRf]) rfl ?_
      simpa [Peer.setRf] using
        quiet_handleSendInstallSnapshot (c.peers r.src).rf r.dst r.args reply
  | applier i =>
      obtain ⟨p, hp, rfl⟩ := Option.map_eq_some_iff.mp h
      refine .quiet i (fun j hj => Cluster.setPeer_of_ne c _ hj)
        (by simpa using (Peer.applierStep_frame hp).1) rfl ?_
      simpa using quiet_applierStep hp
  | poll i k =>
      obtain ⟨p, hp, rfl⟩ := Option.map_eq_some_iff.mp h
      obtain ⟨sender, -, -, rfl⟩ := Peer.pollStep_eq_some.mp hp
      exact .quiet i (fun j hj => Cluster.setPeer_of_ne c _ hj) (by simp) rfl
        (by simpa using Quiet.refl _)
  | deliver i k =>
      obtain ⟨p, hp, rfl⟩ := Option.map_eq_some_iff.mp h
      obtain ⟨sender, -, -, rfl⟩ := Peer.sendStep_eq_some.mp hp
      exact .quiet i (fun j hj => Cluster.setPeer_of_ne c _ hj) (by simp) rfl
        (by simpa using Quiet.refl _)
  | restart i =>
      obtain rfl := Option.some.inj h
      exact .restart i rfl (fun j hj => Cluster.setPeer_of_ne c _ hj) rfl (by simp)

/-! ## The vote counter -/

/-- What identifies a call: its caller, the instance of the caller, the term and
the peer it is addressed to. -/
def VoteRpc.key (r : VoteRpc n) : Fin n × ℕ × ℕ × Fin n :=
  (r.src, r.inst, r.args.term, r.dst)

/-- A granting reply that the peer `i` has taken in its present instance and
term. -/
def takenGrant (c : Cluster n Cmd) (i v : Fin n) (r : VoteRpc n) : Prop :=
  r.taken = true ∧ r.granted ∧
    r.key = (i, (c.peers i).inst, (c.peers i).rf.currentTerm, v)

/-- The calls of a cluster are well formed and pairwise distinct, and a candidate
has counted itself and distinct peers whose granting reply it has taken. -/
structure BallotInv (c : Cluster n Cmd) : Prop where
  me : ∀ i, (c.peers i).rf.me = i
  calls : ∀ r ∈ c.votes, r.args.candidateId = r.src ∧ r.dst ≠ r.src
  past : ∀ r ∈ c.votes, r.inst < (c.peers r.src).inst ∨
    (r.inst = (c.peers r.src).inst ∧ r.args.term ≤ (c.peers r.src).rf.currentTerm)
  keys : (c.votes.map VoteRpc.key).Nodup
  count : ∀ i, (c.peers i).rf.state = .candidate → ∃ Vs : Finset (Fin n),
    Vs.card = (c.peers i).rf.voteGrantedCnt ∧
      ∀ v ∈ Vs, v = i ∨ ∃ r ∈ c.votes, takenGrant c i v r

theorem ballotInv_init (n : ℕ) (Cmd : Type*) : BallotInv (Cluster.init n Cmd) where
  me _ := rfl
  calls r hr := by cases hr
  past r hr := by cases hr
  keys := List.nodup_nil
  count i hi := by cases hi

/-- The counted votes of a peer are carried over a step that keeps its instance,
its term and the calls it has taken. -/
theorem BallotInv.count_of_eq {c c' : Cluster n Cmd} (h : BallotInv c) {i : Fin n}
    (hstate : (c.peers i).rf.state = .candidate)
    (hinst : (c'.peers i).inst = (c.peers i).inst)
    (hterm : (c'.peers i).rf.currentTerm = (c.peers i).rf.currentTerm)
    (hcnt : (c'.peers i).rf.voteGrantedCnt = (c.peers i).rf.voteGrantedCnt)
    (hcalls : ∀ v, (∃ r ∈ c.votes, takenGrant c i v r) → ∃ r ∈ c'.votes, takenGrant c i v r) :
    ∃ Vs : Finset (Fin n), Vs.card = (c'.peers i).rf.voteGrantedCnt ∧
      ∀ v ∈ Vs, v = i ∨ ∃ r ∈ c'.votes, takenGrant c' i v r := by
  obtain ⟨Vs, hcard, hVs⟩ := h.count i hstate
  refine ⟨Vs, hcard.trans hcnt.symm, fun v hv => ?_⟩
  rcases hVs v hv with rfl | hr
  · exact Or.inl rfl
  · obtain ⟨r, hr, ht, hg, hkey⟩ := hcalls v hr
    exact Or.inr ⟨r, hr, ht, hg, by rw [hinst, hterm, hkey]⟩

/-- A peer that keeps its role as a leader keeps its term. -/
theorem leader_of_role {rf rf' : Raft n Cmd}
    (h : rf'.state = .follower ∨ (rf'.state = rf.state ∧ rf'.currentTerm = rf.currentTerm ∧
      rf'.voteGrantedCnt = rf.voteGrantedCnt)) (hl : rf'.state = .leader) :
    rf.state = .leader ∧ rf'.currentTerm = rf.currentTerm := by
  rcases h with h | ⟨hs, ht, -⟩
  · rw [h] at hl
    cases hl
  · exact ⟨hs ▸ hl, ht⟩

/-- A role that survives a step of a peer. -/
theorem candidate_of_role {rf rf' : Raft n Cmd}
    (h : rf'.state = .follower ∨ (rf'.state = rf.state ∧ rf'.currentTerm = rf.currentTerm ∧
      rf'.voteGrantedCnt = rf.voteGrantedCnt)) (hc : rf'.state = .candidate) :
    rf.state = .candidate ∧ rf'.currentTerm = rf.currentTerm ∧
      rf'.voteGrantedCnt = rf.voteGrantedCnt := by
  rcases h with h | ⟨hs, ht, hn⟩
  · rw [h] at hc
    cases hc
  · exact ⟨hs ▸ hc, ht, hn⟩

/-- A step that changes one peer, keeps its instance, does not lower its term and
replaces the calls by calls with the same keys, with the votes that this peer has
counted after the step. -/
theorem BallotInv.of_count {c c' : Cluster n Cmd} (h : BallotInv c) {i : Fin n}
    (others : ∀ j, j ≠ i → c'.peers j = c.peers j)
    (inst : (c'.peers i).inst = (c.peers i).inst)
    (me : (c'.peers i).rf.me = (c.peers i).rf.me)
    (term : (c.peers i).rf.currentTerm ≤ (c'.peers i).rf.currentTerm)
    (calls : ∀ r ∈ c'.votes, ∃ r₀ ∈ c.votes, VoteRpc.key r₀ = VoteRpc.key r ∧
      r₀.args.candidateId = r.args.candidateId)
    (keys : c'.votes.map VoteRpc.key = c.votes.map VoteRpc.key)
    (taken : ∀ j v, (∃ r ∈ c.votes, takenGrant c j v r) → ∃ r ∈ c'.votes, takenGrant c j v r)
    (count : (c'.peers i).rf.state = .candidate → ∃ Vs : Finset (Fin n),
      Vs.card = (c'.peers i).rf.voteGrantedCnt ∧
        ∀ v ∈ Vs, v = i ∨ ∃ r ∈ c'.votes, takenGrant c' i v r) :
    BallotInv c' := by
  refine ⟨fun j => ?_, fun r hr => ?_, fun r hr => ?_, keys ▸ h.keys, fun j hj => ?_⟩
  · by_cases hji : j = i
    · subst hji
      exact me.trans (h.me j)
    · rw [others j hji]
      exact h.me j
  · obtain ⟨r₀, hr₀, hkey, hcand⟩ := calls r hr
    simp only [VoteRpc.key, Prod.mk.injEq] at hkey
    rw [← hcand, ← hkey.1, ← hkey.2.2.2]
    exact h.calls r₀ hr₀
  · obtain ⟨r₀, hr₀, hkey, -⟩ := calls r hr
    simp only [VoteRpc.key, Prod.mk.injEq] at hkey
    rw [← hkey.1, ← hkey.2.1, ← hkey.2.2.1]
    by_cases hsrc : r₀.src = i
    · rw [hsrc, inst]
      have hpast := h.past r₀ hr₀
      rw [hsrc] at hpast
      omega
    · rw [others _ hsrc]
      exact h.past r₀ hr₀
  · by_cases hji : j = i
    · subst hji
      exact count hj
    · rw [others j hji] at hj
      exact h.count_of_eq hj (by rw [others j hji]) (by rw [others j hji])
        (by rw [others j hji]) (taken j)

/-- The same for a step that keeps the candidacy and its counter, or ends it. -/
theorem BallotInv.of_role {c c' : Cluster n Cmd} (h : BallotInv c) {i : Fin n}
    (others : ∀ j, j ≠ i → c'.peers j = c.peers j)
    (inst : (c'.peers i).inst = (c.peers i).inst)
    (me : (c'.peers i).rf.me = (c.peers i).rf.me)
    (term : (c.peers i).rf.currentTerm ≤ (c'.peers i).rf.currentTerm)
    (role : (c'.peers i).rf.state = .follower ∨
      ((c'.peers i).rf.state = (c.peers i).rf.state ∧
        (c'.peers i).rf.currentTerm = (c.peers i).rf.currentTerm ∧
        (c'.peers i).rf.voteGrantedCnt = (c.peers i).rf.voteGrantedCnt))
    (calls : ∀ r ∈ c'.votes, ∃ r₀ ∈ c.votes, VoteRpc.key r₀ = VoteRpc.key r ∧
      r₀.args.candidateId = r.args.candidateId)
    (keys : c'.votes.map VoteRpc.key = c.votes.map VoteRpc.key)
    (taken : ∀ j v, (∃ r ∈ c.votes, takenGrant c j v r) → ∃ r ∈ c'.votes, takenGrant c j v r) :
    BallotInv c' := by
  refine h.of_count others inst me term calls keys taken fun hc => ?_
  obtain ⟨hs, ht, hn⟩ := candidate_of_role role hc
  exact h.count_of_eq hs inst ht hn (taken i)

/-- A candidate asks every other peer for its vote in the next term. -/
theorem of_mem_callsOf {i : Fin n} {inst : ℕ} {rf : Raft n Cmd} {r : VoteRpc n}
    (hr : r ∈ callsOf i inst rf) :
    r.src = i ∧ r.dst ≠ rf.me ∧ r.inst = inst ∧ r.args.term = rf.currentTerm + 1 ∧
      r.args.candidateId = rf.me ∧ r.reply = none := by
  simp only [callsOf, ticker, startElection, List.map_map, List.mem_map, List.mem_filter,
    List.mem_finRange, true_and, Function.comp_apply] at hr
  obtain ⟨j, hj, rfl⟩ := hr
  exact ⟨rfl, of_decide_eq_true hj, rfl, rfl, rfl, rfl⟩

theorem nodup_key_callsOf (i : Fin n) (inst : ℕ) (rf : Raft n Cmd) :
    ((callsOf i inst rf).map VoteRpc.key).Nodup := by
  have hkeys : (callsOf i inst rf).map VoteRpc.key =
      ((List.finRange n).filter (· ≠ rf.me)).map fun j => (i, inst, rf.currentTerm + 1, j) := by
    simp only [callsOf, ticker, startElection, List.map_map]
    rfl
  rw [hkeys]
  apply ((List.nodup_finRange n).filter _).map
  intro j j' hjj
  exact (Prod.mk.inj (Prod.mk.inj (Prod.mk.inj hjj).2).2).2

/-- The new calls of a candidate carry its new term, so their keys are new. -/
theorem BallotInv.stand {c c' : Cluster n Cmd} (h : BallotInv c) {i : Fin n}
    (others : ∀ j, j ≠ i → c'.peers j = c.peers j)
    (inst : (c'.peers i).inst = (c.peers i).inst)
    (votes : c'.votes = c.votes ++ callsOf i (c.peers i).inst (c.peers i).rf)
    (peer : (c'.peers i).rf = (c.peers i).rf.ticker.1) : BallotInv c' := by
  have hme := h.me i
  have hterm : (c'.peers i).rf.currentTerm = (c.peers i).rf.currentTerm + 1 := by
    rw [peer]
    rfl
  have htaken : ∀ j v, (∃ r ∈ c.votes, takenGrant c j v r) →
      ∃ r ∈ c'.votes, takenGrant c j v r := by
    rintro j v ⟨r, hr, ht⟩
    exact ⟨r, by rw [votes]; exact List.mem_append_left _ hr, ht⟩
  refine ⟨fun j => ?_, fun r hr => ?_, fun r hr => ?_, ?_, fun j hj => ?_⟩
  · by_cases hji : j = i
    · subst hji
      rw [peer]
      exact hme
    · rw [others j hji]
      exact h.me j
  · rw [votes] at hr
    rcases List.mem_append.mp hr with hr | hr
    · exact h.calls r hr
    · obtain ⟨hsrc, hdst, -, -, hcand, -⟩ := of_mem_callsOf hr
      rw [hme] at hdst hcand
      rw [hsrc]
      exact ⟨hcand, hdst⟩
  · rw [votes] at hr
    rcases List.mem_append.mp hr with hr | hr
    · by_cases hsrc : r.src = i
      · have hpast := h.past r hr
        rw [hsrc] at hpast ⊢
        rw [inst, hterm]
        omega
      · rw [others _ hsrc]
        exact h.past r hr
    · obtain ⟨hsrc, -, hinst, ht, -⟩ := of_mem_callsOf hr
      rw [hsrc, inst, hterm]
      exact Or.inr ⟨hinst, ht.le⟩
  · rw [votes, List.map_append, List.nodup_append]
    refine ⟨h.keys, nodup_key_callsOf _ _ _, ?_⟩
    intro a ha b hb hab
    obtain ⟨r, hr, rfl⟩ := List.mem_map.mp ha
    obtain ⟨r', hr', rfl⟩ := List.mem_map.mp hb
    obtain ⟨hsrc, -, hinst, ht, -⟩ := of_mem_callsOf hr'
    simp only [VoteRpc.key, Prod.mk.injEq] at hab
    have hpast := h.past r hr
    rw [hab.1, hsrc] at hpast
    omega
  · by_cases hji : j = i
    · subst hji
      refine ⟨{j}, ?_, fun v hv => Or.inl (Finset.mem_singleton.mp hv)⟩
      rw [peer, Finset.card_singleton]
      rfl
    · rw [others j hji] at hj
      exact h.count_of_eq hj (by rw [others j hji]) (by rw [others j hji])
        (by rw [others j hji]) (htaken j)

/-- A call is replaced by one with the same key and arguments, which is taken and
granted if the old one was. This keeps the senders, the keys and the taken grants. -/
theorem votes_of_set {c c' : Cluster n Cmd} {k : ℕ} {r y : VoteRpc n}
    (call : c.votes[k]? = some r) (votes : c'.votes = c.votes.set k y)
    (hkey : VoteRpc.key y = VoteRpc.key r) (hargs : y.args = r.args)
    (hy : r.taken = true → r.granted → y.taken = true ∧ y.granted) :
    (∀ r' ∈ c'.votes, ∃ r₀ ∈ c.votes, VoteRpc.key r₀ = VoteRpc.key r' ∧
      r₀.args.candidateId = r'.args.candidateId) ∧
    c'.votes.map VoteRpc.key = c.votes.map VoteRpc.key ∧
    ∀ j v, (∃ r' ∈ c.votes, takenGrant c j v r') → ∃ r' ∈ c'.votes, takenGrant c j v r' := by
  rw [votes]
  refine ⟨fun r' hr' => ?_, map_set_of_eq call hkey, fun j v h => exists_mem_set call ?_ h⟩
  · exact exists_rel_of_mem_set (R := fun r₀ r => VoteRpc.key r₀ = VoteRpc.key r ∧
      r₀.args.candidateId = r.args.candidateId) (fun _ => ⟨rfl, rfl⟩) call
      ⟨hkey.symm, by rw [hargs]⟩ hr'
  · rintro ⟨ht, hg, hr⟩
    obtain ⟨ht', hg'⟩ := hy ht hg
    exact ⟨ht', hg', hkey.trans hr⟩

/-- A granting reply that a candidate takes comes from a peer it has not counted
yet, because the calls have distinct keys. -/
theorem BallotInv.counted {c c' : Cluster n Cmd} (h : BallotInv c) {k : ℕ} {r : VoteRpc n}
    {reply : RequestVoteReply} (call : c.votes[k]? = some r) (fresh : r.taken = false)
    (answer : r.reply = some reply) (hinst : r.inst = (c.peers r.src).inst)
    (inst : (c'.peers r.src).inst = (c.peers r.src).inst)
    (votes : c'.votes = c.votes.set k { r with taken := true })
    (hterm : (c.peers r.src).rf.currentTerm = r.args.term)
    (peer : Counted reply (c.peers r.src).rf (c'.peers r.src).rf) :
    ∃ Vs : Finset (Fin n), Vs.card = (c'.peers r.src).rf.voteGrantedCnt ∧
      ∀ v ∈ Vs, v = r.src ∨ ∃ r' ∈ c'.votes, takenGrant c' r.src v r' := by
  obtain ⟨Vs, hcard, hVs⟩ := h.count r.src peer.candidate
  obtain ⟨-, -, taken⟩ := votes_of_set call votes rfl rfl fun _ hg => ⟨rfl, hg⟩
  have hold : ∀ v ∈ Vs, v = r.src ∨ ∃ r' ∈ c'.votes, takenGrant c' r.src v r' := by
    intro v hv
    rcases hVs v hv with rfl | hr
    · exact Or.inl rfl
    · obtain ⟨r', hr', ht, hg, hkey⟩ := taken r.src v hr
      exact Or.inr ⟨r', hr', ht, hg, by rw [inst, peer.term, hkey]⟩
  cases hgrant : reply.voteGranted with
  | false =>
      refine ⟨Vs, ?_, hold⟩
      rw [peer.count, hcard, hgrant]
      rfl
  | true =>
      have hmem : r ∈ c.votes := List.mem_of_getElem? call
      have hnew : r.dst ∉ Vs := by
        intro hdst
        rcases hVs _ hdst with heq | ⟨r', hr', ht, -, hkey⟩
        · exact (h.calls r hmem).2 heq
        · -- the taken call has the key of `r`, so it is `r`, which is not taken
          obtain ⟨j, hj⟩ := List.getElem?_of_mem hr'
          have hkeys : VoteRpc.key r' = VoteRpc.key r := by
            rw [hkey, hterm, ← hinst]
            rfl
          have hjk : j = k := by
            have hj' : (c.votes.map VoteRpc.key)[j]? = some (VoteRpc.key r) := by
              rw [List.getElem?_map, hj, Option.map_some, hkeys]
            have hk' : (c.votes.map VoteRpc.key)[k]? = some (VoteRpc.key r) := by
              rw [List.getElem?_map, call, Option.map_some]
            obtain ⟨hjlt, -⟩ := List.getElem?_eq_some_iff.mp hj'
            exact (List.getElem?_inj hjlt h.keys).mp (hj'.trans hk'.symm)
          subst hjk
          obtain rfl : r = r' := Option.some.inj (call.symm.trans hj)
          rw [fresh] at ht
          cases ht
      refine ⟨insert r.dst Vs, ?_, fun v hv => ?_⟩
      · rw [Finset.card_insert_of_notMem hnew, peer.count, hcard, hgrant]
        rfl
      · rcases Finset.mem_insert.mp hv with rfl | hv
        · obtain ⟨hlt, -⟩ := List.getElem?_eq_some_iff.mp call
          refine Or.inr ⟨{ r with taken := true }, ?_, rfl, ⟨reply, answer, hgrant⟩, ?_⟩
          · rw [votes]
            exact List.mem_set hlt _
          · rw [inst, peer.term, hterm, ← hinst]
            rfl
        · exact hold v hv

/-- The ballots stay in order at every step. -/
theorem BallotInv.step {c c' : Cluster n Cmd} {a : Cluster.Act n Cmd} (h : BallotInv c)
    (hs : ElectionStep c a c') : BallotInv c' := by
  cases hs with
  | quiet i others inst votes peer =>
      exact h.of_role others inst peer.me peer.term peer.role
        (fun r hr => ⟨r, votes ▸ hr, rfl, rfl⟩) (by rw [votes]) (fun j v hr => votes ▸ hr)
  | stand i others inst votes peer => exact h.stand others inst votes peer
  | refuse k r reply call fresh others inst votes refused peer =>
      obtain ⟨hsrc, hkeys, htaken⟩ := votes_of_set call votes rfl rfl
        fun _ ⟨_, hr, _⟩ => by rw [fresh] at hr; cases hr
      exact h.of_role others inst peer.me peer.term peer.role hsrc hkeys htaken
  | grant k r reply call fresh others inst votes granted peer =>
      obtain ⟨hsrc, hkeys, htaken⟩ := votes_of_set call votes rfl rfl
        fun _ ⟨_, hr, _⟩ => by rw [fresh] at hr; cases hr
      exact h.of_role others inst peer.me (peer.newTerm ▸ peer.term) peer.role hsrc hkeys htaken
  | take k r reply call fresh answer hinst others inst votes peer =>
      obtain ⟨hsrc, hkeys, htaken⟩ := votes_of_set call votes rfl rfl fun _ hg => ⟨rfl, hg⟩
      rcases peer with peer | ⟨hterm, peer⟩
      · exact h.of_role others inst peer.me peer.term peer.role hsrc hkeys htaken
      · exact h.of_count others inst peer.me peer.term.ge hsrc hkeys htaken fun _ =>
          h.counted call fresh answer hinst inst votes hterm peer
  | restart i act others votes peer =>
      have hinst : (c'.peers i).inst = (c.peers i).inst + 1 := by
        rw [peer]
        rfl
      refine ⟨fun j => ?_, fun r hr => h.calls r (votes ▸ hr), fun r hr => ?_,
        by rw [votes]; exact h.keys, fun j hj => ?_⟩
      · by_cases hji : j = i
        · subst hji
          rw [peer]
          exact (restart_me (c.peers j)).trans (h.me j)
        · rw [others j hji]
          exact h.me j
      · have hpast := h.past r (votes ▸ hr)
        by_cases hr' : r.src = i
        · rw [hr'] at hpast ⊢
          rw [hinst]
          omega
        · rw [others _ hr']
          exact hpast
      · by_cases hji : j = i
        · subst hji
          rw [peer, restart_state] at hj
          cases hj
        · rw [others j hji] at hj
          exact h.count_of_eq hj (by rw [others j hji]) (by rw [others j hji])
            (by rw [others j hji]) (fun v hr => votes ▸ hr)

end Raft

end DistributedLabs
