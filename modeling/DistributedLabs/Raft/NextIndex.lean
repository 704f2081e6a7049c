import DistributedLabs.Raft.Ballots
import DistributedLabs.Raft.Calls
import DistributedLabs.Raft.Indices

/-!
# The bound on `nextIndex`

A leader overwrites `nextIndex` with numbers that other peers report, and it may
take the reports in any order. Two facts keep the numbers within its log. A report
names no index above the one that its request starts after. And the log of a leader
only grows while it leads, so what it has sent in this term lies within its log;
a peer that has lost the leadership wins it again only in a later term.
-/

namespace DistributedLabs

namespace Raft

variable {n : ℕ} {Cmd : Type*}

/-! ## What a follower reports -/

/-- The report names no index above `prev`. -/
structure AppendEntriesReply.Within (prev : ℕ) (reply : AppendEntriesReply) : Prop where
  xLen_le : reply.xTerm = -1 → reply.xIndex = -1 → reply.xLen ≤ prev
  xIndex_le : reply.xIndex ≤ prev

theorem AppendEntriesReply.Within.of_zero (prev term : ℕ) (success : Bool) :
    Within prev { term := term, success := success } where
  xLen_le _ _ := Nat.zero_le prev
  xIndex_le := Int.natCast_nonneg prev

theorem conflictSearch_le {rf : Raft n Cmd} {conflictTerm prev i : ℕ} {conflictIndex r : ℤ}
    (hi : i ≤ prev) (hle : conflictIndex ≤ prev)
    (h : rf.conflictSearch conflictTerm i conflictIndex = some r) : r ≤ prev := by
  induction i generalizing conflictIndex with
  | zero =>
      obtain rfl := Option.some.inj h
      exact hle
  | succ i ih =>
      rw [conflictSearch] at h
      split at h
      · obtain ⟨entry, -, h⟩ := Option.bind_eq_some_iff.mp h
        split at h
        · obtain rfl := Option.some.inj h
          exact hle
        · exact ih (Nat.le_of_succ_le hi) (by omega) h
      · obtain rfl := Option.some.inj h
        exact hle

theorem appendEntries_within {rf rf' : Raft n Cmd} {args : AppendEntriesArgs n Cmd}
    {reply : AppendEntriesReply} (h : rf.appendEntries args = some (rf', reply)) :
    reply.Within args.prevLogIndex := by
  rcases appendEntries_cases h with ⟨-, -, rfl⟩ | ⟨-, rf₁, hrep, -⟩
  · exact .of_zero _ _ _
  cases hsuccess : reply.success with
  | true =>
      rcases replicate_cases hrep with ⟨-, -, hfail⟩ | ⟨old, -, -, -, -, -, rfl⟩
      · exact absurd (hfail.symm.trans hsuccess) Bool.false_ne_true
      · exact .of_zero _ _ _
  | false =>
      rcases replicate_failure hrep hsuccess with
        ⟨-, rfl⟩ | ⟨-, hlen, rfl⟩ | ⟨-, -, old, conflictIndex, -, -, hsearch, rfl⟩
      · exact .of_zero _ _ _
      · refine ⟨fun _ _ => ?_, ?_⟩
        · change realLogLen _ ≤ _
          rw [realLogLen_eq]
          exact hlen
        · change (-1 : ℤ) ≤ _
          omega
      · refine ⟨fun hterm _ => ?_, conflictSearch_le le_rfl (by omega) hsearch⟩
        change (old.term : ℤ) = -1 at hterm
        omega

/-! ## Requests and replies of a leader -/

theorem heartbeatTo_isSome {rf : Raft n Cmd} {i : Fin n} (h : rf.nextIndex i ≤ rf.realLogLen) :
    (rf.heartbeatTo i).isSome := by
  rw [realLogLen_eq] at h
  unfold heartbeatTo
  split
  · rfl
  · rename_i hnext
    have hprev : rf.lastIncludedIndex ≤ (rf.nextIndex i).toNat - 1 := by omega
    have hlast : (rf.nextIndex i).toNat - 1 ≤ rf.lastLogIndex := by omega
    rw [Option.isSome_map]
    split
    · rw [Option.isSome_map]
      exact rf.entryAt?_isSome hprev hlast
    · rename_i hrange
      rw [lastLogIndex_eq] at hlast
      rw [Logs.length_eq] at hrange
      rw [if_pos (by omega)]
      rfl

theorem broadcastHeartbeat_isSome {rf : Raft n Cmd} (h : ∀ i, rf.nextIndex i ≤ rf.realLogLen) :
    rf.broadcastHeartbeat.isSome :=
  mapM_isSome fun i _ => heartbeatTo_isSome (h i)

/-- A fresh leader points every peer at the end of its log. -/
theorem initializeLeaderEasilyLostState_nextIndex (rf : Raft n Cmd) (i : Fin n) :
    rf.initializeLeaderEasilyLostState.nextIndex i ≤
      rf.initializeLeaderEasilyLostState.realLogLen := by
  change Function.update (fun _ => (rf.realLogLen : ℤ)) rf.me (rf.lastLogIndex + 1) i ≤
    (rf.realLogLen : ℤ)
  by_cases hi : i = rf.me
  · rw [hi, Function.update_self, realLogLen_eq]
    exact le_rfl
  · rw [Function.update_of_ne hi]

theorem handleVoteReply_isSome (rf : Raft n Cmd) (args : RequestVoteArgs n)
    (reply : RequestVoteReply) : (rf.handleVoteReply args reply).isSome := by
  unfold handleVoteReply
  split
  · rfl
  split
  · rfl
  split
  · dsimp only
    split
    · rw [Option.isSome_map]
      exact broadcastHeartbeat_isSome (initializeLeaderEasilyLostState_nextIndex _)
    · rfl
  · rfl

theorem update_nextIndex_le {nextIndex : Fin n → ℤ} {len : ℕ} (h : ∀ i, nextIndex i ≤ len)
    {peer : Fin n} {next : ℤ} (hnext : next ≤ len) (i : Fin n) :
    Function.update nextIndex peer next i ≤ len := by
  by_cases hi : i = peer
  · rwa [hi, Function.update_self]
  · rw [Function.update_of_ne hi]
    exact h i

theorem findNextIndex_nextIndex {rf : Raft n Cmd} (h : ∀ i, rf.nextIndex i ≤ rf.realLogLen)
    {prev : ℕ} (hprev : prev ≤ rf.lastLogIndex) {reply : AppendEntriesReply}
    (hreply : reply.Within prev) (peer i : Fin n) :
    (rf.findNextIndex peer reply).nextIndex i ≤ rf.realLogLen := by
  obtain ⟨next, he, hnext⟩ := findNextIndex_cases rf peer reply
  rw [he]
  refine update_nextIndex_le h ?_ i
  rw [realLogLen_eq]
  rcases hnext with ⟨hterm, hindex, rfl⟩ | ⟨-, k, slot, hk, -, -, rfl⟩ | ⟨-, -, rfl⟩
  · have hle := hreply.xLen_le hterm hindex
    omega
  · have hlt := (List.getElem?_eq_some_iff.mp hk).1
    rw [Logs.slots, List.length_cons] at hlt
    rw [realIndex, lastLogIndex_eq]
    omega
  · have hle := hreply.xIndex_le
    omega

/-! ## Leadership -/

/-- What a step of a peer does to its leadership: it does not lead afterwards, has
just won, or goes on leading with a log that has not become shorter. -/
inductive Leads (rf rf' : Raft n Cmd) : Prop where
  | idle (state : rf'.state ≠ .leader) (term : rf.currentTerm ≤ rf'.currentTerm)
      (stood : rf'.state = .candidate → rf'.currentTerm = rf.currentTerm →
        rf.state = .candidate)
  | won (state : rf.state = .candidate) (term : rf'.currentTerm = rf.currentTerm)
      (next : ∀ i, rf'.nextIndex i ≤ rf'.realLogLen)
  | leading (state : rf.state = .leader) (state' : rf'.state = .leader)
      (term : rf'.currentTerm = rf.currentTerm) (log : rf.lastLogIndex ≤ rf'.lastLogIndex)
      (next : (∀ i, rf.nextIndex i ≤ rf.realLogLen) → ∀ i, rf'.nextIndex i ≤ rf'.realLogLen)

/-- A step that keeps the role or makes the peer a follower. -/
theorem Leads.of_role {rf rf' : Raft n Cmd} (hterm : rf.currentTerm ≤ rf'.currentTerm)
    (hrole : rf'.state = .follower ∨
      (rf'.state = rf.state ∧ rf'.currentTerm = rf.currentTerm))
    (hlead : rf.state = .leader → rf'.state = .leader → rf.lastLogIndex ≤ rf'.lastLogIndex ∧
      ((∀ i, rf.nextIndex i ≤ rf.realLogLen) → ∀ i, rf'.nextIndex i ≤ rf'.realLogLen)) :
    Leads rf rf' := by
  rcases hrole with hrole | ⟨hstate, heq⟩
  · refine .idle ?_ hterm ?_
    · rw [hrole]
      exact State.noConfusion
    · intro hcand
      rw [hrole] at hcand
      cases hcand
  · by_cases hleader : rf.state = .leader
    · obtain ⟨hlog, hnext⟩ := hlead hleader (hstate.trans hleader)
      exact .leading hleader (hstate.trans hleader) heq hlog hnext
    · exact .idle (hstate ▸ hleader) hterm fun hcand _ => hstate ▸ hcand

theorem Leads.of_quiet {rf rf' : Raft n Cmd} (h : Quiet rf rf')
    (hlead : rf.state = .leader → rf'.state = .leader → rf.lastLogIndex ≤ rf'.lastLogIndex ∧
      ((∀ i, rf.nextIndex i ≤ rf.realLogLen) → ∀ i, rf'.nextIndex i ≤ rf'.realLogLen)) :
    Leads rf rf' :=
  .of_role h.term (h.role.imp_right fun hrole => ⟨hrole.1, hrole.2.1⟩) hlead

theorem Leads.refl (rf : Raft n Cmd) : Leads rf rf :=
  .of_role le_rfl (Or.inr ⟨rfl, rfl⟩) fun _ _ => ⟨le_rfl, id⟩

theorem leads_ticker (rf : Raft n Cmd) : Leads rf rf.ticker.1 := by
  refine .idle ?_ (Nat.le_succ _) ?_
  · exact fun h => State.noConfusion h
  · intro _ hterm
    change rf.currentTerm + 1 = rf.currentTerm at hterm
    omega

theorem leads_start (rf : Raft n Cmd) (command : Option Cmd) : Leads rf (rf.start command).1 := by
  refine .of_quiet (quiet_start rf command) fun _ _ => ?_
  rcases start_cases rf command with ⟨-, he⟩ | ⟨-, rf₁, rfl, he⟩
  · rw [he]
    exact ⟨le_rfl, id⟩
  · have hlen : (rf.start command).1.realLogLen = rf.realLogLen + 1 := by
      rw [he]
      simp [realLogLen, persist, Logs.push, Nat.add_assoc]
    have hnext : (rf.start command).1.nextIndex =
        Function.update rf.nextIndex rf.me (rf.realLogLen + 1 : ℕ) := by
      rw [he]
    have hlast := hlen
    rw [realLogLen_eq, realLogLen_eq] at hlast
    rw [hlen, hnext]
    refine ⟨by omega, fun h => update_nextIndex_le (fun i => (h i).trans ?_) le_rfl⟩
    exact Int.ofNat_le.mpr (Nat.le_succ _)

theorem snapshotUpTo_realLogLen {rf rf' : Raft n Cmd} {index : ℕ} {data : Bytes}
    (h : rf.snapshotUpTo index data = some rf') : rf'.realLogLen = rf.realLogLen := by
  rcases snapshotUpTo_cases h with rfl | ⟨-, hinc, entry, hentry, rfl⟩
  · rfl
  · have hlt := (List.getElem?_eq_some_iff.mp hentry).1
    rw [Logs.slots, List.length_cons, logIndex] at hlt
    simp only [realLogLen, persist, Logs.length_eq, Logs.slots, List.drop_succ_cons,
      List.length_drop, logIndex]
    omega

theorem leads_snapshotUpTo {rf rf' : Raft n Cmd} {index : ℕ} {data : Bytes}
    (h : rf.snapshotUpTo index data = some rf') : Leads rf rf' := by
  have hlen := snapshotUpTo_realLogLen h
  have hlast := hlen
  rw [realLogLen_eq, realLogLen_eq] at hlast
  refine .of_quiet (quiet_snapshotUpTo h) fun _ _ => ⟨by omega, fun hnext => ?_⟩
  rw [hlen]
  rcases snapshotUpTo_cases h with rfl | ⟨-, -, entry, -, rfl⟩
  · exact hnext
  · exact hnext

theorem leads_requestVote (rf : Raft n Cmd) (args : RequestVoteArgs n) :
    Leads rf (rf.requestVote args).1 := by
  have hlead : rf.lastLogIndex ≤ (rf.requestVote args).1.lastLogIndex ∧
      ((∀ i, rf.nextIndex i ≤ rf.realLogLen) →
        ∀ i, (rf.requestVote args).1.nextIndex i ≤ (rf.requestVote args).1.realLogLen) := by
    obtain ⟨_, _, _, _, he⟩ := requestVote_frame rf args
    rw [he]
    exact ⟨le_rfl, id⟩
  rcases requestVote_quiet_or_grants rf args with ⟨hq, -⟩ | ⟨hg, -⟩
  · exact .of_quiet hq fun _ _ => hlead
  · exact .of_role (hg.term.trans_eq hg.newTerm.symm)
      (hg.role.imp_right fun hrole => ⟨hrole.1, hrole.2.1⟩) fun _ _ => hlead

theorem leads_appendEntries {rf rf' : Raft n Cmd} {args : AppendEntriesArgs n Cmd}
    {reply : AppendEntriesReply} (h : rf.appendEntries args = some (rf', reply)) :
    Leads rf rf' := by
  rcases appendEntries_cases h with ⟨-, rfl, -⟩ | ⟨-, rf₁, hrep, rfl⟩
  · exact .refl rf'
  · refine .of_quiet (quiet_appendEntries h) fun _ hleader => ?_
    obtain ⟨logs, commitIndex, rfl⟩ := replicate_frame hrep
    change (rf.toFollower.adoptTerm args.term).state = .leader at hleader
    rw [toFollower_adoptTerm] at hleader
    cases hleader

theorem leads_installSnapshot (rf : Raft n Cmd) (args : InstallSnapshotArgs n) :
    Leads rf (rf.installSnapshot args).1 := by
  refine .of_quiet (quiet_installSnapshot rf args) ?_
  rcases installSnapshot_cases rf args with ⟨-, he⟩ | ⟨-, -, he⟩ | ⟨-, -, -, he⟩
  · rw [he]
    exact fun _ _ => ⟨le_rfl, id⟩
  · rw [he]
    intro _ hleader
    cases hleader
  · rw [he]
    intro _ hleader
    cases hleader

theorem leads_handleVoteReply {rf rf' : Raft n Cmd} {args : RequestVoteArgs n}
    {reply : RequestVoteReply} {out : List (Outgoing n Cmd)}
    (h : rf.handleVoteReply args reply = some (rf', out)) : Leads rf rf' := by
  rcases handleVoteReply_cases h with
    ⟨rfl, -⟩ | ⟨hlt, -, rfl⟩ | ⟨-, -, -, rfl⟩ | ⟨-, hcand, -, rfl, -⟩
  · exact .refl rf'
  · refine .of_role hlt.le (Or.inl rfl) ?_
    intro _ hleader
    cases hleader
  · rcases countVote_cases rf reply with ⟨-, he⟩ | ⟨-, he⟩
    · rw [he]
      exact .of_role le_rfl (Or.inr ⟨rfl, rfl⟩) fun _ _ => ⟨le_rfl, id⟩
    · rw [he]
      exact .refl rf
  · refine .won hcand ?_ (initializeLeaderEasilyLostState_nextIndex _)
    rcases countVote_cases rf reply with ⟨-, he⟩ | ⟨-, he⟩
    · rw [he]
      rfl
    · rw [he]
      rfl

theorem leads_handleSendAppendEntries {rf rf' : Raft n Cmd} {peer : Fin n}
    {args : AppendEntriesArgs n Cmd} {reply : AppendEntriesReply}
    (hsent : rf.state = .leader → args.term = rf.currentTerm →
      args.prevLogIndex + args.entries.length ≤ rf.lastLogIndex)
    (hreply : reply.Within args.prevLogIndex)
    (h : rf.handleSendAppendEntries peer args reply = some rf') : Leads rf rf' := by
  refine .of_quiet (quiet_handleSendAppendEntries h) ?_
  rcases handleSendAppendEntries_cases h with
    rfl | ⟨-, -, -, rfl⟩ | ⟨hterm, hleader, -, hcommit⟩ | ⟨hterm, hleader, -, rfl⟩
  · exact fun _ _ => ⟨le_rfl, id⟩
  · intro _ hleader
    cases hleader
  · have hlast := hsent hleader hterm.symm
    obtain ⟨N, rfl⟩ := checkAndCommitLogs_eq hcommit
    refine fun _ _ => ⟨le_rfl, fun hnext => ?_⟩
    refine update_nextIndex_le hnext (max_le (hnext peer) ?_)
    rw [realLogLen_eq]
    exact Int.ofNat_le.mpr (Nat.succ_le_succ hlast)
  · have hlast := hsent hleader hterm.symm
    exact fun _ _ => ⟨le_rfl, fun hnext =>
      findNextIndex_nextIndex hnext (Nat.le_of_add_right_le hlast) hreply peer⟩

theorem leads_handleSendInstallSnapshot {rf : Raft n Cmd} {args : InstallSnapshotArgs n}
    (hsent : rf.state = .leader → args.term = rf.currentTerm →
      args.lastIncludedIndex ≤ rf.lastLogIndex) (peer : Fin n) (reply : InstallSnapshotReply) :
    Leads rf (rf.handleSendInstallSnapshot peer args reply) := by
  refine .of_quiet (quiet_handleSendInstallSnapshot rf peer args reply) ?_
  rcases handleSendInstallSnapshot_cases rf peer args reply with
    he | ⟨-, -, -, he⟩ | ⟨hterm, hleader, -, he⟩
  · rw [he]
    exact fun _ _ => ⟨le_rfl, id⟩
  · rw [he]
    intro _ hleader
    cases hleader
  · rw [he]
    refine fun _ _ => ⟨le_rfl, fun hnext => ?_⟩
    refine update_nextIndex_le hnext (max_le (hnext peer) ?_)
    rw [realLogLen_eq]
    exact Int.ofNat_le.mpr (Nat.succ_le_succ (hsent hleader hterm.symm))

namespace Peer

/-- A reply that reaches a peer is to a request within its log, if the peer leads
in the term of the request, and reports no index above the request. -/
def ReplyWithin (p : Peer n Cmd) : Act n Cmd → Prop
  | .appendReply _ args reply =>
    (p.rf.state = .leader → args.term = p.rf.currentTerm →
      args.prevLogIndex + args.entries.length ≤ p.rf.lastLogIndex) ∧
    reply.Within args.prevLogIndex
  | .snapshotReply _ args _ =>
    p.rf.state = .leader → args.term = p.rf.currentTerm →
      args.lastIncludedIndex ≤ p.rf.lastLogIndex
  | _ => True

theorem step_leads {p p' : Peer n Cmd} {a : Act n Cmd} (hreply : p.ReplyWithin a)
    (h : p.step a = some p') : p'.inst = p.inst ∧ Leads p.rf p'.rf := by
  cases a with
  | ticker =>
      obtain rfl := Option.some.inj h
      exact ⟨rfl, leads_ticker p.rf⟩
  | heartbeat =>
      obtain ⟨out, -, rfl⟩ := Option.map_eq_some_iff.mp h
      exact ⟨rfl, .refl p.rf⟩
  | start command =>
      obtain rfl := Option.some.inj h
      exact ⟨rfl, leads_start p.rf command⟩
  | snapshot index data =>
      obtain ⟨rf, hrf, rfl⟩ := Option.map_eq_some_iff.mp h
      exact ⟨rfl, leads_snapshotUpTo hrf⟩
  | requestVote args =>
      obtain rfl := Option.some.inj h
      exact ⟨rfl, leads_requestVote p.rf args⟩
  | appendEntries args =>
      obtain ⟨⟨rf, reply⟩, hr, rfl⟩ := Option.map_eq_some_iff.mp h
      exact ⟨rfl, leads_appendEntries hr⟩
  | installSnapshot args =>
      obtain rfl := Option.some.inj h
      exact ⟨rfl, leads_installSnapshot p.rf args⟩
  | voteReply args reply =>
      obtain ⟨⟨rf, out⟩, hr, rfl⟩ := Option.map_eq_some_iff.mp h
      exact ⟨rfl, leads_handleVoteReply hr⟩
  | appendReply peer args reply =>
      obtain ⟨rf, hrf, rfl⟩ := Option.map_eq_some_iff.mp h
      exact ⟨rfl, leads_handleSendAppendEntries hreply.1 hreply.2 hrf⟩
  | snapshotReply peer args reply =>
      obtain rfl := Option.some.inj h
      exact ⟨rfl, leads_handleSendInstallSnapshot hreply peer reply⟩
  | applier =>
      obtain ⟨hinst, -, flag, lastApplied, he⟩ := applierStep_frame h
      rw [he]
      exact ⟨hinst, .of_role le_rfl (Or.inr ⟨rfl, rfl⟩) fun _ _ => ⟨le_rfl, id⟩⟩
  | poll k =>
      obtain ⟨sender, -, -, rfl⟩ := pollStep_eq_some.mp h
      exact ⟨rfl, .refl p.rf⟩
  | send k =>
      obtain ⟨sender, -, -, rfl⟩ := sendStep_eq_some.mp h
      exact ⟨rfl, .refl p.rf⟩

/-- The instance `inst` of the peer has sent a request in the term `term` with
nothing above the index `last`. While the peer leads in that term, the request is
within its log; it does not stand in that term again. -/
structure Sent (p : Peer n Cmd) (inst term last : ℕ) : Prop where
  inst_le : inst ≤ p.inst
  term_le : inst = p.inst → term ≤ p.rf.currentTerm
  elected : inst = p.inst → term = p.rf.currentTerm → p.rf.state ≠ .candidate
  last_le : inst = p.inst → term = p.rf.currentTerm → p.rf.state = .leader →
    last ≤ p.rf.lastLogIndex

theorem Sent.step {p p' : Peer n Cmd} {inst term last : ℕ} (h : Sent p inst term last)
    (hinst : p'.inst = p.inst) (hleads : Leads p.rf p'.rf) : Sent p' inst term last := by
  obtain ⟨hle, hterm_le, helected, hlast⟩ := h
  rw [← hinst] at hle hterm_le helected hlast
  cases hleads with
  | idle hstate hterm hstood =>
      refine ⟨hle, fun hi => (hterm_le hi).trans hterm, ?_, ?_⟩
      · intro hi ht hcand
        have := hterm_le hi
        exact helected hi (by omega) (hstood hcand (by omega))
      · exact fun _ _ hleader => absurd hleader hstate
  | won hcand hterm hnext =>
      rw [← hterm] at hterm_le helected
      exact ⟨hle, hterm_le, fun hi ht => absurd hcand (helected hi ht),
        fun hi ht => absurd hcand (helected hi ht)⟩
  | leading hleader hleader' hterm hlog hnext =>
      rw [← hterm] at hterm_le hlast
      refine ⟨hle, hterm_le, fun _ _ => ?_, fun hi ht _ => (hlast hi ht hleader).trans hlog⟩
      rw [hleader']
      exact State.noConfusion

/-- The requests of earlier instances bind nobody. -/
theorem Sent.restart {p : Peer n Cmd} {inst term last : ℕ} (h : Sent p inst term last) :
    Sent p.restart inst term last := by
  have hlt : inst < p.restart.inst := Nat.lt_succ_of_le h.inst_le
  exact ⟨hlt.le, fun hi => absurd hi hlt.ne, fun hi => absurd hi hlt.ne,
    fun hi => absurd hi hlt.ne⟩

theorem Sent.of_leader {p : Peer n Cmd} (hleader : p.rf.state = .leader) {last : ℕ}
    (hlast : last ≤ p.rf.lastLogIndex) : Sent p p.inst p.rf.currentTerm last := by
  refine ⟨le_rfl, fun _ => le_rfl, fun _ _ => ?_, fun _ _ _ => hlast⟩
  rw [hleader]
  exact State.noConfusion

end Peer

/-! ## The cluster -/

namespace Cluster

/-- The invariant of `nextIndex`, with what it needs to know of the calls on the
network. -/
structure NextInv (c : Cluster n Cmd) : Prop where
  next : ∀ i, (c.peers i).rf.state = .leader →
    ∀ q, (c.peers i).rf.nextIndex q ≤ (c.peers i).rf.realLogLen
  appends : ∀ r ∈ c.appends, (c.peers r.src).Sent r.inst r.args.term
    (r.args.prevLogIndex + r.args.entries.length)
  reports : ∀ r ∈ c.appends, ∀ reply, r.reply = some reply → reply.Within r.args.prevLogIndex
  installs : ∀ r ∈ c.installs, (c.peers r.src).Sent r.inst r.args.term r.args.lastIncludedIndex

theorem nextInv_init (n : ℕ) (Cmd : Type*) : NextInv (init n Cmd) where
  next := by
    intro i hleader
    cases hleader
  appends := by rintro r (_ | _)
  reports := by rintro r (_ | _)
  installs := by rintro r (_ | _)

/-- A peer is left alone, is restarted or makes a step in which a reply is within
its log. -/
theorem NextInv.peer {c c' : Cluster n Cmd} {a : Act n Cmd} (h : NextInv c)
    (hs : c.step a = some c') (i : Fin n) :
    c'.peers i = c.peers i ∨ c'.peers i = (c.peers i).restart ∨
      ∃ b, (c.peers i).ReplyWithin b ∧ (c.peers i).step b = some (c'.peers i) := by
  rcases step_delivers hs i with he | ⟨-, he⟩ | ⟨b, hdelivers, hb⟩
  · exact Or.inl he
  · exact Or.inr (Or.inl he)
  refine Or.inr (Or.inr ⟨b, ?_, hb⟩)
  cases b with
  | appendReply peer args reply =>
      obtain ⟨k, r, -, hk, hinst, rfl, -, rfl⟩ := hdelivers
      obtain ⟨hk, -, hreply⟩ := Rpc.reply?_eq_some.mp hk
      have hr := List.mem_of_getElem? hk
      exact ⟨fun hleader hterm => (h.appends r hr).last_le hinst hterm hleader,
        h.reports r hr reply hreply⟩
  | snapshotReply peer args reply =>
      obtain ⟨k, r, -, hk, hinst, rfl, -, rfl⟩ := hdelivers
      obtain ⟨hk, -, -⟩ := Rpc.reply?_eq_some.mp hk
      exact fun hleader hterm =>
        (h.installs r (List.mem_of_getElem? hk)).last_le hinst hterm hleader
  | ticker | heartbeat | start _ | snapshot _ _ | requestVote _ | appendEntries _
  | installSnapshot _ | voteReply _ _ | applier | poll _ | send _ => trivial

theorem NextInv.sent {c c' : Cluster n Cmd} {a : Act n Cmd} (h : NextInv c)
    (hs : c.step a = some c') {i : Fin n} {inst term last : ℕ}
    (hsent : (c.peers i).Sent inst term last) : (c'.peers i).Sent inst term last := by
  rcases h.peer hs i with he | he | ⟨b, hreply, hb⟩
  · rwa [he]
  · rw [he]
    exact hsent.restart
  · obtain ⟨hinst, hleads⟩ := Peer.step_leads hreply hb
    exact hsent.step hinst hleads

theorem NextInv.step {c c' : Cluster n Cmd} {a : Act n Cmd} (h : NextInv c)
    (hs : c.step a = some c') : NextInv c' where
  next := by
    intro i hleader
    rcases h.peer hs i with he | he | ⟨b, hreply, hb⟩
    · rw [he] at hleader ⊢
      exact h.next i hleader
    · rw [he, restart_state] at hleader
      cases hleader
    · obtain ⟨-, hleads⟩ := Peer.step_leads hreply hb
      cases hleads with
      | idle hstate hterm hstood => exact absurd hleader hstate
      | won hcand hterm hnext => exact hnext
      | leading hleader hleader' hterm hlog hnext => exact hnext (h.next i hleader)
  appends := by
    intro r' hr'
    rcases step_appends hs hr' with ⟨r, hr, hcont⟩ | ⟨-, hfresh⟩
    · rw [hcont.src, hcont.inst, hcont.args]
      exact h.sent hs (h.appends r hr)
    · rcases heartbeatTo_cases hfresh.sent with ⟨-, he⟩ | ⟨prev, old, -, hinc, hlast, -, he⟩
      · cases he
      · obtain ⟨-, hargs⟩ := Outgoing.appendEntries.inj he
        rw [hfresh.inst, hargs]
        refine .of_leader hfresh.leader ?_
        dsimp only
        rw [lastLogIndex_eq] at hlast ⊢
        rw [List.length_drop]
        omega
  reports := by
    intro r' hr' reply hreply
    rcases step_appends hs hr' with ⟨r, hr, hcont⟩ | ⟨hnone, -⟩
    · rw [hcont.args]
      rcases hcont.reply with hsame | ⟨-, reply', hreply', rf, hhandled⟩
      · exact h.reports r hr reply (hsame ▸ hreply)
      · obtain rfl := Option.some.inj (hreply.symm.trans hreply')
        exact appendEntries_within hhandled
    · rw [hnone] at hreply
      cases hreply
  installs := by
    intro r' hr'
    rcases step_installs hs hr' with ⟨r, hr, hcont⟩ | ⟨-, hfresh⟩
    · rw [hcont.src, hcont.inst, hcont.args]
      exact h.sent hs (h.installs r hr)
    · rcases heartbeatTo_cases hfresh.sent with ⟨-, he⟩ | ⟨prev, old, -, -, -, -, he⟩
      · obtain ⟨-, hargs⟩ := Outgoing.installSnapshot.inj he
        rw [hfresh.inst, hargs]
        refine .of_leader hfresh.leader ?_
        rw [lastLogIndex_eq]
        exact Nat.le_add_right _ _
      · cases he

/-- In every run of a cluster, restarts included, a leader never points a peer beyond
the end of its log, so no broadcast of it panics. -/
theorem broadcastHeartbeat_never_panics {acts : List (Act n Cmd)} {c : Cluster n Cmd}
    (h : exec step (init n Cmd) acts = some c) (i : Fin n) :
    ((c.peers i).rf.state = .leader →
      (∀ p, (c.peers i).rf.nextIndex p ≤ (c.peers i).rf.realLogLen ∧
        ((c.peers i).rf.lastIncludedIndex < (c.peers i).rf.nextIndex p →
          (c.peers i).rf.logIndex ((c.peers i).rf.nextIndex p).toNat ≤
            (c.peers i).rf.logs.length)) ∧
      (c.peers i).rf.broadcastHeartbeat.isSome) ∧
    ∀ args reply, ((c.peers i).rf.handleVoteReply args reply).isSome := by
  have hinv : NextInv c :=
    exec_preserves (fun _ _ _ hc hs => NextInv.step hc hs) (nextInv_init n Cmd) h
  refine ⟨fun hleader => ⟨fun p => ⟨hinv.next i hleader p, fun _ => ?_⟩, ?_⟩,
    handleVoteReply_isSome _⟩
  · have hle := hinv.next i hleader p
    rw [realLogLen] at hle
    rw [logIndex]
    omega
  · exact broadcastHeartbeat_isSome (hinv.next i hleader)

/-- Peer 0 is elected and logs a command, and the replies of peer 1 to its first two
requests are taken in the reverse order. -/
def reversedReplies : List (Act 3 ℕ) :=
  [.ticker 0, .requestVote 0, .voteReply 0, .start 0 (some 7), .heartbeat 0,
    .appendEntries 0, .appendEntries 2, .appendReply 2, .appendReply 0]

theorem broadcastHeartbeat_never_panics_reversedReplies :
    ∃ c, exec step (init 3 ℕ) reversedReplies = some c ∧
      ((c.peers 0).rf.state, (c.peers 0).rf.nextIndex 1) = (.leader, 2) ∧
      (∀ p, (c.peers 0).rf.nextIndex p ≤ (c.peers 0).rf.realLogLen ∧
        ((c.peers 0).rf.lastIncludedIndex < (c.peers 0).rf.nextIndex p →
          (c.peers 0).rf.logIndex ((c.peers 0).rf.nextIndex p).toNat ≤
            (c.peers 0).rf.logs.length)) ∧
      (c.peers 0).rf.broadcastHeartbeat.isSome :=
  ⟨_, rfl, by decide, (broadcastHeartbeat_never_panics
    (show exec step (init 3 ℕ) reversedReplies = some _ from rfl) 0).1 (by decide)⟩

end Cluster

end Raft

end DistributedLabs
