import DistributedLabs.Raft.CatchUp

/-!
# Fast back-up makes progress

A follower that does not take the entries above `PrevLogIndex` reports what it has
there, and `findNextIndex` moves `nextIndex` by that report. A leader that probes
above its own snapshot point, at an index that the follower has not compacted, goes
back by at least one entry and stays at index 1 or above. What the search of
`findNextIndex` finds lies below the probe because a term has one leader and starts
at one index in all logs.

Where a follower has compacted `PrevLogIndex` this is different: it reports nothing,
and `nextIndex` becomes 0.
-/

namespace DistributedLabs

namespace Raft

open Consensus

variable {n : ℕ} {Cmd : Type*} {rf peer : Raft n Cmd} {l m : List (LogEntry Cmd)}

/-- A reply of the term of the request is not from a later term. -/
theorem currentTerm_le_of_reply {args : AppendEntriesArgs n Cmd} {reply : AppendEntriesReply}
    {peer' : Raft n Cmd} (h : peer.appendEntries args = some (peer', reply))
    (hreply : reply.term = args.term) : peer.currentTerm ≤ args.term := by
  rcases appendEntries_cases h with ⟨-, -, rfl⟩ | ⟨hle, -⟩
  · exact hreply.le
  · exact hle

/-- A follower with the log of the leader takes the entries above any index that it
has not compacted. -/
theorem Keeps.success_of_same (hpeer : peer.Keeps l)
    (hindices : peer.lastIncludedIndex ≤ peer.commitIndex) {args : AppendEntriesArgs n Cmd}
    (hterm : peer.currentTerm ≤ args.term) (hcut : peer.lastIncludedIndex ≤ args.prevLogIndex)
    (hlen : args.prevLogIndex ≤ l.length)
    (hprevTerm : args.prevLogTerm = termAt LogEntry.term l args.prevLogIndex) :
    ∃ peer' reply, peer.appendEntries args = some (peer', reply) ∧ reply.success = true := by
  have hlast := hpeer.lastLogIndex
  obtain ⟨peer', reply, hanswer, -, ⟨hsuccess, -⟩ |
    ⟨-, -, -, -, -, ⟨hlt, -⟩ | ⟨hlt, -⟩ | ⟨-, -, old, hold, hne, -⟩⟩⟩ :=
    appendEntries_answer hterm hindices
  · exact ⟨peer', reply, hanswer, hsuccess⟩
  · omega
  · omega
  · exact absurd ((hpeer.entryAt?_term hcut hold).trans hprevTerm.symm) hne

/-- A failure of the current term sends a leader that probes above both snapshot
points back. -/
theorem findNextIndex_back {p : Fin n} {w : Pair (LogEntry.term : LogEntry Cmd → ℕ)}
    {s : Link n Cmd} {args : AppendEntriesArgs n Cmd} (h : s.Shows p w (args.prevLogIndex + 1))
    (hargs : args.term = s.leader.currentTerm) (hlead : w.leadCut ≤ args.prevLogIndex)
    (hcut : w.cut ≤ args.prevLogIndex)
    (hprevTerm : args.prevLogTerm = termAt LogEntry.term w.lead args.prevLogIndex)
    {peer' : Raft n Cmd} {reply : AppendEntriesReply}
    (hanswer : s.follower.appendEntries args = some (peer', reply))
    (hfail : reply.success = false) :
    ∃ next' : ℕ, (s.leader.findNextIndex p reply).nextIndex p = next' ∧ 1 ≤ next' ∧
      next' < args.prevLogIndex + 1 := by
  obtain ⟨_, _, hanswer', -, hcases⟩ := h.answer hargs hlead hprevTerm
  obtain ⟨rfl, rfl⟩ := Prod.mk.inj (Option.some.inj (hanswer.symm.trans hanswer'))
  rcases hcases with ⟨hsuccess, -⟩ | ⟨-, next', hmoves, hshows⟩
  · exact absurd (hfail.symm.trans hsuccess) Bool.false_ne_true
  · exact ⟨next', hshows.probes.next_eq,
      hmoves.back (Nat.lt_succ_of_le hlead) (Nat.lt_succ_of_le hcut)⟩

/-- Let the logs behind a leader and a follower be those of a cluster with one leader
in each term, and agree up to the `commitIndex` of the follower. If the leader probes
above its snapshot point and at an index that the follower has not compacted, and the
follower fails in the term of the leader, then `findNextIndex` lowers `nextIndex`,
and not below 1. -/
theorem findNextIndex_progress {p : Fin n} {N : ℕ} (hleader : rf.state = .leader)
    (hrf : rf.Keeps l) (hpeer : peer.Keeps m) (hrfInc : rf.lastIncludedIndex ≤ rf.commitIndex)
    (hpeerInc : peer.lastIncludedIndex ≤ peer.commitIndex)
    (hrelated : Related LogEntry.term l m)
    (hagree : l.take peer.commitIndex = m.take peer.commitIndex)
    (hN : rf.nextIndex p = N) (hlt : rf.lastIncludedIndex < N) (hle : N ≤ rf.realLogLen)
    (hcut : peer.lastIncludedIndex ≤ N - 1) :
    ∃ args peer' reply, rf.heartbeatTo p = some (.appendEntries p args) ∧
      args.prevLogIndex = N - 1 ∧ peer.appendEntries args = some (peer', reply) ∧
      (reply.success = false → reply.term = rf.currentTerm →
        ∃ N' : ℕ, (rf.findNextIndex p reply).nextIndex p = N' ∧ 1 ≤ N' ∧ N' < N) := by
  have hlen : N ≤ l.length + 1 := by
    rwa [realLogLen_eq, hrf.lastLogIndex] at hle
  have hprobes : rf.Probes p l N := ⟨hleader, hrf, hrfInc, hN, hlen⟩
  obtain ⟨hsnapshot, -⟩ | ⟨args, hsend, hargs, rfl, hprev, hprevTerm, -⟩ := hprobes.heartbeatTo
  · omega
  obtain ⟨⟨peer', reply⟩, hanswer⟩ :=
    Option.isSome_iff_exists.mp (appendEntries_isSome hpeerInc args)
  refine ⟨args, peer', reply, hsend, rfl, hanswer, fun hfail hreply => ?_⟩
  have hterm := currentTerm_le_of_reply hanswer (hreply.trans hargs.symm)
  rcases le_or_eq_of_take_eq_take hagree with ⟨hcommit, hcommit'⟩ | rfl
  · have hpos : 1 ≤ rf.nextIndex p := by omega
    have hle' : rf.nextIndex p ≤ rf.realLogLen := by omega
    have hsetting : Link.Setting p l m { leader := rf, follower := peer, success := false } :=
      { state := hleader
        term := hargs ▸ hterm
        leaderLog := hrf
        followerLog := hpeer
        related := hrelated
        commit_le_lead := hcommit
        commit_le_log := hcommit'
        agree := hagree
        leaderIndices := hrfInc
        followerIndices := hpeerInc
        next_pos := hpos
        next_le := hle' }
    exact findNextIndex_back (hsetting.shows hN hlen) hargs hprev hcut hprevTerm hanswer hfail
  · obtain ⟨_, _, hanswer', hsuccess⟩ :=
      hpeer.success_of_same hpeerInc hterm hcut (Nat.succ_le_succ_iff.mp hlen) hprevTerm
    obtain ⟨rfl, rfl⟩ := Prod.mk.inj (Option.some.inj (hanswer.symm.trans hanswer'))
    exact absurd (hfail.symm.trans hsuccess) Bool.false_ne_true

/-- The new leader probes the old one above the entry that they do not share, and goes
back to its own entry of the term. -/
theorem findNextIndex_progress_newAndOld :
    ∃ args peer' reply,
      (Link.newAndOld 0).leader.heartbeatTo 1 = some (.appendEntries 1 args) ∧
      args.prevLogIndex = 2 ∧
      (Link.newAndOld 0).follower.appendEntries args = some (peer', reply) ∧
      reply.success = false ∧ reply.term = (Link.newAndOld 0).leader.currentTerm ∧
      ∃ N' : ℕ, ((Link.newAndOld 0).leader.findNextIndex 1 reply).nextIndex 1 = N' ∧ 1 ≤ N' ∧
        N' < 3 := by
  have h := Link.newAndOld_setting (Nat.zero_le 1)
  obtain ⟨args, peer', reply, hsend, hprev, hanswer, hback⟩ :=
    findNextIndex_progress h.state h.leaderLog h.followerLog h.leaderIndices h.followerIndices
      h.related h.agree (show (Link.newAndOld 0).leader.nextIndex 1 = (3 : ℕ) from rfl)
      (by decide) (by decide) (by decide)
  have hfail : reply.success = false ∧ reply.term = (Link.newAndOld 0).leader.currentTerm := by
    cases hsend
    cases hanswer
    exact ⟨rfl, rfl⟩
  exact ⟨args, peer', reply, hsend, hprev, hanswer, hfail.1, hfail.2, hback hfail.1 hfail.2⟩

end Raft

end DistributedLabs
