import DistributedLabs.Raft.Peer
import DistributedLabs.Logic.Lists
import Mathlib.Data.Finset.Card

/-!
# What the steps of a peer can do

One specification lemma for each function of `Handlers.lean`: the cases in which
it returns, with the guard and the resulting peer of each. Later files cite
these lemmas and do not unfold the functions again.
-/

namespace DistributedLabs

namespace Raft

variable {n : ℕ} {Cmd : Type*}

/-! ## The cases of each function -/

theorem adoptTerm_cases (rf : Raft n Cmd) (term : ℕ) :
    (term ≤ rf.currentTerm ∧ rf.adoptTerm term = rf) ∨
      (rf.currentTerm < term ∧
        rf.adoptTerm term = { rf with currentTerm := term, votedFor := noVote }) := by
  by_cases h : rf.currentTerm < term
  · exact Or.inr ⟨h, by simp [adoptTerm, h]⟩
  · exact Or.inl ⟨Nat.not_lt.mp h, by simp [adoptTerm, h]⟩

theorem followTerm_cases (rf : Raft n Cmd) (term : ℕ) :
    (term ≤ rf.currentTerm ∧ rf.followTerm term = rf) ∨
      (rf.currentTerm < term ∧ rf.followTerm term =
        { rf with currentTerm := term, votedFor := noVote, state := .follower }) := by
  by_cases h : rf.currentTerm < term
  · exact Or.inr ⟨h, by simp [followTerm, h]⟩
  · exact Or.inl ⟨Nat.not_lt.mp h, by simp [followTerm, h]⟩

theorem adoptTerm_frame (rf : Raft n Cmd) (term : ℕ) :
    ∃ term' vote, rf.adoptTerm term = { rf with currentTerm := term', votedFor := vote } := by
  rcases adoptTerm_cases rf term with ⟨-, he⟩ | ⟨-, he⟩
  · exact ⟨_, _, he⟩
  · exact ⟨_, _, he⟩

@[simp] theorem adoptTerm_lastIncludedIndex (rf : Raft n Cmd) (term : ℕ) :
    (rf.adoptTerm term).lastIncludedIndex = rf.lastIncludedIndex := by
  obtain ⟨_, _, he⟩ := adoptTerm_frame rf term
  rw [he]

@[simp] theorem adoptTerm_commitIndex (rf : Raft n Cmd) (term : ℕ) :
    (rf.adoptTerm term).commitIndex = rf.commitIndex := by
  obtain ⟨_, _, he⟩ := adoptTerm_frame rf term
  rw [he]

theorem adoptTerm_of_le (rf : Raft n Cmd) {term : ℕ} (h : term ≤ rf.currentTerm) :
    rf.adoptTerm term = rf := by
  simp [adoptTerm, Nat.not_lt.mpr h]

/-- `RequestVote` refuses a stale request, refuses and saves, or grants and
saves. -/
theorem requestVote_cases (rf : Raft n Cmd) (args : RequestVoteArgs n) :
    (args.term < rf.currentTerm ∧
      rf.requestVote args = (rf, { term := rf.currentTerm, voteGranted := false })) ∨
    (rf.currentTerm ≤ args.term ∧ rf.requestVote args =
      ((rf.followTerm args.term).persist,
        { term := (rf.followTerm args.term).currentTerm, voteGranted := false })) ∨
    (rf.currentTerm ≤ args.term ∧
      ((rf.followTerm args.term).votedFor = noVote ∨
        (rf.followTerm args.term).votedFor = (args.candidateId : ℕ)) ∧
      (rf.followTerm args.term).isLogUpToDate args.lastLogTerm args.lastLogIndex = true ∧
      rf.requestVote args =
        (persist { rf.followTerm args.term with votedFor := (args.candidateId : ℕ) },
          { term := (rf.followTerm args.term).currentTerm, voteGranted := true })) := by
  by_cases hstale : args.term < rf.currentTerm
  · exact Or.inl ⟨hstale, by simp only [requestVote, hstale, if_true]⟩
  · right
    have hle : rf.currentTerm ≤ args.term := Nat.not_lt.mp hstale
    by_cases hgrant : ((rf.followTerm args.term).votedFor = noVote ∨
        (rf.followTerm args.term).votedFor = (args.candidateId : ℕ)) ∧
        (rf.followTerm args.term).isLogUpToDate args.lastLogTerm args.lastLogIndex = true
    · exact Or.inr ⟨hle, hgrant.1, hgrant.2,
        by simp only [requestVote, hstale, if_false, if_pos hgrant]⟩
    · exact Or.inl ⟨hle, by simp only [requestVote, hstale, if_false, if_neg hgrant]⟩

/-- The replies of `AppendEntries` that leave the log alone, and the reply that
has copied the entries and followed the commit index of the leader. -/
theorem replicate_cases {rf rf' : Raft n Cmd} {args : AppendEntriesArgs n Cmd}
    {reply : AppendEntriesReply} (h : rf.replicate args = some (rf', reply)) :
    (rf' = rf ∧ reply.term = rf.currentTerm ∧ reply.success = false) ∨
    (∃ old, rf.lastIncludedIndex ≤ args.prevLogIndex ∧
      args.prevLogIndex ≤ rf.lastLogIndex ∧
      rf.entryAt? args.prevLogIndex = some old ∧ old.term = args.prevLogTerm ∧
      rf' = followCommit { rf with
          logs := copyEntries rf.logs (rf.logIndex (args.prevLogIndex + 1)) args.entries }
        args.leaderCommit ∧
      reply = { term := rf.currentTerm, success := true }) := by
  unfold replicate at h
  split at h
  · obtain ⟨rfl, rfl⟩ := Prod.mk.inj (Option.some.inj h)
    exact Or.inl ⟨rfl, rfl, rfl⟩
  split at h
  · obtain ⟨rfl, rfl⟩ := Prod.mk.inj (Option.some.inj h)
    exact Or.inl ⟨rfl, rfl, rfl⟩
  rename_i hsnap hlen
  obtain ⟨old, hold, h⟩ := Option.bind_eq_some_iff.mp h
  split at h
  · obtain ⟨conflictIndex, -, hr⟩ := Option.map_eq_some_iff.mp h
    obtain ⟨rfl, rfl⟩ := Prod.mk.inj hr
    exact Or.inl ⟨rfl, rfl, rfl⟩
  · rename_i hterm
    obtain ⟨hrf, hreply⟩ := Prod.mk.inj (Option.some.inj h)
    exact Or.inr ⟨old, Nat.not_lt.mp hsnap, Nat.not_lt.mp hlen, hold, not_not.mp hterm,
      hrf.symm, hreply.symm⟩

/-- The three reports of a request that does not fit the log: it starts below the
snapshot point, above the last entry, or at an entry of another term. -/
theorem replicate_failure {rf rf' : Raft n Cmd} {args : AppendEntriesArgs n Cmd}
    {reply : AppendEntriesReply} (h : rf.replicate args = some (rf', reply))
    (hfail : reply.success = false) :
    (args.prevLogIndex < rf.lastIncludedIndex ∧
      reply = { term := rf.currentTerm, success := false }) ∨
    (rf.lastIncludedIndex ≤ args.prevLogIndex ∧ rf.lastLogIndex < args.prevLogIndex ∧
      reply = { term := rf.currentTerm, success := false, xTerm := -1, xIndex := -1,
                xLen := rf.realLogLen }) ∨
    (rf.lastIncludedIndex ≤ args.prevLogIndex ∧ args.prevLogIndex ≤ rf.lastLogIndex ∧
      ∃ old conflictIndex, rf.entryAt? args.prevLogIndex = some old ∧
        old.term ≠ args.prevLogTerm ∧
        rf.conflictSearch old.term args.prevLogIndex (-1) = some conflictIndex ∧
        reply = { term := rf.currentTerm, success := false, xTerm := old.term,
                  xIndex := conflictIndex, xLen := rf.realLogLen }) := by
  unfold replicate at h
  split at h
  · rename_i hsnap
    exact Or.inl ⟨hsnap, (Prod.mk.inj (Option.some.inj h)).2.symm⟩
  split at h
  · rename_i hsnap hlen
    exact Or.inr (Or.inl ⟨Nat.not_lt.mp hsnap, hlen, (Prod.mk.inj (Option.some.inj h)).2.symm⟩)
  rename_i hsnap hlen
  obtain ⟨old, hold, h⟩ := Option.bind_eq_some_iff.mp h
  split at h
  · rename_i hterm
    obtain ⟨conflictIndex, hsearch, hr⟩ := Option.map_eq_some_iff.mp h
    exact Or.inr (Or.inr ⟨Nat.not_lt.mp hsnap, Nat.not_lt.mp hlen, old, conflictIndex, hold,
      hterm, hsearch, (Prod.mk.inj hr).2.symm⟩)
  · rw [← (Prod.mk.inj (Option.some.inj h)).2] at hfail
    cases hfail

theorem followCommit_cases (rf : Raft n Cmd) (leaderCommit : ℕ) :
    (leaderCommit ≤ rf.commitIndex ∧ rf.followCommit leaderCommit = rf) ∨
      (rf.commitIndex < leaderCommit ∧ rf.followCommit leaderCommit =
        { rf with commitIndex := min leaderCommit rf.lastLogIndex }) := by
  by_cases h : rf.commitIndex < leaderCommit
  · exact Or.inr ⟨h, by simp [followCommit, h]⟩
  · exact Or.inl ⟨Nat.not_lt.mp h, by simp [followCommit, h]⟩

/-- `AppendEntries` touches only the log and the commit index once the term has
been adopted. -/
theorem replicate_frame {rf rf' : Raft n Cmd} {args : AppendEntriesArgs n Cmd}
    {reply : AppendEntriesReply} (h : rf.replicate args = some (rf', reply)) :
    ∃ logs commitIndex, rf' = { rf with logs := logs, commitIndex := commitIndex } := by
  rcases replicate_cases h with ⟨rfl, -⟩ | ⟨old, -, -, -, -, rfl, -⟩
  · exact ⟨_, _, rfl⟩
  · rcases followCommit_cases { rf with
        logs := copyEntries rf.logs (rf.logIndex (args.prevLogIndex + 1)) args.entries }
      args.leaderCommit with ⟨-, he⟩ | ⟨-, he⟩
    · exact ⟨_, _, he⟩
    · exact ⟨_, _, he⟩

theorem appendEntries_cases {rf rf' : Raft n Cmd} {args : AppendEntriesArgs n Cmd}
    {reply : AppendEntriesReply} (h : rf.appendEntries args = some (rf', reply)) :
    (args.term < rf.currentTerm ∧ rf' = rf ∧
      reply = { term := rf.currentTerm, success := false }) ∨
    (rf.currentTerm ≤ args.term ∧ ∃ rf₁,
      (rf.toFollower.adoptTerm args.term).replicate args = some (rf₁, reply) ∧
      rf' = rf₁.persist) := by
  unfold appendEntries at h
  split at h
  · rename_i hstale
    obtain ⟨rfl, rfl⟩ := Prod.mk.inj (Option.some.inj h)
    exact Or.inl ⟨hstale, rfl, rfl⟩
  · rename_i hstale
    obtain ⟨r, hr, hrf⟩ := Option.map_eq_some_iff.mp h
    obtain ⟨rfl, rfl⟩ := Prod.mk.inj hrf
    exact Or.inr ⟨Nat.not_lt.mp hstale, r.1, hr, rfl⟩

/-- `InstallSnapshot` refuses a stale request, adopts the term without needing
the snapshot, or takes the snapshot over. -/
theorem installSnapshot_cases (rf : Raft n Cmd) (args : InstallSnapshotArgs n) :
    (args.term < rf.currentTerm ∧
      rf.installSnapshot args = (rf, { term := rf.currentTerm }, none)) ∨
    (rf.currentTerm ≤ args.term ∧
      (args.lastIncludedIndex ≤ rf.lastIncludedIndex ∨
        args.lastIncludedIndex ≤ rf.commitIndex) ∧
      rf.installSnapshot args = ((rf.adoptTerm args.term).toFollower,
        { term := (rf.adoptTerm args.term).currentTerm }, none)) ∨
    (rf.currentTerm ≤ args.term ∧ rf.lastIncludedIndex < args.lastIncludedIndex ∧
      rf.commitIndex < args.lastIncludedIndex ∧
      rf.installSnapshot args =
        (((rf.adoptTerm args.term).toFollower.takeOver args (rf.keptEntries args)).persist,
          { term := (rf.adoptTerm args.term).currentTerm },
          some (.snapshot args.data args.lastIncludedTerm args.lastIncludedIndex))) := by
  by_cases hstale : args.term < rf.currentTerm
  · exact Or.inl ⟨hstale, by simp only [installSnapshot, hstale, if_true]⟩
  right
  have hle : rf.currentTerm ≤ args.term := Nat.not_lt.mp hstale
  have hkept : (rf.adoptTerm args.term).toFollower.keptEntries args = rf.keptEntries args := by
    obtain ⟨_, _, he⟩ := adoptTerm_frame rf args.term
    rw [he]
    rfl
  have hinc' : (rf.adoptTerm args.term).toFollower.lastIncludedIndex = rf.lastIncludedIndex :=
    adoptTerm_lastIncludedIndex rf args.term
  have hcom' : (rf.adoptTerm args.term).toFollower.commitIndex = rf.commitIndex :=
    adoptTerm_commitIndex rf args.term
  by_cases hinc : args.lastIncludedIndex ≤ rf.lastIncludedIndex
  · exact Or.inl ⟨hle, Or.inl hinc, by
      simp only [installSnapshot, hstale, if_false, hinc', hinc, if_true]; rfl⟩
  by_cases hcom : args.lastIncludedIndex ≤ rf.commitIndex
  · exact Or.inl ⟨hle, Or.inr hcom, by
      simp only [installSnapshot, hstale, if_false, hinc', hinc, hcom', hcom, if_true]; rfl⟩
  refine Or.inr ⟨hle, Nat.not_le.mp hinc, Nat.not_le.mp hcom, ?_⟩
  simp only [installSnapshot, hstale, if_false, hinc', hinc, hcom', hcom, hkept]
  rfl

/-- The goroutine that delivers the snapshot is spawned exactly when it is taken over. -/
theorem Peer.installSnapshot_outcome (p : Peer n Cmd) (args : InstallSnapshotArgs n) :
    (p.installSnapshot args).1 = p.setRf p.rf ∨
    (p.installSnapshot args).1 = p.setRf (p.rf.adoptTerm args.term).toFollower ∨
    (p.rf.lastIncludedIndex < args.lastIncludedIndex ∧
      p.rf.commitIndex < args.lastIncludedIndex ∧
      (p.installSnapshot args).1 =
        { p with
          rf := ((p.rf.adoptTerm args.term).toFollower.takeOver args
            (p.rf.keptEntries args)).persist
          senders := p.senders ++
            [{ msg := .snapshot args.data args.lastIncludedTerm args.lastIncludedIndex }] }) := by
  rcases installSnapshot_cases p.rf args with ⟨-, he⟩ | ⟨-, -, he⟩ | ⟨-, hinc, hcommit, he⟩
  · exact Or.inl (by simp [Peer.installSnapshot, he, Peer.setRf])
  · exact Or.inr (Or.inl (by simp [Peer.installSnapshot, he, Peer.setRf]))
  · exact Or.inr (Or.inr ⟨hinc, hcommit, by simp [Peer.installSnapshot, he]⟩)

/-- The slot that `InstallSnapshot` finds is the one of the snapshot point, and it
is found if slot 0 passes the test. -/
theorem keptEntries_cases (rf : Raft n Cmd) {args : InstallSnapshotArgs n}
    (hinc : rf.lastIncludedIndex < args.lastIncludedIndex) :
    (rf.logs.zero.term = args.lastIncludedTerm ∧ args.lastIncludedIndex ≤ rf.lastLogIndex ∧
      rf.keptEntries args =
        rf.logs.rest.drop (args.lastIncludedIndex - rf.lastIncludedIndex)) ∨
    ((rf.logs.zero.term ≠ args.lastIncludedTerm ∨ rf.lastLogIndex < args.lastIncludedIndex) ∧
      rf.keptEntries args = []) := by
  unfold keptEntries
  cases hslot : rf.keptSlot? args with
  | some i =>
      have hfound := List.find?_some hslot
      have hprop := of_decide_eq_true hfound
      rw [realIndex] at hprop
      have hmem := List.mem_of_find?_eq_some hslot
      rw [List.mem_range'_1, Logs.length_eq] at hmem
      refine Or.inl ⟨hprop.2, ?_, ?_⟩
      · rw [lastLogIndex_eq]
        omega
      · have hi : args.lastIncludedIndex - rf.lastIncludedIndex = i := by omega
        rw [hi]
        rfl
  | none =>
      refine Or.inr ⟨?_, rfl⟩
      by_contra hcon
      rw [not_or, not_not, Nat.not_lt, lastLogIndex_eq] at hcon
      have hnone := List.find?_eq_none.mp hslot (args.lastIncludedIndex - rf.lastIncludedIndex)
        (by rw [List.mem_range'_1, Logs.length_eq]; omega)
      refine hnone (decide_eq_true ⟨?_, hcon.1⟩)
      rw [realIndex]
      omega

/-- A leader offers its snapshot, or all entries after an index of its log. -/
theorem heartbeatTo_cases {rf : Raft n Cmd} {i : Fin n} {out : Outgoing n Cmd}
    (h : rf.heartbeatTo i = some out) :
    (rf.nextIndex i ≤ rf.lastIncludedIndex ∧ out = .installSnapshot i
      { term := rf.currentTerm, leaderId := rf.me, lastIncludedIndex := rf.lastIncludedIndex,
        lastIncludedTerm := rf.logs.zero.term, data := rf.snapshot }) ∨
    ∃ prev old, rf.nextIndex i = (prev + 1 : ℕ) ∧ rf.lastIncludedIndex ≤ prev ∧
      prev ≤ rf.lastLogIndex ∧ rf.entryAt? prev = some old ∧ out = .appendEntries i
        { term := rf.currentTerm, leaderId := rf.me, prevLogIndex := prev,
          prevLogTerm := old.term, entries := rf.logs.rest.drop (prev - rf.lastIncludedIndex),
          leaderCommit := rf.commitIndex } := by
  unfold heartbeatTo at h
  split at h
  · rename_i hnext
    exact Or.inl ⟨hnext, (Option.some.inj h).symm⟩
  · rename_i hnext
    right
    dsimp only at h
    obtain ⟨prevTerm, hprev, rfl⟩ := Option.map_eq_some_iff.mp h
    have hpos : rf.lastIncludedIndex < (rf.nextIndex i).toNat := by omega
    have hentries : rf.logs.slots.drop (rf.logIndex (rf.nextIndex i).toNat) =
        rf.logs.rest.drop ((rf.nextIndex i).toNat - 1 - rf.lastIncludedIndex) := by
      have hi : rf.logIndex (rf.nextIndex i).toNat =
          (rf.nextIndex i).toNat - 1 - rf.lastIncludedIndex + 1 := by
        unfold logIndex
        omega
      rw [hi]
      rfl
    have hnext' : rf.nextIndex i = ((rf.nextIndex i).toNat - 1 + 1 : ℕ) := by omega
    rw [hentries]
    split at hprev
    · rename_i hrange
      obtain ⟨old, hold, rfl⟩ := Option.map_eq_some_iff.mp hprev
      rw [Logs.length_eq] at hrange
      exact ⟨_, old, hnext', hrange.1.le, by rw [lastLogIndex_eq]; omega, hold, rfl⟩
    · split at hprev
      · rename_i heq
        obtain rfl := Option.some.inj hprev
        refine ⟨_, rf.logs.zero, hnext', heq.ge, by rw [lastLogIndex_eq]; omega, ?_, rfl⟩
        rw [entryAt?_of_le rf heq.ge, heq, Nat.sub_self, Logs.get?_zero]
      · cases hprev

/-- Every request of a broadcast goes to another peer. -/
theorem broadcastHeartbeat_mem {rf : Raft n Cmd} {out : List (Outgoing n Cmd)}
    (h : rf.broadcastHeartbeat = some out) {o : Outgoing n Cmd} (ho : o ∈ out) :
    ∃ i, i ≠ rf.me ∧ rf.heartbeatTo i = some o := by
  obtain ⟨i, hi, hto⟩ := exists_of_mem_mapM h ho
  exact ⟨i, of_decide_eq_true (List.mem_filter.mp hi).2, hto⟩

/-- A vote reply is ignored, makes the candidate step down, is counted without a
majority, or makes the candidate a leader that broadcasts. -/
theorem handleVoteReply_cases {rf rf' : Raft n Cmd} {args : RequestVoteArgs n}
    {reply : RequestVoteReply} {out : List (Outgoing n Cmd)}
    (h : rf.handleVoteReply args reply = some (rf', out)) :
    (rf' = rf ∧ out = []) ∨
    (rf.currentTerm < reply.term ∧ out = [] ∧ rf' =
      (persist { rf with currentTerm := reply.term, votedFor := noVote }).toFollower) ∨
    (rf.currentTerm = args.term ∧ rf.state = .candidate ∧ out = [] ∧
      rf' = rf.countVote reply) ∨
    (rf.currentTerm = args.term ∧ rf.state = .candidate ∧
      n / 2 < (rf.countVote reply).voteGrantedCnt ∧
      rf' = (rf.countVote reply).toLeader.initializeLeaderEasilyLostState ∧
      rf'.broadcastHeartbeat = some out) := by
  unfold handleVoteReply at h
  split at h
  · obtain ⟨rfl, rfl⟩ := Prod.mk.inj (Option.some.inj h)
    exact Or.inl ⟨rfl, rfl⟩
  rename_i hguard
  rw [not_or, not_not, not_not] at hguard
  split at h
  · rename_i hterm
    obtain ⟨rfl, rfl⟩ := Prod.mk.inj (Option.some.inj h)
    exact Or.inr (Or.inl ⟨hterm, rfl, rfl⟩)
  split at h
  · dsimp only at h
    split at h
    · rename_i hwin
      obtain ⟨out', hout, hr⟩ := Option.map_eq_some_iff.mp h
      obtain ⟨rfl, rfl⟩ := Prod.mk.inj hr
      exact Or.inr (Or.inr (Or.inr ⟨hguard.1, hguard.2, hwin, rfl, hout⟩))
    · obtain ⟨rfl, rfl⟩ := Prod.mk.inj (Option.some.inj h)
      exact Or.inr (Or.inr (Or.inl ⟨hguard.1, hguard.2, rfl, rfl⟩))
  · obtain ⟨rfl, rfl⟩ := Prod.mk.inj (Option.some.inj h)
    exact Or.inl ⟨rfl, rfl⟩

theorem countVote_cases (rf : Raft n Cmd) (reply : RequestVoteReply) :
    (reply.voteGranted = true ∧
      rf.countVote reply = { rf with voteGrantedCnt := rf.voteGrantedCnt + 1 }) ∨
    (reply.voteGranted = false ∧ rf.countVote reply = rf) := by
  cases h : reply.voteGranted with
  | true => exact Or.inl ⟨rfl, by simp [countVote, h]⟩
  | false => exact Or.inr ⟨rfl, by simp [countVote, h]⟩

/-- The counting loop counts only peers that have reached the index, and counts
one only if the entry there is of the current term. -/
theorem succeedNum_loop {rf : Raft n Cmd} {N : ℕ} {ps : List (Fin n)} {acc k : ℕ}
    (h : ps.foldlM (fun succeedNum p =>
      if N ≤ rf.matchIndex p then
        (rf.entryAt? N).map fun entry =>
          if entry.term = rf.currentTerm then succeedNum + 1 else succeedNum
      else some succeedNum) acc = some k) :
    k ≤ acc + (ps.filter fun p => N ≤ rf.matchIndex p).length ∧
      (acc < k → ∃ entry, rf.entryAt? N = some entry ∧ entry.term = rf.currentTerm) := by
  induction ps generalizing acc with
  | nil =>
      obtain rfl := Option.some.inj h
      exact ⟨by simp, fun hlt => absurd hlt (lt_irrefl _)⟩
  | cons p ps ih =>
      rw [List.foldlM_cons] at h
      by_cases hp : N ≤ rf.matchIndex p
      · rw [if_pos hp] at h
        obtain ⟨acc', hacc', h⟩ := Option.bind_eq_some_iff.mp h
        obtain ⟨entry, hentry, rfl⟩ := Option.map_eq_some_iff.mp hacc'
        obtain ⟨hle, hlt⟩ := ih h
        rw [List.filter_cons_of_pos (by simpa using hp), List.length_cons]
        by_cases hterm : entry.term = rf.currentTerm
        · rw [if_pos hterm] at hle
          exact ⟨by omega, fun _ => ⟨entry, hentry, hterm⟩⟩
        · rw [if_neg hterm] at hle hlt
          exact ⟨by omega, hlt⟩
      · rw [if_neg hp] at h
        rw [List.filter_cons_of_neg (by simpa using hp)]
        exact ih h

/-- A majority counted by `succeedNum` is a majority of peers that have reached
the index, and the entry there is of the current term. -/
theorem succeedNum_majority {rf : Raft n Cmd} {N k : ℕ} (h : rf.succeedNum N = some k)
    (hk : n / 2 < k) :
    (∃ entry, rf.entryAt? N = some entry ∧ entry.term = rf.currentTerm) ∧
      ∃ Q : Finset (Fin n), n / 2 < Q.card ∧ ∀ p ∈ Q, N ≤ rf.matchIndex p := by
  obtain ⟨hle, hlt⟩ := succeedNum_loop h
  refine ⟨hlt (by omega), ((List.finRange n).filter fun p => N ≤ rf.matchIndex p).toFinset, ?_, ?_⟩
  · rw [List.toFinset_card_of_nodup ((List.nodup_finRange n).filter _)]
    omega
  · intro p hp
    rw [List.mem_toFinset, List.mem_filter] at hp
    simpa using hp.2

theorem checkAndCommitLogs_loop {rf : Raft n Cmd} {is : List ℕ} {acc N : ℕ}
    (h : is.foldlM (fun N i => (rf.succeedNum i).map fun k => if n / 2 < k then i else N) acc =
      some N) : N = acc ∨ (N ∈ is ∧ ∃ k, rf.succeedNum N = some k ∧ n / 2 < k) := by
  refine foldlM_invariant (P := fun N =>
    N = acc ∨ (N ∈ is ∧ ∃ k, rf.succeedNum N = some k ∧ n / 2 < k)) ?_ (Or.inl rfl) h
  intro N i N' hi hN hs
  obtain ⟨k, hk, rfl⟩ := Option.map_eq_some_iff.mp hs
  by_cases hlt : n / 2 < k
  · rw [if_pos hlt]
    exact Or.inr ⟨hi, k, hk, hlt⟩
  · rwa [if_neg hlt]

/-- `checkAndCommitLogs` leaves the peer alone or commits an index of its log that
a majority has reached. -/
theorem checkAndCommitLogs_cases {rf rf' : Raft n Cmd} (h : rf.checkAndCommitLogs = some rf') :
    rf' = rf ∨ ∃ N, rf.commitIndex < N ∧ N ≤ rf.lastLogIndex ∧
      (∃ entry, rf.entryAt? N = some entry ∧ entry.term = rf.currentTerm) ∧
      (∃ Q : Finset (Fin n), n / 2 < Q.card ∧ ∀ p ∈ Q, N ≤ rf.matchIndex p) ∧
      rf' = { rf with commitIndex := N } := by
  unfold checkAndCommitLogs at h
  obtain ⟨N, hN, rfl⟩ := Option.map_eq_some_iff.mp h
  by_cases hlt : rf.commitIndex < N
  · rw [if_pos hlt]
    rcases checkAndCommitLogs_loop hN with rfl | ⟨hmem, k, hk, hmaj⟩
    · exact absurd hlt (lt_irrefl _)
    · obtain ⟨hentry, hQ⟩ := succeedNum_majority hk hmaj
      rw [List.mem_range'_1, realLogLen_eq] at hmem
      exact Or.inr ⟨N, hlt, by omega, hentry, hQ, rfl⟩
  · rw [if_neg hlt]
    exact Or.inl rfl

/-- `checkAndCommitLogs` changes nothing but `commitIndex`. -/
theorem checkAndCommitLogs_eq {rf rf' : Raft n Cmd} (h : rf.checkAndCommitLogs = some rf') :
    ∃ N, rf' = { rf with commitIndex := N } := by
  rcases checkAndCommitLogs_cases h with rfl | ⟨N, -, -, -, -, rfl⟩
  · exact ⟨_, rfl⟩
  · exact ⟨N, rfl⟩

/-- The leader goes on after the last entry of a short log, at its own last entry of
the conflicting term, or at the conflict if it has no entry of that term. -/
theorem findNextIndex_cases (rf : Raft n Cmd) (peer : Fin n) (reply : AppendEntriesReply) :
    ∃ next, rf.findNextIndex peer reply =
        { rf with nextIndex := Function.update rf.nextIndex peer next } ∧
      ((reply.xTerm = -1 ∧ reply.xIndex = -1 ∧ next = reply.xLen) ∨
        (¬ (reply.xTerm = -1 ∧ reply.xIndex = -1) ∧ ∃ i slot, rf.logs.get? i = some slot ∧
          (slot.term : ℤ) = reply.xTerm ∧
          (∀ j slot', i < j → rf.logs.get? j = some slot' → (slot'.term : ℤ) ≠ reply.xTerm) ∧
          next = (rf.realIndex i : ℤ)) ∨
        (¬ (reply.xTerm = -1 ∧ reply.xIndex = -1) ∧
          (∀ slot ∈ rf.logs.slots, (slot.term : ℤ) ≠ reply.xTerm) ∧ next = reply.xIndex)) := by
  refine ⟨_, rfl, ?_⟩
  by_cases hshort : reply.xTerm = -1 ∧ reply.xIndex = -1
  · rw [if_pos hshort]
    exact Or.inl ⟨hshort.1, hshort.2, rfl⟩
  · rw [if_neg hshort]
    rcases foldl_zipIdx_cases (p := fun slot : LogEntry Cmd => (slot.term : ℤ) = reply.xTerm)
      (fun i => (rf.realIndex i : ℤ)) rf.logs.slots with
      ⟨hnone, he⟩ | ⟨i, slot, hi, hslot, hlast, he⟩
    · exact Or.inr (Or.inr ⟨hshort, hnone, by rw [he, Option.getD_none]⟩)
    · exact Or.inr (Or.inl ⟨hshort, i, slot, hi, hslot, hlast, by rw [he, Option.getD_some]⟩)

theorem handleSendAppendEntries_cases {rf rf' : Raft n Cmd} {peer : Fin n}
    {args : AppendEntriesArgs n Cmd} {reply : AppendEntriesReply}
    (h : rf.handleSendAppendEntries peer args reply = some rf') :
    rf' = rf ∨
    (rf.currentTerm = args.term ∧ rf.state = .leader ∧ rf.currentTerm < reply.term ∧
      rf' = persist { rf with currentTerm := reply.term, state := .follower }) ∨
    (rf.currentTerm = args.term ∧ rf.state = .leader ∧ reply.success = true ∧
      checkAndCommitLogs
        { rf with
          matchIndex := Function.update rf.matchIndex peer
            (max (rf.matchIndex peer) (args.prevLogIndex + args.entries.length))
          nextIndex := Function.update rf.nextIndex peer
            (max (rf.nextIndex peer) (args.prevLogIndex + args.entries.length + 1 : ℕ)) } =
        some rf') ∨
    (rf.currentTerm = args.term ∧ rf.state = .leader ∧ reply.success = false ∧
      rf' = rf.findNextIndex peer reply) := by
  unfold handleSendAppendEntries at h
  split at h
  · exact Or.inl (Option.some.inj h).symm
  rename_i hguard
  rw [not_or, not_not, not_not] at hguard
  split at h
  · rename_i hterm
    exact Or.inr (Or.inl ⟨hguard.1, hguard.2, hterm, (Option.some.inj h).symm⟩)
  split at h
  · rename_i hsucc
    exact Or.inr (Or.inr (Or.inl ⟨hguard.1, hguard.2, hsucc, h⟩))
  · rename_i hsucc
    exact Or.inr (Or.inr (Or.inr ⟨hguard.1, hguard.2, by simpa using hsucc,
      (Option.some.inj h).symm⟩))

theorem handleSendInstallSnapshot_cases (rf : Raft n Cmd) (peer : Fin n)
    (args : InstallSnapshotArgs n) (reply : InstallSnapshotReply) :
    rf.handleSendInstallSnapshot peer args reply = rf ∨
    (rf.currentTerm = args.term ∧ rf.state = .leader ∧ rf.currentTerm < reply.term ∧
      rf.handleSendInstallSnapshot peer args reply =
        persist { rf with currentTerm := reply.term, state := .follower }) ∨
    (rf.currentTerm = args.term ∧ rf.state = .leader ∧ reply.term ≤ rf.currentTerm ∧
      rf.handleSendInstallSnapshot peer args reply =
        { rf with
          matchIndex := Function.update rf.matchIndex peer
            (max (rf.matchIndex peer) args.lastIncludedIndex)
          nextIndex := Function.update rf.nextIndex peer
            (max (rf.nextIndex peer) (args.lastIncludedIndex + 1 : ℕ)) }) := by
  unfold handleSendInstallSnapshot
  split
  · exact Or.inl rfl
  rename_i hguard
  rw [not_or, not_not, not_not] at hguard
  split
  · rename_i hterm
    exact Or.inr (Or.inl ⟨hguard.1, hguard.2, hterm, rfl⟩)
  · rename_i hterm
    exact Or.inr (Or.inr ⟨hguard.1, hguard.2, Nat.not_lt.mp hterm, rfl⟩)

theorem start_cases (rf : Raft n Cmd) (command : Option Cmd) :
    (rf.state ≠ .leader ∧ (rf.start command).1 = rf) ∨
    (rf.state = .leader ∧ ∃ rf₁,
      rf₁ = persist { rf with
        logs := rf.logs.push { term := rf.currentTerm, cmd := command } } ∧
      (rf.start command).1 =
        { rf₁ with
          matchIndex := Function.update rf.matchIndex rf.me (rf.lastLogIndex + 1)
          nextIndex := Function.update rf.nextIndex rf.me (rf.realLogLen + 1 : ℕ) }) := by
  by_cases h : rf.state = .leader
  · refine Or.inr ⟨h, _, rfl, ?_⟩
    simp [start, h, persist, status, lastLogIndex_eq, realLogLen, Logs.push, Nat.add_assoc]
  · exact Or.inl ⟨h, by simp [start, h]⟩

theorem snapshotUpTo_cases {rf rf' : Raft n Cmd} {index : ℕ} {data : Bytes}
    (h : rf.snapshotUpTo index data = some rf') :
    rf' = rf ∨
    (index ≤ rf.commitIndex ∧ rf.lastIncludedIndex < index ∧ ∃ entry,
      rf.logs.get? (rf.logIndex index) = some entry ∧
      rf' = persist { rf with
        lastIncludedIndex := index
        logs := { zero := { term := entry.term, cmd := none },
                  rest := rf.logs.slots.drop (rf.logIndex index + 1) }
        snapshot := data }) := by
  unfold snapshotUpTo at h
  split at h
  · exact Or.inl (Option.some.inj h).symm
  · rename_i hguard
    rw [not_or] at hguard
    obtain ⟨entry, hentry, rfl⟩ := Option.map_eq_some_iff.mp h
    exact Or.inr ⟨Nat.not_lt.mp hguard.1, Nat.not_le.mp hguard.2, entry, hentry, rfl⟩

/-! ## Which fields a function can change -/

theorem requestVote_frame (rf : Raft n Cmd) (args : RequestVoteArgs n) :
    ∃ term vote state persister, (rf.requestVote args).1 =
      { rf with
        currentTerm := term, votedFor := vote, state := state, persister := persister } := by
  rcases requestVote_cases rf args with ⟨-, h⟩ | ⟨-, h⟩ | ⟨-, -, -, h⟩
  · rw [h]
    exact ⟨_, _, _, _, rfl⟩
  · rw [h]
    rcases followTerm_cases rf args.term with ⟨-, he⟩ | ⟨-, he⟩ <;> rw [he] <;>
      exact ⟨_, _, _, _, rfl⟩
  · rw [h]
    rcases followTerm_cases rf args.term with ⟨-, he⟩ | ⟨-, he⟩ <;> rw [he] <;>
      exact ⟨_, _, _, _, rfl⟩

theorem appendEntries_frame {rf rf' : Raft n Cmd} {args : AppendEntriesArgs n Cmd}
    {reply : AppendEntriesReply} (h : rf.appendEntries args = some (rf', reply)) :
    ∃ term vote state logs commitIndex persister, rf' =
      { rf with
        currentTerm := term, votedFor := vote, state := state, logs := logs,
        commitIndex := commitIndex, persister := persister } := by
  rcases appendEntries_cases h with ⟨-, rfl, -⟩ | ⟨-, rf₁, hrep, rfl⟩
  · exact ⟨_, _, _, _, _, _, rfl⟩
  · obtain ⟨logs, commitIndex, rfl⟩ := replicate_frame hrep
    obtain ⟨_, _, he⟩ := adoptTerm_frame rf.toFollower args.term
    rw [he]
    exact ⟨_, _, _, _, _, _, rfl⟩

theorem handleVoteReply_frame {rf rf' : Raft n Cmd} {args : RequestVoteArgs n}
    {reply : RequestVoteReply} {out : List (Outgoing n Cmd)}
    (h : rf.handleVoteReply args reply = some (rf', out)) :
    ∃ term vote state cnt nextIndex matchIndex persister, rf' =
      { rf with
        currentTerm := term, votedFor := vote, state := state, voteGrantedCnt := cnt,
        nextIndex := nextIndex, matchIndex := matchIndex, persister := persister } := by
  rcases handleVoteReply_cases h with ⟨rfl, -⟩ | ⟨-, -, rfl⟩ | ⟨-, -, -, rfl⟩ | ⟨-, -, -, rfl, -⟩
  · exact ⟨_, _, _, _, _, _, _, rfl⟩
  · exact ⟨_, _, _, _, _, _, _, rfl⟩
  · rcases countVote_cases rf reply with ⟨-, he⟩ | ⟨-, he⟩ <;> rw [he] <;>
      exact ⟨_, _, _, _, _, _, _, rfl⟩
  · rcases countVote_cases rf reply with ⟨-, he⟩ | ⟨-, he⟩ <;> rw [he] <;>
      exact ⟨_, _, _, _, _, _, _, rfl⟩

theorem handleSendAppendEntries_frame {rf rf' : Raft n Cmd} {peer : Fin n}
    {args : AppendEntriesArgs n Cmd} {reply : AppendEntriesReply}
    (h : rf.handleSendAppendEntries peer args reply = some rf') :
    ∃ term state commitIndex nextIndex matchIndex persister, rf' =
      { rf with
        currentTerm := term, state := state, commitIndex := commitIndex,
        nextIndex := nextIndex, matchIndex := matchIndex, persister := persister } := by
  rcases handleSendAppendEntries_cases h with
    rfl | ⟨-, -, -, rfl⟩ | ⟨-, -, -, hcommit⟩ | ⟨-, -, -, rfl⟩
  · exact ⟨_, _, _, _, _, _, rfl⟩
  · exact ⟨_, _, _, _, _, _, rfl⟩
  · obtain ⟨N, rfl⟩ := checkAndCommitLogs_eq hcommit
    exact ⟨_, _, _, _, _, _, rfl⟩
  · exact ⟨_, _, _, _, _, _, rfl⟩

theorem handleSendInstallSnapshot_frame (rf : Raft n Cmd) (peer : Fin n)
    (args : InstallSnapshotArgs n) (reply : InstallSnapshotReply) :
    ∃ term state nextIndex matchIndex persister, rf.handleSendInstallSnapshot peer args reply =
      { rf with
        currentTerm := term, state := state, nextIndex := nextIndex, matchIndex := matchIndex,
        persister := persister } := by
  rcases handleSendInstallSnapshot_cases rf peer args reply with
    he | ⟨-, -, -, he⟩ | ⟨-, -, -, he⟩ <;>
    rw [he] <;> exact ⟨_, _, _, _, _, rfl⟩

theorem start_frame (rf : Raft n Cmd) (command : Option Cmd) :
    ∃ logs nextIndex matchIndex persister, (rf.start command).1 =
      { rf with
        logs := logs, nextIndex := nextIndex, matchIndex := matchIndex,
        persister := persister } := by
  rcases start_cases rf command with ⟨-, he⟩ | ⟨-, rf₁, rfl, he⟩
  · rw [he]
    exact ⟨_, _, _, _, rfl⟩
  · rw [he]
    exact ⟨_, _, _, _, rfl⟩

end Raft

end DistributedLabs
