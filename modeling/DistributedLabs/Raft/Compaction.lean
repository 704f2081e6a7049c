import DistributedLabs.Raft.Indices

/-!
# Compaction is transparent

`Snapshot` throws slots of the log away. The calls that a peer serves read the log
only above the snapshot point, and at the snapshot point only the term, which slot 0
keeps. So a peer that has compacted its log and one that has not give the same
answers, as long as no request reaches below the snapshot point.
-/

namespace DistributedLabs

namespace Raft

variable {n : ℕ} {Cmd : Type*}

/-! ## Slices -/

/-- The slice `l'` is what is left of the slice `l` without the slots below `d`; slot
0 keeps the term of slot `d`. -/
structure Logs.Drops (d : ℕ) (l l' : Logs Cmd) : Prop where
  zero : ∃ e, l.get? d = some e ∧ l'.zero.term = e.term
  rest : l'.rest = l.rest.drop d

namespace Logs.Drops

variable {d : ℕ} {l l' : Logs Cmd}

theorem le_length (h : Drops d l l') : d ≤ l.rest.length := by
  obtain ⟨e, he, -⟩ := h.zero
  have hlt := (List.getElem?_eq_some_iff.mp he).1
  rw [Logs.slots, List.length_cons] at hlt
  omega

theorem length_rest (h : Drops d l l') : d + l'.rest.length = l.rest.length := by
  rw [h.rest, List.length_drop, Nat.add_sub_cancel' h.le_length]

theorem get?_succ (h : Drops d l l') (k : ℕ) : l'.get? (k + 1) = l.get? (d + (k + 1)) := by
  rw [← Nat.add_assoc, Logs.get?_succ, Logs.get?_succ, h.rest, List.getElem?_drop]

/-- Every slot that is left has the term it had. -/
theorem get?_term (h : Drops d l l') (k : ℕ) :
    (l'.get? k).map LogEntry.term = (l.get? (d + k)).map LogEntry.term := by
  cases k with
  | zero =>
      obtain ⟨e, he, hterm⟩ := h.zero
      rw [Logs.get?_zero, Nat.add_zero, he, Option.map_some, Option.map_some, hterm]
  | succ k => rw [h.get?_succ k]

theorem lastTerm (h : Drops d l l') :
    (l'.rest.getLastD l'.zero).term = (l.rest.getLastD l.zero).term := by
  obtain ⟨e, he, hterm⟩ := h.zero
  rcases h.le_length.lt_or_eq with hlt | heq
  · have hne : l.rest.drop d ≠ [] := by
      rw [Ne, List.drop_eq_nil_iff]
      omega
    have hne' : l.rest ≠ [] := fun hl => hne (by rw [hl, List.drop_nil])
    rw [h.rest, List.getLastD_eq_getLast?, List.getLastD_eq_getLast?,
      List.getLast?_eq_some_getLast hne, List.getLast?_eq_some_getLast hne', List.getLast_drop]
    rfl
  · rw [h.rest, heq, List.drop_length, List.getLastD_nil, hterm]
    cases d with
    | zero =>
        obtain rfl := Option.some.inj he
        rw [List.eq_nil_of_length_eq_zero heq.symm, List.getLastD_nil]
    | succ d =>
        have hd : d = l.rest.length - 1 := by omega
        rw [Logs.get?_succ, hd, ← List.getLast?_eq_getElem?] at he
        rw [List.getLastD_eq_getLast?, he, Option.getD_some]

theorem push (h : Drops d l l') (e : LogEntry Cmd) : Drops d (l.push e) (l'.push e) where
  zero := by
    obtain ⟨e', he', hterm⟩ := h.zero
    refine ⟨e', ?_, hterm⟩
    have hlt := (List.getElem?_eq_some_iff.mp he').1
    change (l.slots ++ [e])[d]? = some e'
    rw [List.getElem?_append_left hlt]
    exact he'
  rest := by
    rw [Logs.push, Logs.push, List.drop_append_of_le_length h.le_length, h.rest]

theorem cutPush (h : Drops d l l') {k : ℕ} (hk : d + k ≤ l.rest.length) (e : LogEntry Cmd) :
    Drops d (l.cutPush (d + (k + 1)) e) (l'.cutPush (k + 1) e) where
  zero := by
    obtain ⟨e', he', hterm⟩ := h.zero
    refine ⟨e', ?_, hterm⟩
    cases d with
    | zero =>
        rw [Nat.zero_add]
        exact he'
    | succ d =>
        rw [Logs.get?_succ] at he'
        have hlen : (l.rest.take (d + 1 + k)).length = d + 1 + k := List.length_take_of_le hk
        rw [← Nat.add_assoc, Logs.get?_succ, Logs.cutPush,
          List.getElem?_append_left (by omega), List.getElem?_take_of_lt (by omega)]
        exact he'
  rest := by
    have hlen : (l.rest.take (d + k)).length = d + k := List.length_take_of_le hk
    rw [← Nat.add_assoc, Logs.cutPush, Logs.cutPush, List.drop_append_of_le_length (by omega),
      List.drop_take, Nat.add_sub_cancel_left, h.rest]

/-- A round of the copy loop does the same at the same real index. -/
theorem copyEntry (h : Drops d l l') (k : ℕ) (e : LogEntry Cmd) :
    Drops d (copyEntry l (d + (k + 1)) e) (copyEntry l' (k + 1) e) := by
  unfold Raft.copyEntry
  rw [h.get?_succ k]
  cases hold : l.get? (d + (k + 1)) with
  | some old =>
      dsimp only
      split
      · have hlt := (List.getElem?_eq_some_iff.mp hold).1
        rw [Logs.slots, List.length_cons] at hlt
        exact h.cutPush (by omega) e
      · exact h
  | none =>
      have hlen := h.length_rest
      have hend : d + (k + 1) = l.length ↔ k + 1 = l'.length := by
        rw [Logs.length_eq, Logs.length_eq]
        omega
      simp only [hend]
      split
      · exact h.push e
      · exact h

theorem copyEntries (h : Drops d l l') (k : ℕ) (entries : List (LogEntry Cmd)) :
    Drops d (copyEntries l (d + (k + 1)) entries) (copyEntries l' (k + 1) entries) := by
  induction entries generalizing l l' k with
  | nil => exact h
  | cons e entries ih =>
      rw [Raft.copyEntries, Raft.copyEntries, Nat.add_assoc d (k + 1) 1]
      exact ih (h.copyEntry k e) (k + 1)

end Logs.Drops

/-! ## Peers -/

/-- The peer `s'` is the peer `s` with its log compacted up to the index `i`, as far as
the calls below can tell. -/
structure Compacts (i : ℕ) (s s' : Raft n Cmd) : Prop where
  me : s'.me = s.me
  currentTerm : s'.currentTerm = s.currentTerm
  votedFor : s'.votedFor = s.votedFor
  state : s'.state = s.state
  commitIndex : s'.commitIndex = s.commitIndex
  matchIndex : s'.matchIndex = s.matchIndex
  included_le : s.lastIncludedIndex ≤ i
  included : s'.lastIncludedIndex = i
  le_commit : i ≤ s.commitIndex
  logs : Logs.Drops (i - s.lastIncludedIndex) s.logs s'.logs

/-- An accepted `Snapshot` compacts the log. -/
theorem compacts_of_snapshotUpTo {s s' : Raft n Cmd} {i : ℕ} {data : Bytes}
    (hinc : s.lastIncludedIndex < i) (hcommit : i ≤ s.commitIndex)
    (h : s.snapshotUpTo i data = some s') : Compacts i s s' := by
  rw [snapshotUpTo, if_neg (by omega)] at h
  obtain ⟨entry, hentry, rfl⟩ := Option.map_eq_some_iff.mp h
  exact
    { me := rfl
      currentTerm := rfl
      votedFor := rfl
      state := rfl
      commitIndex := rfl
      matchIndex := rfl
      included_le := hinc.le
      included := rfl
      le_commit := hcommit
      logs := ⟨⟨entry, hentry, rfl⟩, rfl⟩ }

namespace Compacts

variable {i : ℕ} {s s' : Raft n Cmd}

theorem lastLogIndex (h : Compacts i s s') : s'.lastLogIndex = s.lastLogIndex := by
  have hlen := h.logs.length_rest
  have hinc := h.included_le
  rw [lastLogIndex_eq, lastLogIndex_eq, h.included]
  omega

theorem realLogLen (h : Compacts i s s') : s'.realLogLen = s.realLogLen := by
  rw [realLogLen_eq, realLogLen_eq, h.lastLogIndex]

theorem le_lastLogIndex (h : Compacts i s s') : i ≤ s.lastLogIndex := by
  rw [← h.lastLogIndex, lastLogIndex_eq, h.included]
  exact Nat.le_add_right _ _

theorem lastLogTerm (h : Compacts i s s') : s'.lastLogTerm = s.lastLogTerm := h.logs.lastTerm

theorem isLogUpToDate (h : Compacts i s s') (term index : ℕ) :
    s'.isLogUpToDate term index = s.isLogUpToDate term index := by
  rw [Raft.isLogUpToDate, Raft.isLogUpToDate, h.lastLogTerm, h.lastLogIndex]

/-- The entries above the snapshot point are the same. -/
theorem entryAt? (h : Compacts i s s') {k : ℕ} (hk : i < k) : s'.entryAt? k = s.entryAt? k := by
  have hinc := h.included_le
  obtain ⟨j, rfl⟩ : ∃ j, k = i + (j + 1) := ⟨k - i - 1, by omega⟩
  rw [entryAt?_of_le s' (by rw [h.included]; omega), entryAt?_of_le s (by omega), h.included,
    Nat.add_sub_cancel_left, h.logs.get?_succ j, Nat.sub_add_comm hinc]

/-- So is the term at the snapshot point. -/
theorem entryAt?_term (h : Compacts i s s') {k : ℕ} (hk : i ≤ k) :
    (s'.entryAt? k).map LogEntry.term = (s.entryAt? k).map LogEntry.term := by
  have hinc := h.included_le
  obtain ⟨j, rfl⟩ : ∃ j, k = i + j := ⟨k - i, by omega⟩
  rw [entryAt?_of_le s' (by rw [h.included]; omega), entryAt?_of_le s (by omega), h.included,
    Nat.add_sub_cancel_left, h.logs.get?_term j, Nat.sub_add_comm hinc]

theorem persist (h : Compacts i s s') : Compacts i s.persist s'.persist := { h with }

theorem toFollower (h : Compacts i s s') : Compacts i s.toFollower s'.toFollower :=
  { h with state := rfl }

theorem adoptTerm (h : Compacts i s s') (term : ℕ) :
    Compacts i (s.adoptTerm term) (s'.adoptTerm term) := by
  unfold Raft.adoptTerm
  rw [h.currentTerm]
  split
  · exact { h with currentTerm := rfl, votedFor := rfl }
  · exact h

theorem followTerm (h : Compacts i s s') (term : ℕ) :
    Compacts i (s.followTerm term) (s'.followTerm term) := by
  unfold Raft.followTerm
  rw [h.currentTerm]
  split
  · exact { h with currentTerm := rfl, votedFor := rfl, state := rfl }
  · exact h

theorem requestVote (h : Compacts i s s') (args : RequestVoteArgs n) :
    Compacts i (s.requestVote args).1 (s'.requestVote args).1 ∧
      (s'.requestVote args).2 = (s.requestVote args).2 := by
  have hf := h.followTerm args.term
  have hstale : args.term < s'.currentTerm ↔ args.term < s.currentTerm := by
    rw [h.currentTerm]
  have hgrant : ((s'.followTerm args.term).votedFor = noVote ∨
        (s'.followTerm args.term).votedFor = (args.candidateId : ℕ)) ∧
        (s'.followTerm args.term).isLogUpToDate args.lastLogTerm args.lastLogIndex = true ↔
      ((s.followTerm args.term).votedFor = noVote ∨
        (s.followTerm args.term).votedFor = (args.candidateId : ℕ)) ∧
        (s.followTerm args.term).isLogUpToDate args.lastLogTerm args.lastLogIndex = true := by
    rw [hf.votedFor, hf.isLogUpToDate]
  unfold Raft.requestVote
  by_cases hlt : args.term < s.currentTerm
  · rw [if_pos hlt, if_pos (hstale.mpr hlt)]
    exact ⟨h, congrArg (RequestVoteReply.mk · false) h.currentTerm⟩
  · rw [if_neg hlt, if_neg (hstale.not.mpr hlt)]
    dsimp only
    split_ifs with hg hg' hg'
    · exact ⟨{ hf with votedFor := rfl }, congrArg (RequestVoteReply.mk · true) hf.currentTerm⟩
    · exact absurd (hgrant.mpr hg) hg'
    · exact absurd (hgrant.mp hg') hg
    · exact ⟨hf.persist, congrArg (RequestVoteReply.mk · false) hf.currentTerm⟩

theorem start (h : Compacts i s s') (command : Option Cmd) :
    Compacts i (s.start command).1 (s'.start command).1 ∧
      (s'.start command).2 = (s.start command).2 := by
  unfold Raft.start
  by_cases hleader : s.state = .leader
  · rw [if_neg (not_not.mpr hleader), if_neg (not_not.mpr (h.state.trans hleader))]
    have hpush : Compacts i
        (Raft.persist { s with
          logs := s.logs.push { term := s.currentTerm, cmd := command } })
        (Raft.persist { s' with
          logs := s'.logs.push { term := s'.currentTerm, cmd := command } }) := by
      refine { h with logs := ?_ }
      rw [h.currentTerm]
      exact h.logs.push _
    have hlast := hpush.lastLogIndex
    refine ⟨{ hpush with matchIndex := ?_ }, ?_⟩
    · dsimp only
      rw [hlast]
      exact congrArg₂ (fun m p => Function.update m p _) h.matchIndex h.me
    · exact congrArg₂ (fun (index term : ℕ) => ((index : ℤ), (term : ℤ), true)) hlast h.currentTerm
  · rw [if_pos hleader, if_pos fun hl => hleader (h.state.symm.trans hl)]
    exact ⟨h, rfl⟩

theorem succeedNum (h : Compacts i s s') {N : ℕ} (hN : i < N) :
    s'.succeedNum N = s.succeedNum N := by
  unfold Raft.succeedNum
  rw [h.matchIndex, h.currentTerm, h.entryAt? hN]

theorem checkAndCommitLogs (h : Compacts i s s') :
    ∃ r r', s.checkAndCommitLogs = some r ∧ s'.checkAndCommitLogs = some r' ∧
      Compacts i r r' := by
  have hle := h.le_commit
  -- the rounds of the loop are above `commitIndex`, where the two logs are the same
  have hloop : (List.range' (s'.commitIndex + 1) (s'.realLogLen - (s'.commitIndex + 1))).foldlM
        (fun N i => (s'.succeedNum i).map fun k => if n / 2 < k then i else N) s'.commitIndex =
      (List.range' (s.commitIndex + 1) (s.realLogLen - (s.commitIndex + 1))).foldlM
        (fun N i => (s.succeedNum i).map fun k => if n / 2 < k then i else N) s.commitIndex := by
    rw [h.commitIndex, h.realLogLen]
    refine foldlM_congr ?_ _
    intro N j hj
    rw [List.mem_range'_1] at hj
    rw [h.succeedNum (by omega)]
  obtain ⟨r, hr⟩ := Option.isSome_iff_exists.mp
    (checkAndCommitLogs_isSome (h.included_le.trans hle))
  have hr' := hr
  unfold Raft.checkAndCommitLogs at hr'
  obtain ⟨N, hN, rfl⟩ := Option.map_eq_some_iff.mp hr'
  have hs' : s'.checkAndCommitLogs =
      some (if s'.commitIndex < N then { s' with commitIndex := N } else s') := by
    unfold Raft.checkAndCommitLogs
    rw [hloop, hN, Option.map_some]
  refine ⟨_, _, hr, hs', ?_⟩
  by_cases hlt : s.commitIndex < N
  · rw [if_pos hlt, if_pos (h.commitIndex ▸ hlt)]
    exact { h with commitIndex := rfl, le_commit := hle.trans hlt.le }
  · rw [if_neg hlt, if_neg (h.commitIndex ▸ hlt)]
    exact h

theorem conflictSearch (h : Compacts i s s') (conflictTerm k : ℕ) (conflictIndex : ℤ) :
    s'.conflictSearch conflictTerm k conflictIndex =
      s.conflictSearch conflictTerm k conflictIndex := by
  induction k generalizing conflictIndex with
  | zero => rfl
  | succ k ih =>
      rw [Raft.conflictSearch, Raft.conflictSearch, h.commitIndex]
      by_cases hlt : s.commitIndex < k + 1
      · rw [if_pos hlt, if_pos hlt, h.entryAt? (h.le_commit.trans_lt hlt), ih]
      · rw [if_neg hlt, if_neg hlt]

theorem followCommit (h : Compacts i s s') (leaderCommit : ℕ) :
    Compacts i (s.followCommit leaderCommit) (s'.followCommit leaderCommit) := by
  have hle := h.le_commit
  unfold Raft.followCommit
  by_cases hlt : s.commitIndex < leaderCommit
  · rw [if_pos hlt, if_pos (h.commitIndex ▸ hlt)]
    refine { h with commitIndex := ?_, le_commit := le_min (by omega) h.le_lastLogIndex }
    rw [h.lastLogIndex]
  · rw [if_neg hlt, if_neg (h.commitIndex ▸ hlt)]
    exact h

theorem replicate (h : Compacts i s s') {args : AppendEntriesArgs n Cmd}
    (hprev : i ≤ args.prevLogIndex) :
    ∃ r r' reply, s.replicate args = some (r, reply) ∧ s'.replicate args = some (r', reply) ∧
      Compacts i r r' := by
  have hinc := h.included_le
  have hinc' := h.included
  have hsnap : ¬ args.prevLogIndex < s.lastIncludedIndex := by omega
  have hsnap' : ¬ args.prevLogIndex < s'.lastIncludedIndex := by omega
  unfold Raft.replicate
  rw [if_neg hsnap, if_neg hsnap']
  by_cases hlen : s.lastLogIndex < args.prevLogIndex
  · rw [if_pos hlen, if_pos (by rw [h.lastLogIndex]; exact hlen), h.currentTerm, h.realLogLen]
    exact ⟨_, _, _, rfl, rfl, h⟩
  rw [if_neg hlen, if_neg (by rw [h.lastLogIndex]; exact hlen)]
  obtain ⟨old, hold⟩ := Option.isSome_iff_exists.mp
    (s.entryAt?_isSome (hinc.trans hprev) (Nat.not_lt.mp hlen))
  have hterm := h.entryAt?_term hprev
  rw [hold, Option.map_some] at hterm
  obtain ⟨old', hold', hsame⟩ := Option.map_eq_some_iff.mp hterm
  rw [hold, hold', Option.bind_some, Option.bind_some, hsame]
  by_cases hconflict : old.term = args.prevLogTerm
  · rw [if_neg (not_not.mpr hconflict), if_neg (not_not.mpr hconflict)]
    have hcopy : Compacts i
        { s with logs := copyEntries s.logs (s.logIndex (args.prevLogIndex + 1)) args.entries }
        { s' with
          logs := copyEntries s'.logs (s'.logIndex (args.prevLogIndex + 1)) args.entries } := by
      refine { h with logs := ?_ }
      have hslot : s.logIndex (args.prevLogIndex + 1) =
          i - s.lastIncludedIndex + (args.prevLogIndex - i + 1) := by
        rw [logIndex]
        omega
      have hslot' : s'.logIndex (args.prevLogIndex + 1) = args.prevLogIndex - i + 1 := by
        rw [logIndex, hinc']
        omega
      rw [hslot, hslot']
      exact h.logs.copyEntries _ _
    exact ⟨_, _, _, rfl, congrArg (fun term => some (_, AppendEntriesReply.mk term true 0 0 0))
      h.currentTerm, hcopy.followCommit args.leaderCommit⟩
  · rw [if_pos hconflict, if_pos hconflict, h.conflictSearch, h.currentTerm, h.realLogLen]
    obtain ⟨conflictIndex, hsearch⟩ := Option.isSome_iff_exists.mp
      (conflictSearch_isSome (hinc.trans h.le_commit) old.term (Nat.not_lt.mp hlen) (-1))
    rw [hsearch]
    exact ⟨_, _, _, rfl, rfl, h⟩

theorem appendEntries (h : Compacts i s s') {args : AppendEntriesArgs n Cmd}
    (hprev : i ≤ args.prevLogIndex) :
    ∃ r r' reply, s.appendEntries args = some (r, reply) ∧
      s'.appendEntries args = some (r', reply) ∧ Compacts i r r' := by
  unfold Raft.appendEntries
  by_cases hlt : args.term < s.currentTerm
  · rw [if_pos hlt, if_pos (h.currentTerm ▸ hlt), h.currentTerm]
    exact ⟨_, _, _, rfl, rfl, h⟩
  · rw [if_neg hlt, if_neg (h.currentTerm ▸ hlt)]
    obtain ⟨r, r', reply, hr, hr', hrel⟩ := (h.toFollower.adoptTerm args.term).replicate hprev
    dsimp only
    rw [hr, hr']
    exact ⟨_, _, _, rfl, rfl, hrel.persist⟩

end Compacts

/-! ## Sequences of calls -/

/-- A call that a peer serves. -/
inductive Call (n : ℕ) (Cmd : Type*) where
  | requestVote (args : RequestVoteArgs n)
  | start (command : Option Cmd)
  | checkAndCommitLogs
  | appendEntries (args : AppendEntriesArgs n Cmd)

/-- What a call returns. -/
inductive Answer where
  | voted (reply : RequestVoteReply)
  | started (result : ℤ × ℤ × Bool)
  | checked
  | appended (reply : AppendEntriesReply)
deriving DecidableEq

/-- Serve a call. -/
def call (rf : Raft n Cmd) : Call n Cmd → Option (Raft n Cmd × Answer)
  | .requestVote args => some ((rf.requestVote args).1, .voted (rf.requestVote args).2)
  | .start command => some ((rf.start command).1, .started (rf.start command).2)
  | .checkAndCommitLogs => rf.checkAndCommitLogs.map fun rf => (rf, .checked)
  | .appendEntries args => (rf.appendEntries args).map fun r => (r.1, .appended r.2)

/-- Serve a sequence of calls, with the answer to each. -/
def calls : Raft n Cmd → List (Call n Cmd) → Option (Raft n Cmd × List Answer)
  | rf, [] => some (rf, [])
  | rf, c :: cs => (rf.call c).bind fun r => (calls r.1 cs).map fun t => (t.1, r.2 :: t.2)

/-- The call does not reach below the index `i`. -/
def Call.From (i : ℕ) : Call n Cmd → Prop
  | .appendEntries args => i ≤ args.prevLogIndex
  | _ => True

theorem Compacts.call {i : ℕ} {s s' : Raft n Cmd} (h : Compacts i s s') {c : Call n Cmd}
    (hc : c.From i) :
    ∃ r r' answer, s.call c = some (r, answer) ∧ s'.call c = some (r', answer) ∧
      Compacts i r r' := by
  cases c with
  | requestVote args =>
      obtain ⟨hrel, hreply⟩ := h.requestVote args
      exact ⟨_, _, _, rfl, by rw [Raft.call, hreply], hrel⟩
  | start command =>
      obtain ⟨hrel, hresult⟩ := h.start command
      exact ⟨_, _, _, rfl, by rw [Raft.call, hresult], hrel⟩
  | checkAndCommitLogs =>
      obtain ⟨r, r', hr, hr', hrel⟩ := h.checkAndCommitLogs
      exact ⟨r, r', .checked, by rw [Raft.call, hr, Option.map_some],
        by rw [Raft.call, hr', Option.map_some], hrel⟩
  | appendEntries args =>
      obtain ⟨r, r', reply, hr, hr', hrel⟩ := h.appendEntries hc
      exact ⟨r, r', .appended reply, by rw [Raft.call, hr, Option.map_some],
        by rw [Raft.call, hr', Option.map_some], hrel⟩

theorem Compacts.calls {i : ℕ} {s s' : Raft n Cmd} (h : Compacts i s s') {cs : List (Call n Cmd)}
    (hcs : ∀ c ∈ cs, c.From i) :
    ∃ r r' answers, s.calls cs = some (r, answers) ∧ s'.calls cs = some (r', answers) ∧
      Compacts i r r' := by
  induction cs generalizing s s' with
  | nil => exact ⟨s, s', [], rfl, rfl, h⟩
  | cons c cs ih =>
      obtain ⟨r, r', answer, hr, hr', hrel⟩ := h.call (hcs c List.mem_cons_self)
      obtain ⟨t, t', answers, ht, ht', hrel'⟩ := ih hrel fun c hc =>
        hcs c (List.mem_cons_of_mem _ hc)
      refine ⟨t, t', answer :: answers, ?_, ?_, hrel'⟩
      · rw [Raft.calls, hr, Option.bind_some, ht, Option.map_some]
      · rw [Raft.calls, hr', Option.bind_some, ht', Option.map_some]

/-- What the calls can see of two peers is the same above the index `i`. -/
structure AgreeAbove (i : ℕ) (s s' : Raft n Cmd) : Prop where
  currentTerm : s'.currentTerm = s.currentTerm
  votedFor : s'.votedFor = s.votedFor
  state : s'.state = s.state
  commitIndex : s'.commitIndex = s.commitIndex
  matchIndex : s'.matchIndex = s.matchIndex
  lastLogIndex : s'.lastLogIndex = s.lastLogIndex
  lastLogTerm : s'.lastLogTerm = s.lastLogTerm
  entries : ∀ k, i < k → s'.entryAt? k = s.entryAt? k

/-- After an accepted `Snapshot` up to the index `i`, every sequence of calls that does
not reach below `i` is answered as if the log had not been compacted. -/
theorem snapshotUpTo_transparent {s : Raft n Cmd} {i : ℕ}
    (haccepted : s.lastIncludedIndex < i ∧ i ≤ s.commitIndex)
    (hlast : s.commitIndex ≤ s.lastLogIndex) (data : Bytes) {cs : List (Call n Cmd)}
    (hcs : ∀ c ∈ cs, c.From i) :
    ∃ s', s.snapshotUpTo i data = some s' ∧ ∃ r r' answers,
      s.calls cs = some (r, answers) ∧ s'.calls cs = some (r', answers) ∧ AgreeAbove i r r' := by
  obtain ⟨s', hs'⟩ := Option.isSome_iff_exists.mp (snapshotUpTo_isSome hlast i data)
  have h := compacts_of_snapshotUpTo haccepted.1 haccepted.2 hs'
  obtain ⟨r, r', answers, hr, hr', hrel⟩ := h.calls hcs
  exact ⟨s', hs', r, r', answers, hr, hr',
    { currentTerm := hrel.currentTerm
      votedFor := hrel.votedFor
      state := hrel.state
      commitIndex := hrel.commitIndex
      matchIndex := hrel.matchIndex
      lastLogIndex := hrel.lastLogIndex
      lastLogTerm := hrel.lastLogTerm
      entries := fun _ hk => hrel.entryAt? hk }⟩

/-- A follower of term 3 with four entries, the first two committed. -/
def fourEntries : Raft 3 ℕ where
  me := 1
  currentTerm := 3
  votedFor := noVote
  state := .follower
  logs :=
    { zero := { term := 0, cmd := none }
      rest := [{ term := 1, cmd := some 5 }, { term := 2, cmd := some 6 },
        { term := 2, cmd := some 7 }, { term := 2, cmd := some 8 }] }
  commitIndex := 2
  lastApplied := 2
  nextIndex := fun _ => 0
  matchIndex := fun _ => 0
  snapshot := []
  lastIncludedIndex := 0
  replicatePreSnapshot := false
  persister := {}
  voteGrantedCnt := 0

/-- A request that conflicts above the snapshot point, one that starts at it, and a
candidate with an older log. -/
def aboveSecond : List (Call 3 ℕ) :=
  [.appendEntries
      { term := 3, leaderId := 0, prevLogIndex := 4, prevLogTerm := 3, entries := [],
        leaderCommit := 2 },
    .appendEntries
      { term := 3, leaderId := 0, prevLogIndex := 2, prevLogTerm := 2,
        entries := [{ term := 3, cmd := some 9 }], leaderCommit := 3 },
    .requestVote { term := 4, candidateId := 2, lastLogIndex := 4, lastLogTerm := 2 }]

theorem snapshotUpTo_transparent_aboveSecond :
    ∃ s', fourEntries.snapshotUpTo 2 [0] = some s' ∧ ∃ r r' answers,
      fourEntries.calls aboveSecond = some (r, answers) ∧
        s'.calls aboveSecond = some (r', answers) ∧ AgreeAbove 2 r r' :=
  snapshotUpTo_transparent (by decide) (by decide) [0]
    (by simp [aboveSecond, Call.From])

end Raft

end DistributedLabs
