import DistributedLabs.Consensus.BackUp
import DistributedLabs.Raft.FullLog
import DistributedLabs.Raft.NextIndex

/-!
# Bringing a follower up to date

A leader and one follower repeat the same round without losses: the leader sends
what `broadcastHeartbeat` sends to the follower, the follower handles it, and the
leader handles the reply. `nextIndex` is moved by three reports of the follower, by
the search of `findNextIndex` and by `InstallSnapshot`, and the two logs are
compacted up to different points. Each round is a probe of the search in
`Consensus.BackUp`, over the full logs behind the compacted ones; the rounds bring
the follower up to date from the states in which that search comes to an end.
-/

namespace DistributedLabs

namespace Raft

open Consensus

variable {n : ℕ} {Cmd : Type*}

/-! ## Rounds -/

/-- A leader and a follower between two rounds, and whether the last round was
answered by a successful `AppendEntries` reply. -/
structure Link (n : ℕ) (Cmd : Type*) where
  leader : Raft n Cmd
  follower : Raft n Cmd
  success : Bool

namespace Link

/-- A round without losses between the leader and the peer `p`. -/
def round (p : Fin n) (s : Link n Cmd) : Option (Link n Cmd) :=
  (s.leader.heartbeatTo p).bind fun
    | .installSnapshot _ args =>
        let r := s.follower.installSnapshot args
        some { leader := s.leader.handleSendInstallSnapshot p args r.2.1
               follower := r.1
               success := false }
    | .appendEntries _ args =>
        (s.follower.appendEntries args).bind fun r =>
          (s.leader.handleSendAppendEntries p args r.2).map fun leader =>
            { leader := leader, follower := r.1, success := r.2.success }

/-- `N` rounds, and nothing else. -/
def rounds (p : Fin n) : ℕ → Link n Cmd → Option (Link n Cmd)
  | 0, s => some s
  | N + 1, s => (s.round p).bind (rounds p N)

/-- After finitely many rounds an `AppendEntries` reply is successful and the leader
knows the follower to have its whole log. -/
def CatchesUp (p : Fin n) (s : Link n Cmd) : Prop :=
  ∃ N s', s.rounds p (N + 1) = some s' ∧ s'.success = true ∧
    s'.leader.matchIndex p = s'.leader.lastLogIndex

theorem CatchesUp.of_round {p : Fin n} {s s' : Link n Cmd} (hround : s.round p = some s')
    (h : s'.CatchesUp p) : s.CatchesUp p := by
  obtain ⟨N, s'', hrounds, hdone⟩ := h
  refine ⟨N + 1, s'', ?_, hdone⟩
  rw [rounds, hround]
  exact hrounds

theorem CatchesUp.of_success {p : Fin n} {s s' : Link n Cmd} (hround : s.round p = some s')
    (hsuccess : s'.success = true) (hmatch : s'.leader.matchIndex p = s'.leader.lastLogIndex) :
    s.CatchesUp p := by
  refine ⟨0, s', ?_, hsuccess, hmatch⟩
  rw [rounds, hround]
  rfl

end Link

/-! ## The follower -/

theorem adoptTerm_currentTerm_of_le {rf : Raft n Cmd} {term : ℕ} (h : rf.currentTerm ≤ term) :
    (rf.adoptTerm term).currentTerm = term := by
  rcases adoptTerm_cases rf term with ⟨hle, he⟩ | ⟨-, he⟩
  · rw [he]
    exact le_antisymm h hle
  · rw [he]

/-- The search reports an entry of the conflicting term above `commitIndex`, or what
it was started with. -/
theorem conflictSearch_cases {rf : Raft n Cmd} {conflictTerm i : ℕ} {conflictIndex r : ℤ}
    (h : rf.conflictSearch conflictTerm i conflictIndex = some r) :
    (r = conflictIndex ∧ (i ≤ rf.commitIndex ∨
      ∃ entry, rf.entryAt? i = some entry ∧ entry.term ≠ conflictTerm)) ∨
    ∃ first : ℕ, r = first ∧ rf.commitIndex < first ∧ first ≤ i ∧
      ∃ entry, rf.entryAt? first = some entry ∧ entry.term = conflictTerm := by
  induction i generalizing conflictIndex with
  | zero => exact Or.inl ⟨(Option.some.inj h).symm, Or.inl (Nat.zero_le _)⟩
  | succ i ih =>
      rw [conflictSearch] at h
      split at h
      · rename_i hcommit
        obtain ⟨entry, hentry, h⟩ := Option.bind_eq_some_iff.mp h
        split at h
        · rename_i hterm
          exact Or.inl ⟨(Option.some.inj h).symm, Or.inr ⟨entry, hentry, hterm⟩⟩
        · rename_i hterm
          rcases ih h with ⟨rfl, -⟩ | ⟨first, hr, hlt, hle, hfirst⟩
          · exact Or.inr ⟨i + 1, rfl, hcommit, le_rfl, entry, hentry, not_not.mp hterm⟩
          · exact Or.inr ⟨first, hr, hlt, hle.trans (Nat.le_succ i), hfirst⟩
      · rename_i hcommit
        exact Or.inl ⟨(Option.some.inj h).symm, Or.inl (Nat.not_lt.mp hcommit)⟩

/-- What a peer becomes when it hears from the leader of a term that is not stale. -/
theorem toFollower_adoptTerm_of_le {rf : Raft n Cmd} {term : ℕ} (h : rf.currentTerm ≤ term) :
    ∃ vote, rf.toFollower.adoptTerm term =
      { rf with currentTerm := term, votedFor := vote, state := .follower } := by
  rcases adoptTerm_cases rf.toFollower term with ⟨hle, he⟩ | ⟨-, he⟩
  · obtain rfl : rf.currentTerm = term := le_antisymm h hle
    exact ⟨rf.votedFor, he⟩
  · exact ⟨noVote, he⟩

/-- How a follower answers a request that is not stale. A failure leaves the log and
the indices alone. -/
theorem appendEntries_answer {rf : Raft n Cmd} {args : AppendEntriesArgs n Cmd}
    (hterm : rf.currentTerm ≤ args.term) (hinc : rf.lastIncludedIndex ≤ rf.commitIndex) :
    ∃ rf' reply, rf.appendEntries args = some (rf', reply) ∧ reply.term = args.term ∧
      ((reply.success = true ∧ rf.lastIncludedIndex ≤ args.prevLogIndex ∧
        args.prevLogIndex ≤ rf.lastLogIndex ∧
        ∃ old, rf.entryAt? args.prevLogIndex = some old ∧ old.term = args.prevLogTerm) ∨
      (reply.success = false ∧ rf'.currentTerm = args.term ∧ rf'.logs = rf.logs ∧
        rf'.lastIncludedIndex = rf.lastIncludedIndex ∧ rf'.commitIndex = rf.commitIndex ∧
        ((args.prevLogIndex < rf.lastIncludedIndex ∧ reply.xTerm = 0 ∧ reply.xIndex = 0) ∨
        (rf.lastLogIndex < args.prevLogIndex ∧ reply.xTerm = -1 ∧ reply.xIndex = -1 ∧
          reply.xLen = rf.realLogLen) ∨
        (rf.lastIncludedIndex ≤ args.prevLogIndex ∧ args.prevLogIndex ≤ rf.lastLogIndex ∧
          ∃ old, rf.entryAt? args.prevLogIndex = some old ∧ old.term ≠ args.prevLogTerm ∧
            reply.xTerm = old.term ∧ (rf.commitIndex < args.prevLogIndex →
              ∃ first : ℕ, reply.xIndex = first ∧ rf.commitIndex < first ∧
                first ≤ args.prevLogIndex ∧
                ∃ entry, rf.entryAt? first = some entry ∧ entry.term = old.term))))) := by
  obtain ⟨⟨rf', reply⟩, hr⟩ := Option.isSome_iff_exists.mp (appendEntries_isSome hinc args)
  refine ⟨rf', reply, hr, ?_⟩
  rcases appendEntries_cases hr with ⟨hstale, -, -⟩ | ⟨-, rf₁, hrep, rfl⟩
  · omega
  obtain ⟨vote, he⟩ := toFollower_adoptTerm_of_le hterm
  rw [he] at hrep
  cases hsuccess : reply.success with
  | true =>
      rcases replicate_cases hrep with ⟨-, -, hfail⟩ | ⟨old, hle, hlast, hold, hterm, -, rfl⟩
      · exact absurd (hfail.symm.trans hsuccess) Bool.false_ne_true
      · exact ⟨rfl, Or.inl ⟨rfl, hle, hlast, old, hold, hterm⟩⟩
  | false =>
      rcases replicate_cases hrep with ⟨rfl, hreply, -⟩ | ⟨_, _, _, _, _, _, rfl⟩
      · refine ⟨hreply, Or.inr ⟨rfl, rfl, rfl, rfl, rfl, ?_⟩⟩
        rcases replicate_failure hrep hsuccess with
          ⟨hlt, rfl⟩ | ⟨-, hlt, rfl⟩ | ⟨hle, hlast, old, conflictIndex, hold, hne, hsearch, rfl⟩
        · exact Or.inl ⟨hlt, rfl, rfl⟩
        · exact Or.inr (Or.inl ⟨hlt, rfl, rfl, rfl⟩)
        · refine Or.inr (Or.inr ⟨hle, hlast, old, hold, hne, rfl, fun hcommit => ?_⟩)
          rcases conflictSearch_cases hsearch with ⟨-, hle' | ⟨e, hentry, hne'⟩⟩ | hfirst
          · exact absurd hcommit (Nat.not_lt.mpr hle')
          · exact absurd (congrArg LogEntry.term (Option.some.inj (hentry.symm.trans hold))) hne'
          · exact hfirst
      · cases hsuccess

/-- How a peer handles an offered snapshot of a term that is not stale. -/
theorem installSnapshot_answer {rf : Raft n Cmd} {args : InstallSnapshotArgs n}
    (hterm : rf.currentTerm ≤ args.term) (hinc : rf.lastIncludedIndex ≤ rf.commitIndex) :
    ∃ rf' reply msg, rf.installSnapshot args = (rf', reply, msg) ∧ reply.term = args.term ∧
      rf'.currentTerm = args.term ∧
      ((args.lastIncludedIndex ≤ rf.commitIndex ∧ rf'.logs = rf.logs ∧
        rf'.lastIncludedIndex = rf.lastIncludedIndex ∧ rf'.commitIndex = rf.commitIndex) ∨
      (rf.commitIndex < args.lastIncludedIndex ∧ rf'.logs.zero.term = args.lastIncludedTerm ∧
        rf'.lastIncludedIndex = args.lastIncludedIndex ∧
        rf'.commitIndex = args.lastIncludedIndex)) := by
  have hadopt := adoptTerm_currentTerm_of_le hterm
  obtain ⟨vote, he⟩ := toFollower_adoptTerm_of_le hterm
  rw [toFollower_adoptTerm] at he
  rcases installSnapshot_cases rf args with ⟨hstale, -⟩ | ⟨-, hle, h⟩ | ⟨-, -, hlt, h⟩
  · omega
  · rw [he] at h
    exact ⟨_, _, _, h, hadopt, rfl, Or.inl ⟨by omega, rfl, rfl, rfl⟩⟩
  · rw [he] at h
    exact ⟨_, _, _, h, hadopt, rfl, Or.inr ⟨hlt, rfl, rfl, rfl⟩⟩

/-! ## The leader -/

/-- A leader with the full log `lead` that is about to probe the peer `p` from
`next`. -/
structure Probes (rf : Raft n Cmd) (p : Fin n) (lead : List (LogEntry Cmd)) (next : ℕ) :
    Prop where
  state : rf.state = .leader
  log : rf.Keeps lead
  indices : rf.lastIncludedIndex ≤ rf.commitIndex
  next_eq : rf.nextIndex p = next
  next_le : next ≤ lead.length + 1

namespace Probes

variable {rf : Raft n Cmd} {p : Fin n} {lead : List (LogEntry Cmd)} {next prev : ℕ}

/-- The leader probes from another index and has learned what the peer holds. -/
theorem retarget (h : rf.Probes p lead next) (matchIndex : Fin n → ℕ) {next' : ℤ} {k : ℕ}
    (hnext : next' = k) (hk : k ≤ lead.length + 1) :
    Probes { rf with matchIndex := matchIndex, nextIndex := Function.update rf.nextIndex p next' }
      p lead k where
  state := h.state
  log := h.log
  indices := h.indices
  next_eq := (Function.update_self p next' rf.nextIndex).trans hnext
  next_le := hk

/-- A slot carries the term of the full log at its real index. -/
theorem slot_term (h : rf.Probes p lead next) {i : ℕ} {slot : LogEntry Cmd}
    (hslot : rf.logs.get? i = some slot) :
    rf.realIndex i ≤ lead.length ∧ termAt LogEntry.term lead (rf.realIndex i) = slot.term := by
  have hlt := (List.getElem?_eq_some_iff.mp hslot).1
  have hlen := h.log.length_rest
  rw [Logs.slots, List.length_cons] at hlt
  refine ⟨?_, ?_⟩
  · rw [realIndex]
    omega
  · refine (h.log.get?_term (Nat.le_add_right _ i) ?_).symm
    rwa [Nat.add_sub_cancel_left]

/-- Every real index from the snapshot point on has a slot. -/
theorem exists_slot (h : rf.Probes p lead next) {i : ℕ} (hinc : rf.lastIncludedIndex ≤ i)
    (hi : i ≤ lead.length) :
    ∃ slot, rf.logs.get? (i - rf.lastIncludedIndex) = some slot ∧
      termAt LogEntry.term lead i = slot.term := by
  have hsome := rf.entryAt?_isSome hinc (hi.trans h.log.lastLogIndex.ge)
  rw [entryAt?_of_le rf hinc] at hsome
  obtain ⟨slot, hslot⟩ := Option.isSome_iff_exists.mp hsome
  have hterm := (h.slot_term hslot).2
  rw [realIndex, Nat.add_sub_cancel' hinc] at hterm
  exact ⟨slot, hslot, hterm⟩

/-- What the leader sends: its snapshot, or all entries above an index. -/
theorem heartbeatTo (h : rf.Probes p lead next) :
    (next ≤ rf.lastIncludedIndex ∧ ∃ args, rf.heartbeatTo p = some (.installSnapshot p args) ∧
      args.term = rf.currentTerm ∧ args.lastIncludedIndex = rf.lastIncludedIndex ∧
      args.lastIncludedTerm = rf.logs.zero.term) ∨
    ∃ args, rf.heartbeatTo p = some (.appendEntries p args) ∧ args.term = rf.currentTerm ∧
      next = args.prevLogIndex + 1 ∧ rf.lastIncludedIndex ≤ args.prevLogIndex ∧
      args.prevLogTerm = termAt LogEntry.term lead args.prevLogIndex ∧
      args.prevLogIndex + args.entries.length = lead.length := by
  have hlast := h.log.lastLogIndex
  have hlen := h.log.length_rest
  have hnext := h.next_eq
  have hle : rf.nextIndex p ≤ rf.realLogLen := by
    rw [realLogLen_eq, hlast, hnext]
    exact_mod_cast h.next_le
  obtain ⟨out, hout⟩ := Option.isSome_iff_exists.mp (heartbeatTo_isSome hle)
  rcases heartbeatTo_cases hout with ⟨hinc, rfl⟩ | ⟨prev, old, hprev, hinc, hprev', hold, rfl⟩
  · exact Or.inl ⟨by omega, _, hout, rfl, rfl, rfl⟩
  · have hnext' : next = prev + 1 := by omega
    refine Or.inr ⟨_, hout, rfl, hnext', hinc, h.log.entryAt?_term hinc hold, ?_⟩
    change prev + (rf.logs.rest.drop _).length = _
    rw [List.length_drop]
    omega

/-- A leader does not ignore the reply to a request of its term. -/
theorem not_outdated (h : rf.Probes p lead next) {term : ℕ} (hterm : term = rf.currentTerm) :
    ¬ (rf.currentTerm ≠ term ∨ rf.state ≠ .leader) := by
  rw [not_or, not_not, not_not]
  exact ⟨hterm.symm, h.state⟩

/-- A successful reply of the current term shows that the peer has the whole log. -/
theorem handle_success (h : rf.Probes p lead next) {args : AppendEntriesArgs n Cmd}
    {reply : AppendEntriesReply} (hterm : args.term = rf.currentTerm)
    (hreply : reply.term = rf.currentTerm) (hsuccess : reply.success = true)
    (hsent : args.prevLogIndex + args.entries.length = lead.length) :
    ∃ rf', rf.handleSendAppendEntries p args reply = some rf' ∧
      rf'.matchIndex p = max (rf.matchIndex p) lead.length ∧
      rf'.lastLogIndex = lead.length := by
  obtain ⟨rf', hrf'⟩ := Option.isSome_iff_exists.mp
    (handleSendAppendEntries_isSome h.indices p args reply)
  refine ⟨rf', hrf', ?_⟩
  rw [handleSendAppendEntries, if_neg (h.not_outdated hterm), if_neg (by omega),
    if_pos hsuccess] at hrf'
  obtain ⟨N, rfl⟩ := checkAndCommitLogs_eq hrf'
  refine ⟨?_, h.log.lastLogIndex⟩
  rw [← hsent]
  exact Function.update_self _ _ _

/-- A failure of the current term makes the leader look for another index. -/
theorem handle_failure (h : rf.Probes p lead next) {args : AppendEntriesArgs n Cmd}
    {reply : AppendEntriesReply} (hterm : args.term = rf.currentTerm)
    (hreply : reply.term = rf.currentTerm) (hfail : reply.success = false) :
    rf.handleSendAppendEntries p args reply = some (rf.findNextIndex p reply) := by
  rw [handleSendAppendEntries, if_neg (h.not_outdated hterm), if_neg (by omega),
    if_neg (by simp [hfail])]

/-- A reply of the current term to an offered snapshot moves the leader to the first
entry above its snapshot point. -/
theorem handle_install (h : rf.Probes p lead next) {args : InstallSnapshotArgs n}
    {reply : InstallSnapshotReply} (hterm : args.term = rf.currentTerm)
    (hreply : reply.term = rf.currentTerm) (hnext : next ≤ args.lastIncludedIndex) :
    rf.handleSendInstallSnapshot p args reply =
      { rf with
        matchIndex := Function.update rf.matchIndex p
          (max (rf.matchIndex p) args.lastIncludedIndex)
        nextIndex := Function.update rf.nextIndex p (args.lastIncludedIndex + 1 : ℕ) } := by
  have hmax : max (rf.nextIndex p) (args.lastIncludedIndex + 1 : ℕ) =
      (args.lastIncludedIndex + 1 : ℕ) := by
    rw [h.next_eq]
    omega
  rw [handleSendInstallSnapshot, if_neg (h.not_outdated hterm), if_neg (by omega), hmax]

end Probes

/-! ## A round is a probe -/

namespace Link

/-- The two peers of the link have the logs, the snapshot points and the commit index
of `w`, and the leader is about to probe from `next`. -/
structure Shows (p : Fin n) (w : Pair (LogEntry.term : LogEntry Cmd → ℕ)) (next : ℕ)
    (s : Link n Cmd) : Prop where
  probes : s.leader.Probes p w.lead next
  leadCut : s.leader.lastIncludedIndex = w.leadCut
  term : s.follower.currentTerm ≤ s.leader.currentTerm
  log : s.follower.Keeps w.log
  cut : s.follower.lastIncludedIndex = w.cut
  commit : s.follower.commitIndex = w.commit

/-- The follower has taken over the snapshot of the leader, which is about to send
the entries above it. -/
structure Installed (p : Fin n) (lead : List (LogEntry Cmd)) (s : Link n Cmd) : Prop where
  probes : s.leader.Probes p lead (s.leader.lastIncludedIndex + 1)
  term : s.follower.currentTerm ≤ s.leader.currentTerm
  included : s.follower.lastIncludedIndex = s.leader.lastIncludedIndex
  commit : s.follower.lastIncludedIndex ≤ s.follower.commitIndex
  zero : s.follower.logs.zero.term = s.leader.logs.zero.term

/-- The follower accepts the probe, and the leader knows it to have the whole log. -/
structure Accepted (p : Fin n) (lead : List (LogEntry Cmd)) (s s' : Link n Cmd) : Prop where
  success : s'.success = true
  matched : s'.leader.matchIndex p = max (s.leader.matchIndex p) lead.length
  last : s'.leader.lastLogIndex = lead.length

variable {p : Fin n} {w : Pair (LogEntry.term : LogEntry Cmd → ℕ)} {next : ℕ}
  {lead : List (LogEntry Cmd)} {s s' : Link n Cmd}

/-- The leader sends entries, and the follower answers. -/
theorem round_appendEntries {args : AppendEntriesArgs n Cmd} {rf rf' : Raft n Cmd}
    {reply : AppendEntriesReply}
    (hsend : s.leader.heartbeatTo p = some (.appendEntries p args))
    (hanswer : s.follower.appendEntries args = some (rf, reply))
    (hhandle : s.leader.handleSendAppendEntries p args reply = some rf') :
    s.round p = some { leader := rf', follower := rf, success := reply.success } := by
  rw [round, hsend, Option.bind_some]
  change (s.follower.appendEntries args).bind _ = _
  rw [hanswer, Option.bind_some]
  change (s.leader.handleSendAppendEntries p args reply).map _ = _
  rw [hhandle]
  rfl

theorem Installed.round (h : s.Installed p lead) :
    ∃ s', s.round p = some s' ∧ Accepted p lead s s' := by
  rcases h.probes.heartbeatTo with ⟨hle, -⟩ | ⟨args, hsend, hargs, hprev, -, hprevTerm, hsent⟩
  · omega
  have hprev : args.prevLogIndex = s.leader.lastIncludedIndex := by omega
  have hslot : s.follower.entryAt? args.prevLogIndex = some s.follower.logs.zero := by
    rw [hprev, ← h.included, entryAt?_of_le _ le_rfl, Nat.sub_self, Logs.get?_zero]
  have hterm : s.follower.logs.zero.term = args.prevLogTerm := by
    have hle : s.leader.lastIncludedIndex ≤ lead.length := by omega
    obtain ⟨slot, hget, hterm⟩ := h.probes.exists_slot le_rfl hle
    rw [Nat.sub_self, Logs.get?_zero] at hget
    rw [h.zero, hprevTerm, hprev, hterm, Option.some.inj hget]
  have hlast : s.leader.lastIncludedIndex ≤ s.follower.lastLogIndex := by
    rw [lastLogIndex_eq, h.included]
    exact Nat.le_add_right _ _
  have hinc := h.included
  obtain ⟨rf, reply, hanswer, hreply, ⟨hsuccess, -⟩ |
    ⟨-, -, -, -, -, ⟨hlt, -⟩ | ⟨hlt, -⟩ | ⟨-, -, old, hold, hne, -⟩⟩⟩ :=
    appendEntries_answer (hargs ▸ h.term) h.commit
  · obtain ⟨rf', hhandle, hmatch, hlast⟩ :=
      h.probes.handle_success hargs (hreply.trans hargs) hsuccess hsent
    exact ⟨_, round_appendEntries hsend hanswer hhandle, hsuccess, hmatch, hlast⟩
  · omega
  · omega
  · rw [← Option.some.inj (hslot.symm.trans hold)] at hne
    exact absurd hterm hne

/-- What a round does to a link: the follower accepts the probe, takes over the
snapshot, or sends the leader to another index. -/
inductive Probed (p : Fin n) (w : Pair (LogEntry.term : LogEntry Cmd → ℕ)) (next : ℕ)
    (s s' : Link n Cmd) : Prop where
  | accepted {prev : ℕ} (hnext : next = prev + 1) (fits : w.Fits prev)
      (len : prev ≤ w.lead.length) (h : Accepted p w.lead s s')
  | installed (needed : w.commit < w.leadCut) (failed : s'.success = false)
      (matched : s'.leader.matchIndex p ≤ max (s.leader.matchIndex p) w.lead.length)
      (h : s'.Installed p w.lead)
  | moved {next' : ℕ} (moves : w.Moves next next') (failed : s'.success = false)
      (matched : s'.leader.matchIndex p ≤ max (s.leader.matchIndex p) w.lead.length)
      (h : s'.Shows p w next')

theorem Shows.follower_term (h : s.Shows p w next) {i : ℕ} {entry : LogEntry Cmd}
    (hi : w.cut ≤ i) (hentry : s.follower.entryAt? i = some entry) :
    entry.term = termAt LogEntry.term w.log i :=
  h.log.entryAt?_term (h.cut.trans_le hi) hentry

/-- The leader looks for another index and the follower stays as it is. -/
theorem Shows.retarget (h : s.Shows p w next) {rf : Raft n Cmd} {reply : AppendEntriesReply}
    {success : Bool} {next' : ℕ} (hterm : rf.currentTerm = s.leader.currentTerm)
    (hlogs : rf.logs = s.follower.logs)
    (hinc : rf.lastIncludedIndex = s.follower.lastIncludedIndex)
    (hcommit : rf.commitIndex = s.follower.commitIndex)
    (hnext : (s.leader.findNextIndex p reply).nextIndex p = next')
    (hle : next' ≤ w.lead.length + 1) :
    Shows p w next'
      { leader := s.leader.findNextIndex p reply, follower := rf, success := success } where
  probes := { h.probes with next_eq := hnext, next_le := hle }
  leadCut := h.leadCut
  term := hterm.le
  log := by
    change rf.logs.Holds rf.lastIncludedIndex w.log
    rw [hlogs, hinc]
    exact h.log
  cut := hinc.trans h.cut
  commit := hcommit.trans h.commit

/-- A report that names no conflict sends the leader to index 0. -/
theorem Shows.findNextIndex_zero (h : s.Shows p w next) {reply : AppendEntriesReply}
    (hterm : reply.xTerm = 0) (hindex : reply.xIndex = 0) :
    (s.leader.findNextIndex p reply).nextIndex p = (0 : ℕ) := by
  obtain ⟨next', he, hnext⟩ := findNextIndex_cases s.leader p reply
  rw [he]
  refine (Function.update_self p next' s.leader.nextIndex).trans ?_
  rcases hnext with ⟨hxterm, -⟩ | ⟨-, i, slot, hslot, hslotTerm, -, rfl⟩ | ⟨-, -, rfl⟩
  · omega
  · obtain ⟨hle, hterm'⟩ := h.probes.slot_term hslot
    rcases Nat.eq_zero_or_pos (s.leader.realIndex i) with hzero | hpos
    · rw [hzero]
    · have := termAt_pos w.related.pos_left hpos hle
      omega
  · exact hindex

theorem Shows.findNextIndex_short (h : s.Shows p w next) {reply : AppendEntriesReply}
    (hterm : reply.xTerm = -1) (hindex : reply.xIndex = -1)
    (hlen : reply.xLen = s.follower.realLogLen) :
    (s.leader.findNextIndex p reply).nextIndex p = (w.log.length + 1 : ℕ) := by
  obtain ⟨next', he, hnext⟩ := findNextIndex_cases s.leader p reply
  rw [he]
  refine (Function.update_self p next' s.leader.nextIndex).trans ?_
  rcases hnext with ⟨-, -, rfl⟩ | ⟨hnot, -⟩ | ⟨hnot, -⟩
  · rw [hlen, realLogLen_eq, h.log.lastLogIndex]
  · exact absurd ⟨hterm, hindex⟩ hnot
  · exact absurd ⟨hterm, hindex⟩ hnot

/-- A conflict sends the leader to its last entry of the conflicting term, or to the
entry that the follower names. -/
theorem Shows.findNextIndex_conflict (h : s.Shows p w next) {reply : AppendEntriesReply}
    {prev first : ℕ} (hconflict : w.Conflicts prev)
    (hterm : reply.xTerm = termAt LogEntry.term w.log prev) (hindex : reply.xIndex = first)
    (hcommit : w.commit < first) (hle : first ≤ prev)
    (hfirst : termAt LogEntry.term w.log first = termAt LogEntry.term w.log prev) :
    ∃ next' : ℕ, (s.leader.findNextIndex p reply).nextIndex p = next' ∧
      w.Moves (prev + 1) next' := by
  obtain ⟨next', he, hnext⟩ := findNextIndex_cases s.leader p reply
  have hnext' : (s.leader.findNextIndex p reply).nextIndex p = next' := by
    rw [he]
    exact Function.update_self p next' s.leader.nextIndex
  have hcut := h.leadCut
  rw [hnext']
  rcases hnext with ⟨hxterm, -⟩ | ⟨-, i, slot, hslot, hslotTerm, hlast, rfl⟩ | ⟨-, hnone, rfl⟩
  · omega
  · obtain ⟨hlen, hslotTerm'⟩ := h.probes.slot_term hslot
    refine ⟨_, rfl, .shared hconflict ?_ hlen (by omega) ?_⟩
    · rw [← hcut]
      exact Nat.le_add_right _ _
    · intro j hj hjlen hterm'
      rw [realIndex] at hj
      obtain ⟨slot', hslot', hslotTerm''⟩ := h.probes.exists_slot (by omega) hjlen
      exact hlast _ slot' (by omega) hslot' (by omega)
  · refine ⟨first, hindex, .foreign hconflict ?_ hcommit hle hfirst⟩
    intro j hj hjlen hterm'
    obtain ⟨slot', hslot', hslotTerm''⟩ := h.probes.exists_slot (hcut.trans_le hj) hjlen
    exact hnone slot' (List.mem_of_getElem? hslot') (by omega)

theorem Shows.included_le (h : s.Shows p w next) :
    s.follower.lastIncludedIndex ≤ s.follower.commitIndex := by
  rw [h.cut, h.commit]
  exact w.cut_le

/-- The leader offers its snapshot. -/
theorem Shows.offer (h : s.Shows p w next) {args : InstallSnapshotArgs n}
    (hle : next ≤ w.leadCut) (hsend : s.leader.heartbeatTo p = some (.installSnapshot p args))
    (hargs : args.term = s.leader.currentTerm)
    (hinc : args.lastIncludedIndex = s.leader.lastIncludedIndex)
    (hterm : args.lastIncludedTerm = s.leader.logs.zero.term) :
    ∃ s', s.round p = some s' ∧ Probed p w next s s' := by
  have hleadCut := h.leadCut
  have hcommit := h.commit
  obtain ⟨rf, reply, msg, hanswer, hreply, hrfTerm, hcases⟩ :=
    installSnapshot_answer (hargs ▸ h.term) h.included_le
  have hhandle := h.probes.handle_install hargs (hreply.trans hargs) (by omega)
  have hround : s.round p = some
      { leader := s.leader.handleSendInstallSnapshot p args reply
        follower := rf
        success := false } := by
    rw [Link.round, hsend, Option.bind_some]
    change some (Link.mk _ _ _) = _
    rw [hanswer]
  rw [hhandle] at hround
  refine ⟨_, hround, ?_⟩
  have hmatched : Function.update s.leader.matchIndex p
      (max (s.leader.matchIndex p) args.lastIncludedIndex) p ≤
        max (s.leader.matchIndex p) w.lead.length := by
    rw [Function.update_self, hinc, hleadCut]
    exact max_le_max le_rfl w.leadCut_le
  have hlen := w.leadCut_le
  rcases hcases with ⟨hskip, hlogs, hrfInc, hrfCommit⟩ | ⟨hneeded, hzero, hrfInc, hrfCommit⟩
  · refine .moved (.offered hle (by omega)) rfl hmatched
      ⟨?_, hleadCut, (hrfTerm.trans hargs).le, ?_, hrfInc.trans h.cut, hrfCommit.trans hcommit⟩
    · exact h.probes.retarget _ (by omega) (by omega)
    · change rf.logs.Holds rf.lastIncludedIndex w.log
      rw [hlogs, hrfInc]
      exact h.log
  · refine .installed (by omega) rfl hmatched ⟨?_, (hrfTerm.trans hargs).le, hrfInc.trans hinc,
      (hrfInc.trans hrfCommit.symm).le, hzero.trans hterm⟩
    exact h.probes.retarget _ (congrArg (fun i : ℕ => ((i + 1 : ℕ) : ℤ)) hinc)
      (Nat.succ_le_succ (hleadCut.trans_le hlen))

/-- The follower takes the entries above an index, or its report sends the leader to
another index. -/
theorem Shows.answer {args : AppendEntriesArgs n Cmd}
    (h : s.Shows p w (args.prevLogIndex + 1)) (hargs : args.term = s.leader.currentTerm)
    (hprev : w.leadCut ≤ args.prevLogIndex)
    (hprevTerm : args.prevLogTerm = termAt LogEntry.term w.lead args.prevLogIndex) :
    ∃ rf reply, s.follower.appendEntries args = some (rf, reply) ∧ reply.term = args.term ∧
      ((reply.success = true ∧ w.Fits args.prevLogIndex) ∨
      (reply.success = false ∧ ∃ next', w.Moves (args.prevLogIndex + 1) next' ∧
        Shows p w next'
          { leader := s.leader.findNextIndex p reply, follower := rf, success := false })) := by
  have hlast := h.log.lastLogIndex
  have hcut := h.cut
  have hcommit := h.commit
  have hlen : args.prevLogIndex ≤ w.lead.length := Nat.succ_le_succ_iff.mp h.probes.next_le
  obtain ⟨rf, reply, hanswer, hreply, ⟨hsuccess, hle, hle', old, hold, hterm⟩ |
    ⟨hfail, hrfTerm, hlogs, hrfInc, hrfCommit, hreport⟩⟩ :=
    appendEntries_answer (hargs ▸ h.term) h.included_le
  · have holdTerm := h.follower_term (hcut ▸ hle) hold
    exact ⟨rf, reply, hanswer, hreply,
      Or.inl ⟨hsuccess, hprev, by omega, by omega, by omega⟩⟩
  refine ⟨rf, reply, hanswer, hreply, Or.inr ⟨hfail, ?_⟩⟩
  have hmove : ∀ {next' : ℕ}, (s.leader.findNextIndex p reply).nextIndex p = next' →
      w.Moves (args.prevLogIndex + 1) next' → ∃ next', w.Moves (args.prevLogIndex + 1) next' ∧
        Shows p w next'
          { leader := s.leader.findNextIndex p reply, follower := rf, success := false } :=
    fun hnext hmoves => ⟨_, hmoves,
      h.retarget (hrfTerm.trans hargs) hlogs hrfInc hrfCommit hnext hmoves.le⟩
  rcases hreport with ⟨hlt, hxterm, hxindex⟩ | ⟨hlt, hxterm, hxindex, hxlen⟩ |
    ⟨hle, hle', old, hold, hne, hxterm, hfirst⟩
  · exact hmove (h.findNextIndex_zero hxterm hxindex) (.below hprev (by omega))
  · exact hmove (h.findNextIndex_short hxterm hxindex hxlen) (.short hprev hlen (by omega))
  · have holdTerm := h.follower_term (hcut ▸ hle) hold
    have hconflict : w.Conflicts args.prevLogIndex :=
      ⟨hprev, by omega, hlen, by omega, by omega⟩
    obtain ⟨first, hxindex, hlt, hle'', entry, hentry, hentryTerm⟩ :=
      hfirst (hcommit ▸ hconflict.commit_lt)
    have hfirstTerm := h.follower_term (by have := w.cut_le; omega) hentry
    obtain ⟨next', hnext, hmoves⟩ := h.findNextIndex_conflict hconflict
      (hxterm.trans (congrArg _ holdTerm)) hxindex (by omega) hle'' (by omega)
    exact hmove hnext hmoves

/-- The leader sends the entries above an index. -/
theorem Shows.send {args : AppendEntriesArgs n Cmd}
    (h : s.Shows p w (args.prevLogIndex + 1))
    (hsend : s.leader.heartbeatTo p = some (.appendEntries p args))
    (hargs : args.term = s.leader.currentTerm) (hprev : w.leadCut ≤ args.prevLogIndex)
    (hprevTerm : args.prevLogTerm = termAt LogEntry.term w.lead args.prevLogIndex)
    (hsent : args.prevLogIndex + args.entries.length = w.lead.length) :
    ∃ s', s.round p = some s' ∧ Probed p w (args.prevLogIndex + 1) s s' := by
  obtain ⟨rf, reply, hanswer, hreply, ⟨hsuccess, hfits⟩ | ⟨hfail, next', hmoves, hshows⟩⟩ :=
    h.answer hargs hprev hprevTerm
  · obtain ⟨rf', hhandle, hmatch, hlast⟩ :=
      h.probes.handle_success hargs (hreply.trans hargs) hsuccess hsent
    exact ⟨_, round_appendEntries hsend hanswer hhandle,
      .accepted rfl hfits (by omega) ⟨hsuccess, hmatch, hlast⟩⟩
  · have hhandle := h.probes.handle_failure hargs (hreply.trans hargs) hfail
    refine ⟨_, round_appendEntries hsend hanswer hhandle, .moved hmoves hfail (le_max_left _ _) ?_⟩
    rw [hfail]
    exact hshows

/-- Every round is a probe of the search. -/
theorem Shows.round (h : s.Shows p w next) : ∃ s', s.round p = some s' ∧ Probed p w next s s' := by
  rcases h.probes.heartbeatTo with
    ⟨hle, args, hsend, hargs, hinc, hterm⟩ | ⟨args, hsend, hargs, rfl, hprev, hprevTerm, hsent⟩
  · exact h.offer (hle.trans_eq h.leadCut) hsend hargs hinc hterm
  · exact h.send hsend hargs (h.leadCut ▸ hprev) hprevTerm hsent

/-! ## Repeated rounds -/

/-- From an index at which the search ends, the rounds bring the follower up to
date. -/
theorem Shows.catchesUp (h : s.Shows p w next) (hconv : w.Converges next)
    (hmatch : s.leader.matchIndex p ≤ w.lead.length) : s.CatchesUp p := by
  induction hk : w.weight next using Nat.strong_induction_on generalizing s next with
  | _ k ih =>
      obtain ⟨s', hround, hprobed⟩ := h.round
      cases hprobed with
      | accepted _ _ _ haccepted =>
          refine .of_success hround haccepted.success ?_
          rw [haccepted.matched, haccepted.last, max_eq_right hmatch]
      | installed _ _ hmatched hinstalled =>
          obtain ⟨s'', hround', haccepted⟩ := hinstalled.round
          refine .of_round hround (.of_success hround' haccepted.success ?_)
          rw [haccepted.matched, haccepted.last]
          exact max_eq_right (hmatched.trans (max_le hmatch le_rfl))
      | moved hmoves _ hmatched hshows =>
          exact .of_round hround (ih _ (hk ▸ hmoves.weight_lt hconv) hshows
            (hmoves.converges hconv) (hmatched.trans (max_le hmatch le_rfl)) rfl)

/-- A successful reply comes only if the search ends. -/
theorem Shows.converges (h : s.Shows p w next) {N : ℕ} (hrounds : s.rounds p (N + 1) = some s')
    (hsuccess : s'.success = true) : w.Converges next := by
  induction N generalizing s next with
  | zero =>
      obtain ⟨s₁, hround, hprobed⟩ := h.round
      rw [rounds, hround, Option.bind_some] at hrounds
      obtain rfl := Option.some.inj hrounds
      cases hprobed with
      | accepted hnext hfits hlen _ => exact hnext ▸ hfits.converges hlen
      | installed hneeded _ _ _ => exact Pair.converges_of_commit_lt hneeded
      | moved _ hfailed _ _ => exact absurd (hfailed.symm.trans hsuccess) Bool.false_ne_true
  | succ N ih =>
      obtain ⟨s₁, hround, hprobed⟩ := h.round
      rw [rounds, hround, Option.bind_some] at hrounds
      cases hprobed with
      | accepted hnext hfits hlen _ => exact hnext ▸ hfits.converges hlen
      | installed hneeded _ _ _ => exact Pair.converges_of_commit_lt hneeded
      | moved hmoves _ _ hshows => exact hmoves.of_converges (ih hshows hrounds)

/-- `matchIndex` never becomes smaller, and the log of the leader stays. -/
theorem round_matchIndex (h : s.round p = some s') :
    s.leader.matchIndex p ≤ s'.leader.matchIndex p ∧
      s'.leader.lastLogIndex = s.leader.lastLogIndex := by
  obtain ⟨out, -, h⟩ := Option.bind_eq_some_iff.mp h
  cases out with
  | installSnapshot peer args =>
      obtain rfl := Option.some.inj h
      dsimp only
      rcases handleSendInstallSnapshot_cases s.leader p args
        (s.follower.installSnapshot args).2.1 with he | ⟨-, -, -, he⟩ | ⟨-, -, -, he⟩
      · rw [he]
        exact ⟨le_rfl, rfl⟩
      · rw [he]
        exact ⟨le_rfl, rfl⟩
      · rw [he]
        refine ⟨?_, rfl⟩
        dsimp only
        rw [Function.update_self]
        exact le_max_left _ _
  | appendEntries peer args =>
      obtain ⟨r, -, h⟩ := Option.bind_eq_some_iff.mp h
      obtain ⟨rf, hrf, rfl⟩ := Option.map_eq_some_iff.mp h
      rcases handleSendAppendEntries_cases hrf with
        rfl | ⟨-, -, -, rfl⟩ | ⟨-, -, -, hcommit⟩ | ⟨-, -, -, rfl⟩
      · exact ⟨le_rfl, rfl⟩
      · exact ⟨le_rfl, rfl⟩
      · obtain ⟨N, rfl⟩ := checkAndCommitLogs_eq hcommit
        refine ⟨?_, rfl⟩
        dsimp only
        rw [Function.update_self]
        exact le_max_left _ _
      · exact ⟨le_rfl, rfl⟩

theorem rounds_matchIndex {N : ℕ} (h : s.rounds p N = some s') :
    s.leader.matchIndex p ≤ s'.leader.matchIndex p ∧
      s'.leader.lastLogIndex = s.leader.lastLogIndex := by
  induction N generalizing s with
  | zero =>
      obtain rfl := Option.some.inj h
      exact ⟨le_rfl, rfl⟩
  | succ N ih =>
      obtain ⟨s₁, hround, h⟩ := Option.bind_eq_some_iff.mp h
      obtain ⟨hle, hlast⟩ := round_matchIndex hround
      obtain ⟨hle', hlast'⟩ := ih h
      exact ⟨hle.trans hle', hlast'.trans hlast⟩

end Link

/-! ## When the rounds bring a follower up to date -/

/-- The term in the slot of a real index. -/
def termAt? (rf : Raft n Cmd) (i : ℕ) : Option ℕ := (rf.entryAt? i).map LogEntry.term

theorem Keeps.termAt?_eq {rf : Raft n Cmd} {l : List (LogEntry Cmd)} (h : rf.Keeps l) {i : ℕ}
    (hinc : rf.lastIncludedIndex ≤ i) (hi : i ≤ l.length) :
    rf.termAt? i = some (termAt LogEntry.term l i) := by
  obtain ⟨entry, hentry⟩ := Option.isSome_iff_exists.mp
    (rf.entryAt?_isSome hinc (hi.trans h.lastLogIndex.ge))
  rw [termAt?, hentry, Option.map_some, h.entryAt?_term hinc hentry]
  rfl

namespace Link

/-- A leader of some term and a peer of that term or an earlier one, whose logs are
what compaction has left of `l` and `m`. The full logs are those of a cluster with
one leader in each term, and agree as far as the follower has committed. Both peers
have compacted committed entries only. -/
structure Setting (p : Fin n) (l m : List (LogEntry Cmd)) (s : Link n Cmd) : Prop where
  state : s.leader.state = .leader
  term : s.follower.currentTerm ≤ s.leader.currentTerm
  leaderLog : s.leader.Keeps l
  followerLog : s.follower.Keeps m
  related : Related LogEntry.term l m
  commit_le_lead : s.follower.commitIndex ≤ l.length
  commit_le_log : s.follower.commitIndex ≤ m.length
  agree : l.take s.follower.commitIndex = m.take s.follower.commitIndex
  leaderIndices : s.leader.lastIncludedIndex ≤ s.leader.commitIndex
  followerIndices : s.follower.lastIncludedIndex ≤ s.follower.commitIndex
  next_pos : 1 ≤ s.leader.nextIndex p
  next_le : s.leader.nextIndex p ≤ s.leader.realLogLen

/-- The follower has compacted all that it has committed, and its next entry has the
term of its snapshot point but is not an entry of the leader. A leader that probes
above that entry goes back to its own last entry of the term, and so behind the
snapshot point of the follower. -/
structure Bounces (p : Fin n) (s : Link n Cmd) : Prop where
  compacted : s.follower.lastIncludedIndex = s.follower.commitIndex
  above : (s.follower.commitIndex + 1 : ℕ) < s.leader.nextIndex p
  more : s.follower.commitIndex < s.follower.lastLogIndex
  continued : s.follower.termAt? (s.follower.commitIndex + 1) =
    s.follower.termAt? s.follower.commitIndex
  replaced : s.leader.termAt? (s.follower.commitIndex + 1) ≠
    s.follower.termAt? (s.follower.commitIndex + 1)

/-- The leader has compacted its log at least as far as the follower, or it probes
above the snapshot point of the follower and is not sent back behind it. -/
def CanCatchUp (p : Fin n) (s : Link n Cmd) : Prop :=
  s.leader.matchIndex p ≤ s.leader.lastLogIndex ∧
    (s.follower.lastIncludedIndex ≤ s.leader.lastIncludedIndex ∨
      ((s.follower.lastIncludedIndex : ℤ) < s.leader.nextIndex p ∧ ¬ s.Bounces p))

namespace Setting

variable {p : Fin n} {l m : List (LogEntry Cmd)} {s : Link n Cmd}

/-- The search that the rounds carry out. -/
def pair (h : s.Setting p l m) : Pair (LogEntry.term : LogEntry Cmd → ℕ) where
  lead := l
  log := m
  leadCut := s.leader.lastIncludedIndex
  cut := s.follower.lastIncludedIndex
  commit := s.follower.commitIndex
  related := h.related
  leadCut_le := h.leaderLog.included
  cut_le := h.followerIndices
  commit_le_lead := h.commit_le_lead
  commit_le_log := h.commit_le_log
  agree := h.agree

theorem nextIndex_eq (h : s.Setting p l m) :
    ∃ next : ℕ, s.leader.nextIndex p = next ∧ next ≤ l.length + 1 := by
  have hpos := h.next_pos
  have hle := h.next_le
  rw [realLogLen_eq, h.leaderLog.lastLogIndex] at hle
  exact ⟨(s.leader.nextIndex p).toNat, by omega, by omega⟩

theorem shows (h : s.Setting p l m) {next : ℕ} (hnext : s.leader.nextIndex p = next)
    (hle : next ≤ l.length + 1) : s.Shows p h.pair next where
  probes := ⟨h.state, h.leaderLog, h.leaderIndices, hnext, hle⟩
  leadCut := rfl
  term := h.term
  log := h.followerLog
  cut := rfl
  commit := rfl

/-- The terms that send the leader back are those of the full logs. -/
theorem bounces_iff (h : s.Setting p l m) {next : ℕ} (hnext : s.leader.nextIndex p = next)
    (hle : next ≤ l.length + 1)
    (hlt : s.leader.lastIncludedIndex < s.follower.lastIncludedIndex) :
    s.Bounces p ↔ h.pair.Bounced next := by
  have hlast := h.followerLog.lastLogIndex
  have hinc := h.followerIndices
  have hterms : s.follower.commitIndex + 1 < next →
      s.follower.commitIndex < s.follower.lastLogIndex →
      s.follower.termAt? s.follower.commitIndex =
          some (termAt LogEntry.term m s.follower.commitIndex) ∧
        s.follower.termAt? (s.follower.commitIndex + 1) =
          some (termAt LogEntry.term m (s.follower.commitIndex + 1)) ∧
        s.leader.termAt? (s.follower.commitIndex + 1) =
          some (termAt LogEntry.term l (s.follower.commitIndex + 1)) := fun habove hmore =>
    ⟨h.followerLog.termAt?_eq hinc h.commit_le_log,
      h.followerLog.termAt?_eq (hinc.trans (Nat.le_succ _)) (by omega),
      h.leaderLog.termAt?_eq (by omega) (by omega)⟩
  constructor
  · intro hb
    have habove : s.follower.commitIndex + 1 < next := by
      have := hb.above
      omega
    obtain ⟨hpoint, hentry, hlead⟩ := hterms habove hb.more
    have hcontinued := hb.continued
    have hreplaced := hb.replaced
    rw [hentry, hpoint] at hcontinued
    rw [hentry, hlead] at hreplaced
    exact ⟨hb.compacted, habove, hlast ▸ hb.more,
      Option.some.inj hcontinued, fun he => hreplaced (congrArg some he)⟩
  · intro hb
    have hmore : s.follower.commitIndex < s.follower.lastLogIndex := hlast ▸ hb.lt_log
    obtain ⟨hpoint, hentry, hlead⟩ := hterms hb.lt_next hmore
    refine ⟨hb.cut_eq, ?_, hmore, ?_, ?_⟩
    · rw [hnext]
      exact_mod_cast hb.lt_next
    · rw [hentry, hpoint]
      exact congrArg some hb.continued
    · rw [hentry, hlead]
      exact fun he => hb.replaced (Option.some.inj he)

theorem converges_iff (h : s.Setting p l m) {next : ℕ} (hnext : s.leader.nextIndex p = next)
    (hle : next ≤ l.length + 1) :
    h.pair.Converges next ↔ s.follower.lastIncludedIndex ≤ s.leader.lastIncludedIndex ∨
      ((s.follower.lastIncludedIndex : ℤ) < s.leader.nextIndex p ∧ ¬ s.Bounces p) := by
  by_cases hcut : s.follower.lastIncludedIndex ≤ s.leader.lastIncludedIndex
  · exact ⟨fun _ => Or.inl hcut, fun _ => Or.inl hcut⟩
  · rw [h.bounces_iff hnext hle (Nat.not_le.mp hcut), hnext, Int.ofNat_lt]
    rfl

/-- A leader that is sent behind the snapshot point of the follower, or starts there,
never has a successful reply. -/
theorem not_success (h : s.Setting p l m)
    (hcut : s.leader.lastIncludedIndex < s.follower.lastIncludedIndex)
    (hback : s.leader.nextIndex p ≤ s.follower.lastIncludedIndex ∨ s.Bounces p)
    {N : ℕ} {s' : Link n Cmd} (hrounds : s.rounds p (N + 1) = some s') : s'.success = false := by
  obtain ⟨next, hnext, hle⟩ := h.nextIndex_eq
  by_contra hcon
  have hconv := (h.shows hnext hle).converges hrounds (by simpa using hcon)
  rcases (h.converges_iff hnext hle).mp hconv with hcut' | ⟨hlt, hnot⟩
  · omega
  · rcases hback with hback | hback
    · omega
    · exact hnot hback

end Setting

/-- The rounds bring the follower up to date exactly from the links that can catch
up. -/
theorem catchesUp_iff_canCatchUp {p : Fin n} {l m : List (LogEntry Cmd)} {s : Link n Cmd}
    (h : s.Setting p l m) : s.CatchesUp p ↔ s.CanCatchUp p := by
  obtain ⟨next, hnext, hle⟩ := h.nextIndex_eq
  have hlast := h.leaderLog.lastLogIndex
  constructor
  · rintro ⟨N, s', hrounds, hsuccess, hmatch⟩
    obtain ⟨hmono, hlast'⟩ := rounds_matchIndex hrounds
    refine ⟨by omega, (h.converges_iff hnext hle).mp ?_⟩
    exact (h.shows hnext hle).converges hrounds hsuccess
  · rintro ⟨hmatch, hcan⟩
    exact (h.shows hnext hle).catchesUp ((h.converges_iff hnext hle).mpr hcan)
      (hmatch.trans_eq hlast)

/-! ## A leader and a restarted follower -/

/-- A peer that restarts with the log `log`, compacted up to `inc`. -/
def restarted (me : Fin 3) (term inc : ℕ) (log : List (LogEntry ℕ)) : Raft 3 ℕ :=
  make me
    { raftstate := some
        { logs :=
            { zero := { term := tipTerm LogEntry.term (log.take inc), cmd := none }
              rest := log.drop inc }
          currentTerm := term
          votedFor := noVote
          lastIncludedIndex := inc
          lastIncludedTerm := tipTerm LogEntry.term (log.take inc) } }

theorem restarted_keeps (me : Fin 3) (term : ℕ) {inc : ℕ} {log : List (LogEntry ℕ)}
    (h : inc ≤ log.length) : (restarted me term inc log).Keeps log :=
  ⟨h, rfl, rfl⟩

/-- The log of the new leader: the second entry of the term 1 never reached it. -/
def newLog : List (LogEntry ℕ) := [{ term := 1, cmd := some 10 }, { term := 2, cmd := some 20 }]

/-- The log of the old leader, which has committed its first entry only. -/
def oldLog : List (LogEntry ℕ) := [{ term := 1, cmd := some 10 }, { term := 1, cmd := some 11 }]

/-- A leader that has just been elected in term 3, with its log compacted up to `inc`, and
the leader of term 1, which has compacted its first entry and has restarted. -/
def newAndOld (inc : ℕ) : Link 3 ℕ where
  leader := (restarted 0 3 inc newLog).toLeader.initializeLeaderEasilyLostState
  follower := restarted 1 1 1 oldLog
  success := false

theorem newLog_related_oldLog : Related LogEntry.term newLog oldLog where
  pos_left := by decide
  pos_right := by decide
  mono_left := by decide
  mono_right := by decide
  matching := by
    intro i e e' he he' hterm
    rcases i with _ | _ | i
    · rfl
    · obtain rfl := Option.some.inj he
      obtain rfl := Option.some.inj he'
      exact absurd hterm (by decide)
    · cases he
  start := by
    rintro t - ⟨e, he, rfl⟩
    have hterm : e.term = 1 := (by decide : ∀ e ∈ oldLog, e.term = 1) e he
    rw [hterm]
    decide

theorem newAndOld_setting {inc : ℕ} (h : inc ≤ 1) :
    (newAndOld inc).Setting 1 newLog oldLog where
  state := rfl
  term := (by decide : 1 ≤ 3)
  leaderLog := restarted_keeps 0 3 (h.trans (by decide))
  followerLog := restarted_keeps 1 1 (by decide)
  related := newLog_related_oldLog
  commit_le_lead := (by decide : 1 ≤ newLog.length)
  commit_le_log := (by decide : 1 ≤ oldLog.length)
  agree := rfl
  leaderIndices := le_rfl
  followerIndices := le_rfl
  next_pos := by
    change (1 : ℤ) ≤ ((newAndOld inc).leader.realLogLen : ℤ)
    rw [realLogLen_eq]
    omega
  next_le := le_refl ((newAndOld inc).leader.realLogLen : ℤ)

/-- A leader that has compacted the entry that the old leader has compacted brings it
up to date. -/
theorem catchesUp_iff_canCatchUp_newAndOld :
    (newAndOld 1).Setting 1 newLog oldLog ∧ (newAndOld 1).CatchesUp 1 :=
  ⟨newAndOld_setting le_rfl, (catchesUp_iff_canCatchUp (newAndOld_setting le_rfl)).mpr
    ⟨by decide, Or.inl (by decide)⟩⟩

/-- A leader that has not compacted that entry probes from the end of its log, is sent
back to the entry, and never has a successful reply. -/
theorem uncompactedLeader_never_catchesUp :
    (newAndOld 0).Setting 1 newLog oldLog ∧
      (newAndOld 0).leader.nextIndex 1 = (newAndOld 0).leader.realLogLen ∧
      (∀ N s', (newAndOld 0).rounds 1 (N + 1) = some s' → s'.success = false) ∧
      ¬ (newAndOld 0).CatchesUp 1 := by
  have hsetting := newAndOld_setting (Nat.zero_le 1)
  have hbounces : (newAndOld 0).Bounces 1 := ⟨rfl, by decide, by decide, by decide, by decide⟩
  have hfail : ∀ N s', (newAndOld 0).rounds 1 (N + 1) = some s' → s'.success = false :=
    fun N s' hrounds => hsetting.not_success (by decide) (Or.inr hbounces) hrounds
  refine ⟨hsetting, rfl, hfail, ?_⟩
  rintro ⟨N, s', hrounds, hsuccess, -⟩
  exact Bool.false_ne_true ((hfail N s' hrounds).symm.trans hsuccess)

end Link

end Raft

end DistributedLabs
