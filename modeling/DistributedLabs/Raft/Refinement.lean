import DistributedLabs.Raft.Ballots
import DistributedLabs.Raft.FullLog
import DistributedLabs.Consensus.Safety

/-!
# A cluster refines a ledger

`Refines c st` relates a cluster without restarts to a ledger over its peers. The
ledger remembers the full logs, the votes, the logs of the leaders and the
acknowledgements, and the relation says what the peers and the calls in the
network show of it. In particular a call of `AppendEntries` carries a part of the
log of the leader of its term, an answered one with `Success` is an
acknowledgement, and what a peer has committed is chosen.
-/

namespace DistributedLabs

namespace Raft

open Consensus

variable {n : ℕ} {Cmd : Type*}

/-- The ledger of a cluster. -/
abbrev Book (n : ℕ) (Cmd : Type*) := Ledger (Fin n) (LogEntry Cmd)

namespace Book

/-- The invariants of the ledger of a cluster, with majorities as quorums. -/
abbrev Inv (st : Book n Cmd) : Prop := Ledger.Inv (majority n) LogEntry.term st

/-- The log `l` is a start of what has been committed in a term up to `t`. -/
abbrev Chosen (st : Book n Cmd) (t : ℕ) (l : List (LogEntry Cmd)) : Prop :=
  Ledger.Chosen (majority n) LogEntry.term st t l

/-- The peer `i` takes any number of steps in the ledger. -/
abbrev Moves (i : Fin n) (st st' : Book n Cmd) : Prop :=
  Ledger.Moves (majority n) LogEntry.term i st st'

end Book

/-- What the state of the peer `i` shows of the ledger. -/
structure PeerRel (st : Book n Cmd) (i : Fin n) (rf : Raft n Cmd) : Prop where
  term : rf.currentTerm = st.term i
  log : rf.Keeps (st.log i)
  vote : ∀ {s : Fin n}, st.votes i rf.currentTerm s → rf.votedFor = (s : ℕ)
  candidate : rf.state = .candidate →
    st.stood i rf.currentTerm (st.log i) ∧ st.votes i rf.currentTerm i
  leader : rf.state = .leader ↔ st.leads i rf.currentTerm
  own : rf.state = .leader → st.acked i rf.currentTerm (st.log i).length
  committed : rf.commitIndex ≤ (st.log i).length
  chosen : st.Chosen rf.currentTerm ((st.log i).take rf.commitIndex)
  included : rf.lastIncludedIndex ≤ rf.commitIndex
  matched : rf.state = .leader → ∀ p,
    rf.matchIndex p ≤ rf.commitIndex ∨ st.acked p rf.currentTerm (rf.matchIndex p)

/-- A call of `RequestVote` shows the log its caller stood with. -/
structure VoteCall (st : Book n Cmd) (r : VoteRpc n) : Prop where
  stood : ∃ l, st.stood r.src r.args.term l ∧ r.args.lastLogIndex = l.length ∧
    r.args.lastLogTerm = tipTerm LogEntry.term l
  granted : r.granted → st.votes r.dst r.args.term r.src

/-- A call of `AppendEntries` carries a part of the log of the leader, and a
commit index that the part reaches. -/
structure AppendCall (st : Book n Cmd)
    (r : Rpc n (AppendEntriesArgs n Cmd) AppendEntriesReply) : Prop where
  leads : st.leads r.src r.args.term
  other : r.src ≠ r.dst
  prev : r.args.prevLogIndex ≤ (st.lead r.args.term).length
  prevTerm : r.args.prevLogTerm =
    tipTerm LogEntry.term ((st.lead r.args.term).take r.args.prevLogIndex)
  entries : (st.lead r.args.term).take r.args.prevLogIndex ++ r.args.entries <+:
    st.lead r.args.term
  commit : r.args.leaderCommit ≤ r.args.prevLogIndex + r.args.entries.length
  chosen : st.Chosen r.args.term ((st.lead r.args.term).take r.args.leaderCommit)
  success : ∀ reply, r.reply = some reply → reply.success = true →
    st.acked r.dst r.args.term (r.args.prevLogIndex + r.args.entries.length)

/-- A call of `InstallSnapshot` offers a chosen part of the log of the leader. -/
structure InstallCall (st : Book n Cmd)
    (r : Rpc n (InstallSnapshotArgs n) InstallSnapshotReply) : Prop where
  leads : st.leads r.src r.args.term
  other : r.src ≠ r.dst
  included : r.args.lastIncludedIndex ≤ (st.lead r.args.term).length
  includedTerm : r.args.lastIncludedTerm =
    tipTerm LogEntry.term ((st.lead r.args.term).take r.args.lastIncludedIndex)
  chosen : st.Chosen r.args.term ((st.lead r.args.term).take r.args.lastIncludedIndex)
  success : ∀ reply, r.reply = some reply → reply.term ≤ r.args.term →
    st.acked r.dst r.args.term r.args.lastIncludedIndex

/-- The cluster shows the ledger. -/
structure Refines (c : Cluster n Cmd) (st : Book n Cmd) : Prop where
  ballots : BallotInv c
  inv : st.Inv
  peers : ∀ i, PeerRel st i (c.peers i).rf
  votes : ∀ r ∈ c.votes, VoteCall st r
  appends : ∀ r ∈ c.appends, AppendCall st r
  installs : ∀ r ∈ c.installs, InstallCall st r

theorem refines_init (n : ℕ) (Cmd : Type*) :
    Refines (Cluster.init n Cmd) (Ledger.init (Fin n) (LogEntry Cmd)) where
  ballots := ballotInv_init n Cmd
  inv := Ledger.inv_init
  peers i :=
    { term := rfl
      log := ⟨le_rfl, rfl, rfl⟩
      vote := False.elim
      candidate := (nomatch ·)
      leader := ⟨(nomatch ·), False.elim⟩
      own := (nomatch ·)
      committed := le_rfl
      chosen := Or.inl rfl
      included := le_rfl
      matched := (nomatch ·) }
  votes r hr := by cases hr
  appends r hr := by cases hr
  installs r hr := by cases hr

/-! ## Later ledgers -/

section

variable {st st' : Book n Cmd}

/-- The part of a leader's log that is already there does not change. -/
theorem lead_take_eq (hle : st ≤ st') {c : Fin n} {t k : ℕ} (hl : st.leads c t)
    (hk : k ≤ (st.lead t).length) : (st'.lead t).take k = (st.lead t).take k := by
  obtain ⟨rest, hrest⟩ := hle.lead hl
  rw [← hrest, List.take_append_of_le_length hk]

theorem VoteCall.mono {r : VoteRpc n} (h : VoteCall st r) (hle : st ≤ st') : VoteCall st' r := by
  obtain ⟨l, hl, hlen, hterm⟩ := h.stood
  exact ⟨⟨l, hle.stood hl, hlen, hterm⟩, fun hg => hle.votes (h.granted hg)⟩

theorem AppendCall.length_le {r : Rpc n (AppendEntriesArgs n Cmd) AppendEntriesReply}
    (h : AppendCall st r) :
    r.args.prevLogIndex + r.args.entries.length ≤ (st.lead r.args.term).length := by
  have := h.entries.length_le
  rwa [List.length_append, List.length_take_of_le h.prev] at this

theorem AppendCall.mono {r : Rpc n (AppendEntriesArgs n Cmd) AppendEntriesReply}
    (h : AppendCall st r) (hle : st ≤ st') : AppendCall st' r := by
  have hlead := hle.lead h.leads
  have hprev := lead_take_eq hle h.leads h.prev
  refine ⟨hle.leads h.leads, h.other, h.prev.trans hlead.length_le, ?_, ?_, h.commit, ?_,
    fun reply hr hs => hle.acked (h.success reply hr hs)⟩
  · rw [hprev]
    exact h.prevTerm
  · rw [hprev]
    exact h.entries.trans hlead
  · rw [lead_take_eq hle h.leads (h.commit.trans h.length_le)]
    exact h.chosen.mono hle le_rfl

theorem InstallCall.mono {r : Rpc n (InstallSnapshotArgs n) InstallSnapshotReply}
    (h : InstallCall st r) (hle : st ≤ st') : InstallCall st' r := by
  have hinc := lead_take_eq hle h.leads h.included
  refine ⟨hle.leads h.leads, h.other, h.included.trans (hle.lead h.leads).length_le, ?_, ?_,
    fun reply hr hs => hle.acked (h.success reply hr hs)⟩
  · rw [hinc]
    exact h.includedTerm
  · rw [hinc]
    exact h.chosen.mono hle le_rfl

/-- A peer that takes no step shows the later ledger as well. -/
theorem PeerRel.frame {i j : Fin n} {rf : Raft n Cmd} (h : PeerRel st j rf) (hle : st ≤ st')
    (hframe : Ledger.Frame i st st') (hji : j ≠ i) : PeerRel st' j rf where
  term := h.term.trans (hframe.term hji).symm
  log := (hframe.log hji).symm ▸ h.log
  vote hv := h.vote (hframe.votes hji hv)
  candidate hc := by
    obtain ⟨hs, hv⟩ := h.candidate hc
    rw [hframe.log hji]
    exact ⟨hle.stood hs, hle.votes hv⟩
  leader := ⟨fun hl => hle.leads (h.leader.mp hl), fun hl => h.leader.mpr (hframe.leads hji hl)⟩
  own hl := (hframe.log hji).symm ▸ hle.acked (h.own hl)
  committed := (hframe.log hji).symm ▸ h.committed
  chosen := by
    rw [hframe.log hji]
    exact h.chosen.mono hle le_rfl
  included := h.included
  matched hl p := (h.matched hl p).imp_right hle.acked

end

end Raft

end DistributedLabs
