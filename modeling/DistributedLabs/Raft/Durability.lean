import DistributedLabs.Raft.Spec
import DistributedLabs.Raft.Peer
import DistributedLabs.Logic.Run

/-!
# Durability before disclosure

`Saves rf rf'` says what a step does to stable storage: either the step ends with
the persister holding the new status and snapshot, or it changes neither the
persister nor what the persister records. Every step of a peer saves, with one
exception: an `InstallSnapshot` that raises the term and then returns early,
because its snapshot is not needed, forgets to persist the new term. So the
persister is up to date along a run exactly when no such request is handled.
-/

namespace DistributedLabs

namespace Raft

variable {n : ℕ} {Cmd : Type*}

/-- What a restart reads: an empty persister stands for a fresh peer. -/
def Persister.saved (ps : Persister Cmd) : PersistentStatus Cmd × Bytes :=
  match ps.raftstate with
  | none =>
    ({ logs := { zero := { term := 0, cmd := none }, rest := [] }, currentTerm := 0,
       votedFor := noVote, lastIncludedIndex := 0, lastIncludedTerm := 0 }, [])
  | some status => (status, ps.snapshot)

/-- The persister holds the current status and the current snapshot. -/
def IsDurable (rf : Raft n Cmd) : Prop :=
  rf.persister.saved = (rf.status, rf.snapshot)

instance [DecidableEq Cmd] (rf : Raft n Cmd) : Decidable (IsDurable rf) :=
  inferInstanceAs (Decidable (_ = _))

/-- A step that keeps stable storage up to date. -/
def Saves (rf rf' : Raft n Cmd) : Prop :=
  rf'.persister = { raftstate := some rf'.status, snapshot := rf'.snapshot } ∨
    (rf'.persister = rf.persister ∧ rf'.status = rf.status ∧ rf'.snapshot = rf.snapshot)

theorem Saves.isDurable {rf rf' : Raft n Cmd} (h : Saves rf rf') (hd : IsDurable rf) :
    IsDurable rf' := by
  rcases h with h | ⟨hp, hs, hsnap⟩
  · simp [IsDurable, h, Persister.saved]
  · rw [IsDurable, hp, hs, hsnap]
    exact hd

theorem Saves.refl (rf : Raft n Cmd) : Saves rf rf := Or.inr ⟨rfl, rfl, rfl⟩

theorem persist_saves (rf rf' : Raft n Cmd) : Saves rf rf'.persist := Or.inl rfl

/-! ## The steps that save -/

theorem requestVote_saves (rf : Raft n Cmd) (args : RequestVoteArgs n) :
    Saves rf (rf.requestVote args).1 := by
  rcases requestVote_cases rf args with ⟨-, h⟩ | ⟨-, h⟩ | ⟨-, -, -, h⟩
  · rw [h]
    exact Saves.refl rf
  · rw [h]
    exact persist_saves _ _
  · rw [h]
    exact persist_saves _ _

theorem appendEntries_saves {rf rf' : Raft n Cmd} {args : AppendEntriesArgs n Cmd}
    {reply : AppendEntriesReply} (h : rf.appendEntries args = some (rf', reply)) :
    Saves rf rf' := by
  rcases appendEntries_cases h with ⟨-, rfl, -⟩ | ⟨-, rf₁, -, rfl⟩
  · exact Saves.refl rf'
  · exact persist_saves _ _

theorem ticker_saves (rf : Raft n Cmd) : Saves rf rf.ticker.1 := Or.inl rfl

theorem start_saves (rf : Raft n Cmd) (command : Option Cmd) :
    Saves rf (rf.start command).1 := by
  rcases start_cases rf command with ⟨-, h⟩ | ⟨-, rf₁, rfl, h⟩
  · rw [h]
    exact Saves.refl rf
  · rw [h]
    exact Or.inl rfl

theorem snapshotUpTo_saves {rf rf' : Raft n Cmd} {index : ℕ} {data : Bytes}
    (h : rf.snapshotUpTo index data = some rf') : Saves rf rf' := by
  rcases snapshotUpTo_cases h with rfl | ⟨-, -, entry, -, rfl⟩
  · exact Saves.refl rf'
  · exact persist_saves _ _

theorem countVote_saves (rf : Raft n Cmd) (reply : RequestVoteReply) :
    Saves rf (rf.countVote reply) := by
  rcases countVote_cases rf reply with ⟨-, h⟩ | ⟨-, h⟩
  · rw [h]
    exact Or.inr ⟨rfl, rfl, rfl⟩
  · rw [h]
    exact Saves.refl rf

theorem handleVoteReply_saves {rf rf' : Raft n Cmd} {args : RequestVoteArgs n}
    {reply : RequestVoteReply} {out : List (Outgoing n Cmd)}
    (h : rf.handleVoteReply args reply = some (rf', out)) : Saves rf rf' := by
  rcases handleVoteReply_cases h with ⟨rfl, -⟩ | ⟨-, -, rfl⟩ | ⟨-, -, -, rfl⟩ | ⟨-, -, -, rfl, -⟩
  · exact Saves.refl rf'
  · exact Or.inl rfl
  · exact countVote_saves rf reply
  · exact countVote_saves rf reply

theorem handleSendAppendEntries_saves {rf rf' : Raft n Cmd} {peer : Fin n}
    {args : AppendEntriesArgs n Cmd} {reply : AppendEntriesReply}
    (h : rf.handleSendAppendEntries peer args reply = some rf') : Saves rf rf' := by
  rcases handleSendAppendEntries_cases h with
    rfl | ⟨-, -, -, rfl⟩ | ⟨-, -, -, hcommit⟩ | ⟨-, -, -, rfl⟩
  · exact Saves.refl rf'
  · exact persist_saves _ _
  · obtain ⟨N, rfl⟩ := checkAndCommitLogs_eq hcommit
    exact Or.inr ⟨rfl, rfl, rfl⟩
  · exact Or.inr ⟨rfl, rfl, rfl⟩

theorem handleSendInstallSnapshot_saves (rf : Raft n Cmd) (peer : Fin n)
    (args : InstallSnapshotArgs n) (reply : InstallSnapshotReply) :
    Saves rf (rf.handleSendInstallSnapshot peer args reply) := by
  rcases handleSendInstallSnapshot_cases rf peer args reply with h | ⟨-, -, -, h⟩ | ⟨-, -, -, h⟩
  · rw [h]
    exact Saves.refl rf
  · rw [h]
    exact persist_saves _ _
  · rw [h]
    exact Or.inr ⟨rfl, rfl, rfl⟩

/-! ## `InstallSnapshot` -/

/-- The request raises the term of the peer but its snapshot is not needed, so
the handler returns before its deferred `persist`. -/
def raisesUnsaved (rf : Raft n Cmd) (args : InstallSnapshotArgs n) : Prop :=
  rf.currentTerm < args.term ∧
    (args.lastIncludedIndex ≤ rf.lastIncludedIndex ∨ args.lastIncludedIndex ≤ rf.commitIndex)

instance (rf : Raft n Cmd) (args : InstallSnapshotArgs n) : Decidable (raisesUnsaved rf args) :=
  inferInstanceAs (Decidable (_ ∧ _))

theorem installSnapshot_saves (rf : Raft n Cmd) (args : InstallSnapshotArgs n)
    (h : ¬ raisesUnsaved rf args) : Saves rf (rf.installSnapshot args).1 := by
  rcases installSnapshot_cases rf args with ⟨-, he⟩ | ⟨-, hneed, he⟩ | ⟨-, -, -, he⟩
  · rw [he]
    exact Saves.refl rf
  · have hterm : args.term ≤ rf.currentTerm := by
      by_contra hlt
      exact h ⟨Nat.lt_of_not_le hlt, hneed⟩
    rw [he, adoptTerm_of_le rf hterm]
    exact Or.inr ⟨rfl, rfl, rfl⟩
  · rw [he]
    exact persist_saves _ _

/-- A request that raises the term unsaved leaves the peer ahead of its
persister. -/
theorem installSnapshot_not_isDurable {rf : Raft n Cmd} {args : InstallSnapshotArgs n}
    (h : raisesUnsaved rf args) (hd : IsDurable rf) :
    ¬ IsDurable (rf.installSnapshot args).1 := by
  obtain ⟨hterm, hneed⟩ := h
  have hresult : (rf.installSnapshot args).1 = (rf.adoptTerm args.term).toFollower := by
    rcases installSnapshot_cases rf args with ⟨hstale, -⟩ | ⟨-, -, he⟩ | ⟨-, hinc, hcom, -⟩
    · omega
    · rw [he]
    · omega
  have hraise : rf.adoptTerm args.term =
      { rf with currentTerm := args.term, votedFor := noVote } := by
    simp [adoptTerm, hterm]
  intro hd'
  rw [hresult, hraise, IsDurable] at hd'
  have hstatus := hd.symm.trans hd'
  have hcur := congrArg (fun s => s.1.currentTerm) hstatus
  simp only [status, toFollower] at hcur
  omega

/-! ## Runs of a peer -/

namespace Peer

/-- The steps after which the persister is up to date: all but the requests
that raise the term unsaved. -/
def savesAt (p : Peer n Cmd) : Act n Cmd → Prop
  | .installSnapshot args => ¬ raisesUnsaved p.rf args
  | _ => True

instance (p : Peer n Cmd) (a : Act n Cmd) : Decidable (savesAt p a) :=
  match a with
  | .installSnapshot args => inferInstanceAs (Decidable (¬ raisesUnsaved p.rf args))
  | .ticker | .heartbeat | .start _ | .snapshot _ _ | .requestVote _ | .appendEntries _
  | .voteReply _ _ | .appendReply _ _ _ | .snapshotReply _ _ _ | .applier | .poll _
  | .send _ => .isTrue trivial

theorem applierStep_saves {p p' : Peer n Cmd} (h : p.applierStep = some p') :
    Saves p.rf p'.rf := by
  obtain ⟨-, -, flag, lastApplied, hrf⟩ := applierStep_frame h
  rw [hrf]
  exact Or.inr ⟨rfl, rfl, rfl⟩

theorem step_saves {p p' : Peer n Cmd} {a : Act n Cmd} (hok : savesAt p a)
    (h : p.step a = some p') : Saves p.rf p'.rf := by
  cases a with
  | ticker =>
      obtain rfl := Option.some.inj h
      exact ticker_saves p.rf
  | heartbeat =>
      obtain ⟨out, -, rfl⟩ := Option.map_eq_some_iff.mp h
      exact Saves.refl p.rf
  | start command =>
      obtain rfl := Option.some.inj h
      exact start_saves p.rf command
  | snapshot index data =>
      obtain ⟨rf, hrf, rfl⟩ := Option.map_eq_some_iff.mp h
      exact snapshotUpTo_saves hrf
  | requestVote args =>
      obtain rfl := Option.some.inj h
      exact requestVote_saves p.rf args
  | appendEntries args =>
      obtain ⟨r, hr, rfl⟩ := Option.map_eq_some_iff.mp h
      exact appendEntries_saves hr
  | installSnapshot args =>
      obtain rfl := Option.some.inj h
      exact installSnapshot_saves p.rf args hok
  | voteReply args reply =>
      obtain ⟨r, hr, rfl⟩ := Option.map_eq_some_iff.mp h
      exact handleVoteReply_saves hr
  | appendReply peer args reply =>
      obtain ⟨rf, hrf, rfl⟩ := Option.map_eq_some_iff.mp h
      exact handleSendAppendEntries_saves hrf
  | snapshotReply peer args reply =>
      obtain rfl := Option.some.inj h
      exact handleSendInstallSnapshot_saves p.rf peer args reply
  | applier => exact applierStep_saves h
  | poll k =>
      obtain ⟨sender, -, -, rfl⟩ := pollStep_eq_some.mp h
      exact Saves.refl p.rf
  | send k =>
      obtain ⟨sender, -, -, rfl⟩ := sendStep_eq_some.mp h
      exact Saves.refl p.rf

/-- From an up-to-date persister, a step leaves it up to date exactly when it is
not a request that raises the term unsaved. -/
theorem isDurable_step_iff {p p' : Peer n Cmd} {a : Act n Cmd} (hd : IsDurable p.rf)
    (h : p.step a = some p') : IsDurable p'.rf ↔ savesAt p a := by
  constructor
  · intro hd'
    cases a with
    | installSnapshot args =>
        obtain rfl := Option.some.inj h
        intro hraise
        exact installSnapshot_not_isDurable hraise hd hd'
    | _ => trivial
  · intro hok
    exact (step_saves hok h).isDurable hd

theorem make_isDurable (me : Fin n) : IsDurable (make me ({} : Persister Cmd)).rf := rfl

/-- A run from an empty persister keeps stable storage up to date throughout
exactly when it handles no request that raises the term unsaved. -/
theorem isDurable_throughout_iff (me : Fin n) {acts : List (Act n Cmd)} {p : Peer n Cmd}
    (h : exec step (make me {}) acts = some p) :
    meets step savesAt (make me {}) acts ↔
      ∀ q, passes step (make me {}) acts q → IsDurable q.rf :=
  meets_iff_forall_passes (fun _ _ _ hd hs => isDurable_step_iff hd hs) (make_isDurable me) h

/-- A follower of term 1 that has committed index 1, and then a leader of term 2
that offers a snapshot up to index 1. -/
def staleSnapshot : List (Act 3 ℕ) :=
  [.appendEntries
      { term := 1, leaderId := 0, prevLogIndex := 0, prevLogTerm := 0,
        entries := [{ term := 1, cmd := some 7 }], leaderCommit := 1 },
    .installSnapshot
      { term := 2, leaderId := 2, lastIncludedIndex := 1, lastIncludedTerm := 1, data := [0] }]

theorem isDurable_throughout_iff_staleSnapshot :
    (exec step (make 1 {}) (staleSnapshot.take 1)).isSome ∧
      ∀ q, passes step (make 1 {}) (staleSnapshot.take 1) q → IsDurable q.rf := by
  refine ⟨by decide, ?_⟩
  exact (isDurable_throughout_iff 1 (Option.some_get (by decide)).symm).mp (by decide)

/-- The term that the follower adopts from the stale snapshot is not saved. -/
theorem staleSnapshot_not_isDurable :
    ∃ p, exec step (make 1 {}) staleSnapshot = some p ∧ ¬ IsDurable p.rf :=
  ⟨_, rfl, by decide⟩

end Peer

end Raft

end DistributedLabs
