import DistributedLabs.Raft.Calls
import DistributedLabs.Raft.Durability

/-!
# Index, term and bytes of a snapshot stay together

A snapshot point is an index with the term of the entry there and the bytes of
the snapshot up to it. A peer keeps one in memory, with the term in slot 0 of its
log, and one in its persister, and sends one in each `InstallSnapshot`. No step
but an accepted `Snapshot` makes a new point: all others pass one on as a whole.
-/

namespace DistributedLabs

namespace Raft

variable {n : ℕ} {Cmd : Type*}

/-- An index, the term of the entry there and the bytes of the snapshot. -/
structure SnapshotPoint where
  index : ℕ
  term : ℕ
  bytes : Bytes
deriving DecidableEq, Repr

/-- The snapshot point in the memory of a peer. -/
def snapshotPoint (rf : Raft n Cmd) : SnapshotPoint :=
  ⟨rf.lastIncludedIndex, rf.logs.zero.term, rf.snapshot⟩

/-- The snapshot point in a persister, if a status has been saved. -/
def Persister.snapshotPoint? (persister : Persister Cmd) : Option SnapshotPoint :=
  persister.raftstate.map fun status =>
    ⟨status.lastIncludedIndex, status.lastIncludedTerm, persister.snapshot⟩

/-- The snapshot point that an `InstallSnapshot` carries. -/
def InstallSnapshotArgs.snapshotPoint (args : InstallSnapshotArgs n) : SnapshotPoint :=
  ⟨args.lastIncludedIndex, args.lastIncludedTerm, args.data⟩

/-! ## What the steps of a peer do to the points -/

theorem copyEntries_zero (logs : Logs Cmd) {index : ℕ} (hindex : 0 < index)
    (entries : List (LogEntry Cmd)) : (copyEntries logs index entries).zero = logs.zero := by
  induction entries generalizing logs index with
  | nil => rfl
  | cons entry entries ih =>
      rw [copyEntries, ih _ (Nat.succ_pos index)]
      unfold copyEntry
      obtain ⟨i, rfl⟩ : ∃ i, index = i + 1 := ⟨index - 1, by omega⟩
      split
      · split
        · rfl
        · rfl
      · split
        · rfl
        · rfl

/-- The copy loop never reaches slot 0. -/
theorem appendEntries_snapshotPoint {rf rf' : Raft n Cmd} {args : AppendEntriesArgs n Cmd}
    {reply : AppendEntriesReply} (h : rf.appendEntries args = some (rf', reply)) :
    rf'.snapshotPoint = rf.snapshotPoint := by
  rcases appendEntries_cases h with ⟨-, rfl, -⟩ | ⟨-, rf₁, hrep, rfl⟩
  · rfl
  · have hadopt : (rf.toFollower.adoptTerm args.term).snapshotPoint = rf.snapshotPoint := by
      rcases adoptTerm_cases rf.toFollower args.term with ⟨-, he⟩ | ⟨-, he⟩
      · rw [he]
        rfl
      · rw [he]
        rfl
    rw [← hadopt]
    rcases replicate_cases hrep with ⟨rfl, -⟩ | ⟨old, hinc, -, -, -, rfl, -⟩
    · rfl
    · set rf₀ := rf.toFollower.adoptTerm args.term
      have hzero : (copyEntries rf₀.logs (rf₀.logIndex (args.prevLogIndex + 1))
          args.entries).zero = rf₀.logs.zero := by
        apply copyEntries_zero
        unfold logIndex
        omega
      rcases followCommit_cases { rf₀ with
          logs := copyEntries rf₀.logs (rf₀.logIndex (args.prevLogIndex + 1)) args.entries }
        args.leaderCommit with ⟨-, he⟩ | ⟨-, he⟩
      · rw [he]
        simp only [snapshotPoint, persist, hzero]
      · rw [he]
        simp only [snapshotPoint, persist, hzero]

theorem installSnapshot_snapshotPoint (rf : Raft n Cmd) (args : InstallSnapshotArgs n) :
    (rf.installSnapshot args).1.snapshotPoint = rf.snapshotPoint ∨
      (rf.installSnapshot args).1.snapshotPoint = args.snapshotPoint := by
  rcases installSnapshot_cases rf args with ⟨-, he⟩ | ⟨-, -, he⟩ | ⟨-, -, -, he⟩
  · rw [he]
    exact Or.inl rfl
  · rw [he]
    rcases adoptTerm_cases rf args.term with ⟨-, ha⟩ | ⟨-, ha⟩
    · rw [ha]
      exact Or.inl rfl
    · rw [ha]
      exact Or.inl rfl
  · rw [he]
    exact Or.inr rfl

/-- An accepted `Snapshot` makes the point at its index. -/
def Makes (rf : Raft n Cmd) (index : ℕ) (data : Bytes) (pt : SnapshotPoint) : Prop :=
  rf.lastIncludedIndex < index ∧ index ≤ rf.commitIndex ∧
    ∃ entry, rf.entryAt? index = some entry ∧ pt = ⟨index, entry.term, data⟩

theorem snapshotUpTo_snapshotPoint {rf rf' : Raft n Cmd} {index : ℕ} {data : Bytes}
    (h : rf.snapshotUpTo index data = some rf') :
    rf'.snapshotPoint = rf.snapshotPoint ∨ Makes rf index data rf'.snapshotPoint := by
  rcases snapshotUpTo_cases h with rfl | ⟨hcommit, hinc, entry, hentry, rfl⟩
  · exact Or.inl rfl
  · refine Or.inr ⟨hinc, hcommit, entry, ?_, rfl⟩
    rw [entryAt?_of_le rf hinc.le]
    exact hentry

namespace Peer

/-- A step keeps the point in memory, or takes it from a request, or makes it. -/
theorem step_snapshotPoint {p p' : Peer n Cmd} {b : Act n Cmd} (h : p.step b = some p') :
    p'.rf.snapshotPoint = p.rf.snapshotPoint ∨
      (∃ args, b = .installSnapshot args ∧ p'.rf.snapshotPoint = args.snapshotPoint) ∨
      ∃ index data, b = .snapshot index data ∧ Makes p.rf index data p'.rf.snapshotPoint := by
  cases b with
  | ticker =>
      obtain rfl := Option.some.inj h
      exact Or.inl rfl
  | heartbeat =>
      obtain ⟨out, -, rfl⟩ := Option.map_eq_some_iff.mp h
      exact Or.inl rfl
  | start command =>
      obtain rfl := Option.some.inj h
      left
      rcases start_cases p.rf command with ⟨-, he⟩ | ⟨-, rf₁, rfl, he⟩
      · rw [setRf, he]
      · rw [setRf, he]
        rfl
  | snapshot index data =>
      obtain ⟨rf, hrf, rfl⟩ := Option.map_eq_some_iff.mp h
      rcases snapshotUpTo_snapshotPoint hrf with he | hmakes
      · exact Or.inl he
      · exact Or.inr (Or.inr ⟨index, data, rfl, hmakes⟩)
  | requestVote args =>
      obtain rfl := Option.some.inj h
      obtain ⟨_, _, _, _, he⟩ := requestVote_frame p.rf args
      rw [setRf, he]
      exact Or.inl rfl
  | appendEntries args =>
      obtain ⟨r, hr, rfl⟩ := Option.map_eq_some_iff.mp h
      exact Or.inl (appendEntries_snapshotPoint hr)
  | installSnapshot args =>
      obtain rfl := Option.some.inj h
      rcases installSnapshot_snapshotPoint p.rf args with he | he
      · exact Or.inl he
      · exact Or.inr (Or.inl ⟨args, rfl, he⟩)
  | voteReply args reply =>
      obtain ⟨r, hr, rfl⟩ := Option.map_eq_some_iff.mp h
      obtain ⟨_, _, _, _, _, _, _, he⟩ := handleVoteReply_frame hr
      rw [setRf, he]
      exact Or.inl rfl
  | appendReply peer args reply =>
      obtain ⟨rf, hrf, rfl⟩ := Option.map_eq_some_iff.mp h
      obtain ⟨_, _, _, _, _, _, he⟩ := handleSendAppendEntries_frame hrf
      rw [setRf, he]
      exact Or.inl rfl
  | snapshotReply peer args reply =>
      obtain rfl := Option.some.inj h
      obtain ⟨_, _, _, _, _, he⟩ := handleSendInstallSnapshot_frame p.rf peer args reply
      rw [setRf, he]
      exact Or.inl rfl
  | applier =>
      obtain ⟨-, -, _, _, he⟩ := applierStep_frame h
      rw [he]
      exact Or.inl rfl
  | poll k =>
      obtain ⟨sender, -, -, rfl⟩ := pollStep_eq_some.mp h
      exact Or.inl rfl
  | send k =>
      obtain ⟨sender, -, -, rfl⟩ := sendStep_eq_some.mp h
      exact Or.inl rfl

/-- A step saves the point in memory, or leaves the persister alone. -/
theorem step_persister {p p' : Peer n Cmd} {b : Act n Cmd} (h : p.step b = some p') :
    p'.rf.persister = p.rf.persister ∨
      p'.rf.persister.snapshotPoint? = some p'.rf.snapshotPoint := by
  by_cases hsave : savesAt p b
  · rcases step_saves hsave h with he | ⟨he, -, -⟩
    · right
      rw [he]
      rfl
    · exact Or.inl he
  · left
    cases b with
    | installSnapshot args =>
        obtain rfl := Option.some.inj h
        obtain ⟨-, hneed⟩ := not_not.mp hsave
        rcases installSnapshot_cases p.rf args with ⟨-, he⟩ | ⟨-, -, he⟩ | ⟨-, hinc, hcom, -⟩
        · rw [installSnapshot, he]
        · rw [installSnapshot, he]
          rcases adoptTerm_cases p.rf args.term with ⟨-, ha⟩ | ⟨-, ha⟩
          · rw [ha]
            rfl
          · rw [ha]
            rfl
        · omega
    | _ => exact absurd trivial hsave

/-- A restart reads the point back. -/
theorem restart_snapshotPoint (p : Peer n Cmd) :
    p.restart.rf.snapshotPoint.index = 0 ∨
      p.rf.persister.snapshotPoint? = some p.restart.rf.snapshotPoint := by
  unfold restart make Raft.make readPersist
  dsimp only
  cases hstate : p.rf.persister.raftstate with
  | none => exact Or.inl rfl
  | some status =>
      right
      rw [Persister.snapshotPoint?, hstate]
      rfl

theorem restart_persister (p : Peer n Cmd) : p.restart.rf.persister = p.rf.persister := by
  unfold restart make Raft.make readPersist
  dsimp only
  cases p.rf.persister.raftstate with
  | none => rfl
  | some status => rfl

end Peer

/-! ## Runs of a cluster -/

/-- In the run `acts`, some peer has made the point: it took the accepted call
`Snapshot(index, bytes)` while its entry at the index had the term. -/
def Produced (acts : List (Cluster.Act n Cmd)) (pt : SnapshotPoint) : Prop :=
  ∃ (before after : List (Cluster.Act n Cmd)) (i : Fin n) (c : Cluster n Cmd),
    acts = before ++ .snapshot i pt.index pt.bytes :: after ∧
      exec Cluster.step (Cluster.init n Cmd) before = some c ∧
      Makes (c.peers i).rf pt.index pt.bytes pt

theorem Produced.snoc {acts : List (Cluster.Act n Cmd)} {pt : SnapshotPoint}
    (h : Produced acts pt) (a : Cluster.Act n Cmd) : Produced (acts ++ [a]) pt := by
  obtain ⟨before, after, i, c, rfl, hc, hmakes⟩ := h
  exact ⟨before, after ++ [a], i, c, by simp, hc, hmakes⟩

/-- A point with an index above 0 has been made. -/
def Coherent (acts : List (Cluster.Act n Cmd)) (pt : SnapshotPoint) : Prop :=
  0 < pt.index → Produced acts pt

theorem Coherent.snoc {acts : List (Cluster.Act n Cmd)} {pt : SnapshotPoint}
    (h : Coherent acts pt) (a : Cluster.Act n Cmd) : Coherent (acts ++ [a]) pt :=
  fun hpos => (h hpos).snoc a

/-- All points in memory, in stable storage and on the network have been made. -/
structure PointInv (acts : List (Cluster.Act n Cmd)) (c : Cluster n Cmd) : Prop where
  memory : ∀ i, Coherent acts (c.peers i).rf.snapshotPoint
  persister : ∀ i, ∀ pt ∈ (c.peers i).rf.persister.snapshotPoint?, Coherent acts pt
  installs : ∀ r ∈ c.installs, Coherent acts r.args.snapshotPoint

theorem pointInv_init (n : ℕ) (Cmd : Type*) : PointInv [] (Cluster.init n Cmd) where
  memory _ h := absurd h (lt_irrefl 0)
  persister _ := nofun
  installs := nofun

section

variable {acts : List (Cluster.Act n Cmd)} {c c' : Cluster n Cmd} {a : Cluster.Act n Cmd}

theorem PointInv.memory_step (hinv : PointInv acts c)
    (hc : exec Cluster.step (Cluster.init n Cmd) acts = some c) (h : c.step a = some c')
    (i : Fin n) : Coherent (acts ++ [a]) (c'.peers i).rf.snapshotPoint := by
  rcases Cluster.step_delivers h i with he | ⟨-, he⟩ | ⟨b, hdelivers, hb⟩
  · rw [he]
    exact (hinv.memory i).snoc a
  · rw [he]
    rcases Peer.restart_snapshotPoint (c.peers i) with hzero | hpt
    · exact fun hpos => absurd hzero hpos.ne'
    · exact (hinv.persister i _ hpt).snoc a
  · rcases Peer.step_snapshotPoint hb with he | ⟨args, rfl, he⟩ | ⟨index, data, rfl, hmakes⟩
    · rw [he]
      exact (hinv.memory i).snoc a
    · obtain ⟨r, hr, -, rfl⟩ := hdelivers.arrives
      rw [he]
      exact (hinv.installs r hr).snoc a
    · obtain rfl : a = .snapshot i index data := hdelivers
      intro _
      obtain ⟨hinc, hcommit, entry, hentry, hpt⟩ := hmakes
      rw [hpt]
      exact ⟨acts, [], i, c, rfl, hc, hinc, hcommit, entry, hentry, rfl⟩

theorem PointInv.persister_step (hinv : PointInv acts c)
    (hmemory : ∀ i, Coherent (acts ++ [a]) (c'.peers i).rf.snapshotPoint)
    (h : c.step a = some c') (i : Fin n) :
    ∀ pt ∈ (c'.peers i).rf.persister.snapshotPoint?, Coherent (acts ++ [a]) pt := by
  have hsame : (c'.peers i).rf.persister = (c.peers i).rf.persister →
      ∀ pt ∈ (c'.peers i).rf.persister.snapshotPoint?, Coherent (acts ++ [a]) pt := by
    intro he pt hpt
    rw [he] at hpt
    exact (hinv.persister i pt hpt).snoc a
  rcases Cluster.step_peer h i with he | ⟨-, he⟩ | ⟨b, -, hb⟩
  · exact hsame (by rw [he])
  · exact hsame (by rw [he, Peer.restart_persister])
  · rcases Peer.step_persister hb with he | he
    · exact hsame he
    · intro pt hpt
      obtain rfl := Option.some.inj (he.symm.trans hpt)
      exact hmemory i

theorem PointInv.installs_step (hinv : PointInv acts c)
    (hmemory : ∀ i, Coherent (acts ++ [a]) (c'.peers i).rf.snapshotPoint)
    (h : c.step a = some c') :
    ∀ r ∈ c'.installs, Coherent (acts ++ [a]) r.args.snapshotPoint := by
  intro r' hr'
  rcases Cluster.step_installs h hr' with ⟨r, hr, hcont⟩ | ⟨-, hfresh⟩
  · rw [hcont.args]
    exact (hinv.installs r hr).snoc a
  · rcases heartbeatTo_cases hfresh.sent with ⟨-, he⟩ | ⟨_, _, -, -, -, -, he⟩
    · obtain ⟨-, hargs⟩ := Outgoing.installSnapshot.inj he
      rw [hargs]
      exact hmemory r'.src
    · cases he

theorem pointInv_exec (h : exec Cluster.step (Cluster.init n Cmd) acts = some c) :
    PointInv acts c := by
  refine exec_history (pointInv_init n Cmd) ?_ h
  intro acts c a c' hc hinv hs
  have hmemory := hinv.memory_step hc hs
  exact ⟨hmemory, hinv.persister_step hmemory hs, hinv.installs_step hmemory hs⟩

/-- In every state of every run, the index, the term and the bytes of each
snapshot in memory, in stable storage and on its way to a peer were produced
together by an accepted `Snapshot`. -/
theorem snapshotPoints_produced (h : exec Cluster.step (Cluster.init n Cmd) acts = some c) :
    (∀ i, 0 < (c.peers i).rf.lastIncludedIndex →
      Produced acts ⟨(c.peers i).rf.lastIncludedIndex, (c.peers i).rf.logs.zero.term,
        (c.peers i).rf.snapshot⟩) ∧
    (∀ i status, (c.peers i).rf.persister.raftstate = some status →
      0 < status.lastIncludedIndex →
      Produced acts ⟨status.lastIncludedIndex, status.lastIncludedTerm,
        (c.peers i).rf.persister.snapshot⟩) ∧
    ∀ r ∈ c.installs, 0 < r.args.lastIncludedIndex →
      Produced acts ⟨r.args.lastIncludedIndex, r.args.lastIncludedTerm, r.args.data⟩ := by
  have hinv := pointInv_exec h
  refine ⟨hinv.memory, fun i status hstatus => ?_, hinv.installs⟩
  refine hinv.persister i ⟨_, _, _⟩ ?_
  rw [Persister.snapshotPoint?, hstatus]
  rfl

end

/-- Peer 0 commits the command 7, compacts its log, offers the snapshot to peer 2
and restarts; peer 2 takes the snapshot over. -/
def compactAndRestart : List (Cluster.Act 3 ℕ) :=
  [.ticker 0, .requestVote 0, .voteReply 0, .start 0 (some 7), .heartbeat 0, .appendEntries 2,
    .appendReply 2, .snapshot 0 1 [42], .heartbeat 0, .restart 0, .installSnapshot 0]

theorem snapshotPoints_produced_compactAndRestart :
    ∃ c, exec Cluster.step (Cluster.init 3 ℕ) compactAndRestart = some c ∧
      (c.peers 2).rf.lastIncludedIndex = 1 ∧
      Produced compactAndRestart
        ⟨(c.peers 2).rf.lastIncludedIndex, (c.peers 2).rf.logs.zero.term,
          (c.peers 2).rf.snapshot⟩ :=
  ⟨_, rfl, by decide,
    (snapshotPoints_produced
      (show exec Cluster.step (Cluster.init 3 ℕ) compactAndRestart = some _ from rfl)).1 2
      (by decide)⟩

end Raft

end DistributedLabs
