import DistributedLabs.Raft.SnapshotPoint

/-!
# Where the entries of the logs come from

A successful call of `Start` returns the index and the term at which it has put the
command. No other step makes an entry: in every run, with crashes, snapshots and any
traffic, the entries of all logs, in memory, in stable storage and on the network,
stand at an index and have a term that some `Start` has returned for their command.
-/

namespace DistributedLabs

namespace Raft

variable {n : ℕ} {Cmd : Type*}

/-- A command with the index and the term that `Start` returned for it. -/
structure Placed (Cmd : Type*) where
  term : ℕ
  index : ℕ
  cmd : Option Cmd
deriving DecidableEq, Repr

/-- The place of a command: a term and an index. -/
def Placed.place (b : Placed Cmd) : ℕ × ℕ := (b.term, b.index)

/-- What a call of `Start` returns to its caller, if it is successful. -/
def placed? (rf : Raft n Cmd) (command : Option Cmd) : Option (Placed Cmd) :=
  match (rf.start command).2 with
  | (index, term, true) => some ⟨term.toNat, index.toNat, command⟩
  | (_, _, false) => none

/-- The successful calls of `Start` among the steps of a cluster. -/
def Cluster.places (c : Cluster n Cmd) : Cluster.Act n Cmd → List (Placed Cmd)
  | .start i command => ((c.peers i).rf.placed? command).toList
  | _ => []

theorem placed?_of_leader {rf : Raft n Cmd} (h : rf.state = .leader) (command : Option Cmd) :
    rf.placed? command = some ⟨rf.currentTerm, rf.lastLogIndex + 1, command⟩ := by
  have hstart : (rf.start command).2 =
      (((rf.lastLogIndex + 1 : ℕ) : ℤ), (rf.currentTerm : ℤ), true) := by
    simp [start, h, persist, lastLogIndex_eq, Logs.push, Nat.add_assoc]
  rw [placed?, hstart]
  rfl

theorem placed?_of_not_leader {rf : Raft n Cmd} (h : rf.state ≠ .leader) (command : Option Cmd) :
    rf.placed? command = none := by
  simp [placed?, start, h]

/-! ## Entries with a known origin -/

/-- The entries of `l`, which follow the index `inc`, have been placed where they are. -/
def Traced (born : List (Placed Cmd)) (inc : ℕ) (l : List (LogEntry Cmd)) : Prop :=
  ∀ k e, l[k]? = some e → ⟨e.term, inc + k + 1, e.cmd⟩ ∈ born

namespace Traced

variable {born born' : List (Placed Cmd)} {inc : ℕ} {l : List (LogEntry Cmd)}

theorem mono (h : Traced born inc l) (hborn : born ⊆ born') : Traced born' inc l :=
  fun k e he => hborn (h k e he)

theorem drop (h : Traced born inc l) (d : ℕ) : Traced born (inc + d) (l.drop d) := by
  intro k e he
  rw [List.getElem?_drop] at he
  have hplaced := h (d + k) e he
  rwa [← Nat.add_assoc] at hplaced

theorem take (h : Traced born inc l) (d : ℕ) : Traced born inc (l.take d) := by
  intro k e he
  have htake := List.take_prefix d l
  exact h k e (getElem?_of_isPrefix htake he)

theorem concat (h : Traced born inc l) {e : LogEntry Cmd}
    (he : ⟨e.term, inc + l.length + 1, e.cmd⟩ ∈ born) : Traced born inc (l ++ [e]) := by
  intro k e' he'
  rcases getElem?_concat_cases he' with hold | ⟨rfl, rfl⟩
  · exact h k e' hold
  · exact he

/-- One round of the copy loop, at a slot above slot 0. -/
theorem copyEntry {logs : Logs Cmd} (h : Traced born inc logs.rest) {k : ℕ} {e : LogEntry Cmd}
    (he : ⟨e.term, inc + k + 1, e.cmd⟩ ∈ born) :
    Traced born inc (Raft.copyEntry logs (k + 1) e).rest := by
  unfold Raft.copyEntry
  split
  · rename_i old hold
    split
    · have hk : (logs.rest.take k).length = k := by
        rw [Logs.get?_succ] at hold
        exact List.length_take_of_le (List.getElem?_eq_some_iff.mp hold).1.le
      exact (h.take k).concat (hk.symm ▸ he)
    · exact h
  · split
    · rename_i hlen
      rw [Logs.length_eq] at hlen
      obtain rfl : k = logs.rest.length := Nat.succ.inj hlen
      exact h.concat he
    · exact h

theorem copyEntries {logs : Logs Cmd} (h : Traced born inc logs.rest) {k : ℕ}
    {entries : List (LogEntry Cmd)} (hentries : Traced born (inc + k) entries) :
    Traced born inc (Raft.copyEntries logs (k + 1) entries).rest := by
  induction entries generalizing logs k with
  | nil => exact h
  | cons e entries ih =>
      rw [Raft.copyEntries]
      exact ih (h.copyEntry (hentries 0 e rfl)) (hentries.drop 1)

end Traced

/-! ## The steps of a peer -/

section

variable {born : List (Placed Cmd)} {rf rf' : Raft n Cmd}

/-- The entries in the memory of a peer have been placed. -/
def LogTraced (born : List (Placed Cmd)) (rf : Raft n Cmd) : Prop :=
  Traced born rf.lastIncludedIndex rf.logs.rest

/-- The command of a successful `Start` is placed at the index after the last one. -/
theorem LogTraced.start (h : rf.LogTraced born) (command : Option Cmd) :
    (rf.start command).1.LogTraced (born ++ (rf.placed? command).toList) := by
  have hmore : Traced (born ++ (rf.placed? command).toList) rf.lastIncludedIndex rf.logs.rest :=
    Traced.mono h (List.subset_append_left _ _)
  rcases start_cases rf command with ⟨-, he⟩ | ⟨hlead, rf₁, rfl, he⟩
  · rw [he]
    exact hmore
  · rw [he]
    refine hmore.concat ?_
    rw [placed?_of_leader hlead, ← lastLogIndex_eq]
    exact List.mem_append_right _ (List.mem_singleton.mpr rfl)

theorem LogTraced.appendEntries (h : rf.LogTraced born) {args : AppendEntriesArgs n Cmd}
    (hargs : Traced born args.prevLogIndex args.entries) {reply : AppendEntriesReply}
    (hrf : rf.appendEntries args = some (rf', reply)) : rf'.LogTraced born := by
  rcases appendEntries_cases hrf with ⟨-, rfl, -⟩ | ⟨-, rf₁, hrep, rfl⟩
  · exact h
  · have hadopt : (rf.toFollower.adoptTerm args.term).LogTraced born := by
      obtain ⟨_, _, he⟩ := adoptTerm_frame rf.toFollower args.term
      rw [he]
      exact h
    rcases replicate_cases hrep with ⟨rfl, -⟩ | ⟨old, hinc, -, -, -, rfl, -⟩
    · exact hadopt
    · set rf₀ := rf.toFollower.adoptTerm args.term
      have hindex : rf₀.logIndex (args.prevLogIndex + 1) =
          args.prevLogIndex - rf₀.lastIncludedIndex + 1 := by
        unfold logIndex
        omega
      have hcopy : Traced born rf₀.lastIncludedIndex
          (copyEntries rf₀.logs (rf₀.logIndex (args.prevLogIndex + 1)) args.entries).rest := by
        rw [hindex]
        refine Traced.copyEntries hadopt ?_
        rwa [Nat.add_sub_cancel' hinc]
      rcases followCommit_cases { rf₀ with
          logs := copyEntries rf₀.logs (rf₀.logIndex (args.prevLogIndex + 1)) args.entries }
        args.leaderCommit with ⟨-, he⟩ | ⟨-, he⟩
      · rw [he]
        exact hcopy
      · rw [he]
        exact hcopy

/-- `InstallSnapshot` keeps entries only at the indices they have. -/
theorem LogTraced.installSnapshot (h : rf.LogTraced born) (args : InstallSnapshotArgs n) :
    (rf.installSnapshot args).1.LogTraced born := by
  rcases installSnapshot_cases rf args with ⟨-, he⟩ | ⟨-, -, he⟩ | ⟨-, hinc, -, he⟩
  · rw [he]
    exact h
  · rw [he]
    obtain ⟨_, _, ha⟩ := adoptTerm_frame rf args.term
    rw [ha]
    exact h
  · rw [he]
    change Traced born args.lastIncludedIndex (rf.keptEntries args)
    rcases keptEntries_cases rf hinc with ⟨-, -, hkept⟩ | ⟨-, hkept⟩
    · rw [hkept]
      have hdrop := Traced.drop h (args.lastIncludedIndex - rf.lastIncludedIndex)
      rwa [Nat.add_sub_cancel' hinc.le] at hdrop
    · rw [hkept]
      intro k e hk
      cases hk

theorem LogTraced.snapshotUpTo (h : rf.LogTraced born) {index : ℕ} {data : Bytes}
    (hrf : rf.snapshotUpTo index data = some rf') : rf'.LogTraced born := by
  rcases snapshotUpTo_cases hrf with rfl | ⟨-, hinc, entry, -, rfl⟩
  · exact h
  · have hdrop := Traced.drop h (index - rf.lastIncludedIndex)
    rwa [Nat.add_sub_cancel' hinc.le] at hdrop

/-- A step of a peer makes no entry but the one of a successful `Start`. -/
theorem LogTraced.step {p p' : Peer n Cmd} (h : p.rf.LogTraced born) {b : Peer.Act n Cmd}
    (hstart : ∀ command, b = .start command → (p.rf.placed? command).toList ⊆ born)
    (hargs : ∀ args, b = .appendEntries args → Traced born args.prevLogIndex args.entries)
    (hs : p.step b = some p') : p'.rf.LogTraced born := by
  cases b with
  | ticker =>
      obtain rfl := Option.some.inj hs
      exact h
  | heartbeat =>
      obtain ⟨out, -, rfl⟩ := Option.map_eq_some_iff.mp hs
      exact h
  | start command =>
      obtain rfl := Option.some.inj hs
      exact Traced.mono (h.start command)
        (List.append_subset.mpr ⟨List.Subset.refl born, hstart command rfl⟩)
  | snapshot index data =>
      obtain ⟨rf, hrf, rfl⟩ := Option.map_eq_some_iff.mp hs
      exact h.snapshotUpTo hrf
  | requestVote args =>
      obtain rfl := Option.some.inj hs
      obtain ⟨_, _, _, _, he⟩ := requestVote_frame p.rf args
      rw [Peer.setRf, he]
      exact h
  | appendEntries args =>
      obtain ⟨r, hr, rfl⟩ := Option.map_eq_some_iff.mp hs
      exact h.appendEntries (hargs args rfl) hr
  | installSnapshot args =>
      obtain rfl := Option.some.inj hs
      exact h.installSnapshot args
  | voteReply args reply =>
      obtain ⟨r, hr, rfl⟩ := Option.map_eq_some_iff.mp hs
      obtain ⟨_, _, _, _, _, _, _, he⟩ := handleVoteReply_frame hr
      rw [Peer.setRf, he]
      exact h
  | appendReply peer args reply =>
      obtain ⟨rf, hrf, rfl⟩ := Option.map_eq_some_iff.mp hs
      obtain ⟨_, _, _, _, _, _, he⟩ := handleSendAppendEntries_frame hrf
      rw [Peer.setRf, he]
      exact h
  | snapshotReply peer args reply =>
      obtain rfl := Option.some.inj hs
      obtain ⟨_, _, _, _, _, he⟩ := handleSendInstallSnapshot_frame p.rf peer args reply
      rw [Peer.setRf, he]
      exact h
  | applier =>
      obtain ⟨-, -, _, _, he⟩ := Peer.applierStep_frame hs
      rw [he]
      exact h
  | poll k =>
      obtain ⟨sender, -, -, rfl⟩ := Peer.pollStep_eq_some.mp hs
      exact h
  | send k =>
      obtain ⟨sender, -, -, rfl⟩ := Peer.sendStep_eq_some.mp hs
      exact h

/-- A step saves the whole status, or leaves the persister alone. -/
theorem Peer.step_saved {p p' : Peer n Cmd} {b : Peer.Act n Cmd} (h : p.step b = some p') :
    p'.rf.persister = p.rf.persister ∨ p'.rf.persister.raftstate = some p'.rf.status := by
  have hsaves : Peer.savesAt p b →
      p'.rf.persister = p.rf.persister ∨ p'.rf.persister.raftstate = some p'.rf.status := by
    intro hsave
    rcases Peer.step_saves hsave h with he | ⟨he, -, -⟩
    · right
      rw [he]
    · exact Or.inl he
  cases b with
  | installSnapshot args =>
      obtain rfl := Option.some.inj h
      rcases p.installSnapshot_outcome args with he | he | ⟨-, -, he⟩
      · rw [he]
        exact Or.inl rfl
      · rw [he]
        obtain ⟨_, _, ha⟩ := adoptTerm_frame p.rf args.term
        rw [ha]
        exact Or.inl rfl
      · rw [he]
        exact Or.inr rfl
  | _ => exact hsaves trivial

end

/-! ## Runs of a cluster -/

/-- All entries in memory, in stable storage and on the network have been placed. -/
structure Created (born : List (Placed Cmd)) (c : Cluster n Cmd) : Prop where
  memory : ∀ i, (c.peers i).rf.LogTraced born
  persister : ∀ i, ∀ status ∈ (c.peers i).rf.persister.raftstate,
    Traced born status.lastIncludedIndex status.logs.rest
  calls : ∀ r ∈ c.appends, Traced born r.args.prevLogIndex r.args.entries

theorem created_init (n : ℕ) (Cmd : Type*) : Created [] (Cluster.init n Cmd) where
  memory _ k e hk := by cases hk
  persister _ status hstatus := by cases hstatus
  calls r hr := by cases hr

section

variable {born : List (Placed Cmd)} {c c' : Cluster n Cmd} {a : Cluster.Act n Cmd}

theorem Created.memory_step (h : Created born c) (hs : c.step a = some c') (i : Fin n) :
    (c'.peers i).rf.LogTraced (born ++ c.places a) := by
  have hmore : born ⊆ born ++ c.places a := List.subset_append_left _ _
  rcases Cluster.step_delivers hs i with he | ⟨-, he⟩ | ⟨b, hdelivers, hb⟩
  · rw [he]
    exact Traced.mono (h.memory i) hmore
  · rw [he]
    unfold Peer.restart Peer.make make readPersist
    dsimp only
    cases hstate : (c.peers i).rf.persister.raftstate with
    | none =>
        intro k e hk
        cases hk
    | some status => exact (h.persister i status hstate).mono hmore
  · refine LogTraced.step (Traced.mono (h.memory i) hmore) ?_ ?_ hb
    · rintro command rfl
      obtain rfl : a = .start i command := hdelivers
      exact List.subset_append_right _ _
    · rintro args rfl
      obtain ⟨r, hr, -, rfl⟩ := hdelivers.arrives
      exact (h.calls r hr).mono hmore

theorem Created.step (h : Created born c) (hs : c.step a = some c') :
    Created (born ++ c.places a) c' where
  memory := h.memory_step hs
  persister i := by
    have hsame : (c'.peers i).rf.persister = (c.peers i).rf.persister →
        ∀ status ∈ (c'.peers i).rf.persister.raftstate,
          Traced (born ++ c.places a) status.lastIncludedIndex status.logs.rest := by
      intro he status hstatus
      rw [he] at hstatus
      exact (h.persister i status hstatus).mono (List.subset_append_left _ _)
    rcases Cluster.step_peer hs i with he | ⟨-, he⟩ | ⟨b, -, hb⟩
    · exact hsame (by rw [he])
    · exact hsame (by rw [he, Peer.restart_persister])
    · rcases Peer.step_saved hb with he | he
      · exact hsame he
      · rintro status hstatus
        obtain rfl := Option.some.inj (he.symm.trans hstatus)
        exact h.memory_step hs i
  calls r' hr' := by
    rcases Cluster.step_appends hs hr' with ⟨r, hr, hcont⟩ | ⟨-, hfresh⟩
    · rw [hcont.args]
      exact (h.calls r hr).mono (List.subset_append_left _ _)
    · rcases heartbeatTo_cases hfresh.sent with ⟨-, he⟩ | ⟨prev, old, -, hinc, -, -, he⟩
      · cases he
      · obtain ⟨-, hargs⟩ := Outgoing.appendEntries.inj he
        rw [hargs]
        have hdrop := Traced.drop (h.memory_step hs r'.src)
          (prev - (c'.peers r'.src).rf.lastIncludedIndex)
        rwa [Nat.add_sub_cancel' hinc] at hdrop

/-- What the calls of `Start` in a run have placed. -/
def placedIn (acts : List (Cluster.Act n Cmd)) : List (Placed Cmd) :=
  emits Cluster.step Cluster.places (Cluster.init n Cmd) acts

theorem created_exec {acts : List (Cluster.Act n Cmd)}
    (h : exec Cluster.step (Cluster.init n Cmd) acts = some c) : Created (placedIn acts) c :=
  emits_invariant (I := fun c born => Created born c) (fun _ _ _ _ hI _ hs => hI.step hs)
    (created_init n Cmd) (meets_of_forall (p := fun _ => True) _ fun _ _ => trivial) h

end

/-- No log entry is invented: in every state of every run, with any crashes, snapshots
and traffic, an entry above the snapshot point of a peer was placed, at its index and
with its term, by a successful call of `Start` with its command. -/
theorem entryAt?_placed {acts : List (Cluster.Act n Cmd)} {c : Cluster n Cmd}
    (h : exec Cluster.step (Cluster.init n Cmd) acts = some c) {i : Fin n} {k : ℕ}
    {e : LogEntry Cmd} (hk : (c.peers i).rf.lastIncludedIndex < k)
    (he : (c.peers i).rf.entryAt? k = some e) : ⟨e.term, k, e.cmd⟩ ∈ placedIn acts := by
  obtain ⟨d, rfl⟩ := Nat.exists_eq_add_of_lt hk
  rw [entryAt?_of_le _ hk.le, Nat.add_assoc, Nat.add_sub_cancel_left, Logs.get?_succ] at he
  exact (created_exec h).memory i d e he

/-- Peer 0 is elected and places two commands; peer 1 copies both, crashes and reads them
back. -/
def copyThenCrash : List (Cluster.Act 3 ℕ) :=
  [.ticker 0, .requestVote 0, .voteReply 0, .start 0 (some 7), .start 0 (some 8),
    .start 1 (some 9), .heartbeat 0, .appendEntries 2, .restart 1]

theorem entryAt?_placed_copyThenCrash :
    ∃ c, exec Cluster.step (Cluster.init 3 ℕ) copyThenCrash = some c ∧
      (c.peers 1).rf.entryAt? 2 = some { term := 1, cmd := some 8 } ∧
      ⟨1, 2, some 8⟩ ∈ placedIn copyThenCrash ∧
      placedIn copyThenCrash = [⟨1, 1, some 7⟩, ⟨1, 2, some 8⟩] :=
  ⟨_, rfl, by decide, entryAt?_placed (i := 1) (e := { term := 1, cmd := some 8 })
    (show exec Cluster.step (Cluster.init 3 ℕ) copyThenCrash = some _ from rfl) (by decide)
    (by decide), by decide⟩

end Raft

end DistributedLabs
