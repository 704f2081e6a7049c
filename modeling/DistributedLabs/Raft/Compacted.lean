import DistributedLabs.Raft.Acknowledgements
import DistributedLabs.Raft.Contract
import DistributedLabs.Raft.Indices
import DistributedLabs.Raft.KeptSuffix

/-!
# The guarantees of the log with snapshots

Log matching, leader completeness and state machine safety in runs with `Snapshot` and
`InstallSnapshot`. There is no restart, and the loop of `InstallSnapshot` takes the decision
it would take on the entry at the snapshot point. The guarantees are about the full logs;
a peer shows the part of its own above the snapshot point.
-/

namespace DistributedLabs

namespace Raft

open Consensus

variable {n : ℕ} {Cmd : Type*}

/-- No restart, and the test of `InstallSnapshot` has the right outcome. -/
def faultless (c : Cluster n Cmd) (a : Cluster.Act n Cmd) : Prop :=
  a.isRestart = false ∧ snapshotSafe c a

instance (c : Cluster n Cmd) (a : Cluster.Act n Cmd) : Decidable (faultless c a) :=
  inferInstanceAs (Decidable (a.isRestart = false ∧ snapshotSafe c a))

theorem Refines.step_of_faultless {c c' : Cluster n Cmd} {st : Book n Cmd}
    {a : Cluster.Act n Cmd} (h : Refines c st) (hok : faultless c a) (hs : c.step a = some c') :
    ∃ st', st ≤ st' ∧ Refines c' st' := by
  refine h.step ⟨?_, hok.2⟩ hs
  rintro i rfl
  exact nomatch hok.1

/-- An index that a peer still holds shows the term of its full log there. -/
theorem Keeps.exists_getElem? {rf : Raft n Cmd} {l : List (LogEntry Cmd)} (h : rf.Keeps l) {k : ℕ}
    {e : LogEntry Cmd} (hk : rf.lastIncludedIndex ≤ k + 1) (he : rf.entryAt? (k + 1) = some e) :
    ∃ d, l[k]? = some d ∧ d.term = e.term := by
  have hlen : k + 1 ≤ l.length := by
    by_contra hlt
    rw [entryAt?_eq_none (by rw [h.lastLogIndex]; omega)] at he
    cases he
  have hd := List.getElem?_eq_getElem hlen
  refine ⟨_, hd, ?_⟩
  rw [h.entryAt?_term hk he, tipTerm_take_succ _ hd]

/-! ## Log matching -/

/-- Log matching with snapshots: if two peers show the same term at an index, be it the
snapshot point of one of them, their logs are identical at every index up to it that both
still hold. -/
theorem entryAt?_eq_above_snapshots {acts : List (Cluster.Act n Cmd)} {c : Cluster n Cmd}
    (hok : meets Cluster.step faultless (Cluster.init n Cmd) acts)
    (hexec : exec Cluster.step (Cluster.init n Cmd) acts = some c) {i j : Fin n} {k : ℕ}
    {e e' : LogEntry Cmd} (hi : (c.peers i).rf.lastIncludedIndex ≤ k)
    (hj : (c.peers j).rf.lastIncludedIndex ≤ k) (he : (c.peers i).rf.entryAt? k = some e)
    (he' : (c.peers j).rf.entryAt? k = some e') (hterm : e.term = e'.term) :
    ∀ m ≤ k, max (c.peers i).rf.lastIncludedIndex (c.peers j).rf.lastIncludedIndex < m →
      (c.peers i).rf.entryAt? m = (c.peers j).rf.entryAt? m := by
  obtain ⟨st, -, h⟩ := exec_simulation (fun _ _ _ _ h ha hs => Refines.step_of_faultless h ha hs)
    (refines_init n Cmd) hok hexec
  have hlogi := (h.peers i).log
  have hlogj := (h.peers j).log
  intro m hm hmax
  obtain ⟨hmi, hmj⟩ := max_lt_iff.mp hmax
  obtain ⟨k, rfl⟩ : ∃ k', k = k' + 1 := ⟨k - 1, by omega⟩
  obtain ⟨m, rfl⟩ : ∃ m', m = m' + 1 := ⟨m - 1, by omega⟩
  obtain ⟨d, hd, hdterm⟩ := hlogi.exists_getElem? hi he
  obtain ⟨d', hd', hdterm'⟩ := hlogj.exists_getElem? hj he'
  have htake := (h.inv.logs.log_good i).take_eq (h.inv.logs.log_good j) hd hd'
    (hdterm.trans (hterm.trans hdterm'.symm))
  rw [hlogi.entryAt?_succ (Nat.lt_succ_iff.mp hmi), hlogj.entryAt?_succ (Nat.lt_succ_iff.mp hmj),
    ← List.getElem?_take_of_lt hm, htake, List.getElem?_take_of_lt hm]

/-- Peer 0 and peer 2 have compacted the command 7, and peer 2 holds the command 8. -/
def installed : List (Cluster.Act 3 ℕ) := electZero ++ offerSnapshot ++ snapshotFirst

theorem entryAt?_eq_above_snapshots_installed :
    ∃ c, exec Cluster.step (Cluster.init 3 ℕ) installed = some c ∧
      (c.peers 0).rf.lastIncludedIndex = 1 ∧ (c.peers 2).rf.lastIncludedIndex = 1 ∧
      (c.peers 0).rf.entryAt? 2 = (c.peers 2).rf.entryAt? 2 := by
  refine ⟨_, rfl, by decide, by decide, ?_⟩
  have hsame := entryAt?_eq_above_snapshots (i := 0) (j := 2) (k := 2)
    (show meets Cluster.step faultless (Cluster.init 3 ℕ) installed by decide)
    (show exec Cluster.step (Cluster.init 3 ℕ) installed = some _ from rfl) (by decide)
    (by decide) (show _ = some { term := 1, cmd := some 8 } by decide)
    (show _ = some { term := 1, cmd := some 8 } by decide) rfl
  exact hsame 2 le_rfl (by decide)

/-! ## Leader completeness -/

/-- Leader completeness with snapshots: an index that a peer has committed in some term is
in the log of every leader of a later term, and a leader that has not compacted it holds
the same entry there. -/
theorem committed_entry_above_snapshots {acts : List (Cluster.Act n Cmd)}
    {c₁ c₂ : Cluster n Cmd} (hok : meets Cluster.step faultless (Cluster.init n Cmd) acts)
    (h₁ : passes Cluster.step (Cluster.init n Cmd) acts c₁)
    (h₂ : passes Cluster.step (Cluster.init n Cmd) acts c₂) {i j : Fin n} {k : ℕ}
    (hk : k ≤ (c₁.peers i).rf.commitIndex) (hj : (c₂.peers j).rf.state = .leader)
    (hterm : (c₁.peers i).rf.currentTerm < (c₂.peers j).rf.currentTerm) :
    k ≤ (c₂.peers j).rf.lastLogIndex ∧
      (max (c₁.peers i).rf.lastIncludedIndex (c₂.peers j).rf.lastIncludedIndex < k →
        (c₂.peers j).rf.entryAt? k = (c₁.peers i).rf.entryAt? k) := by
  obtain ⟨st₁, st₂, hr₁, hr₂, hle⟩ :=
    passes_simulation (fun _ _ _ _ h ha hs => Refines.step_of_faultless h ha hs)
      (refines_init n Cmd) hok h₁ h₂
  have hrel₁ := hr₁.peers i
  have hrel₂ := hr₂.peers j
  obtain ⟨hleads, hown⟩ := hr₂.lead_eq hj
  obtain ⟨l, hstood⟩ := hr₂.inv.votes.leads_stood hleads
  have hbase := hr₂.inv.logs.base hleads hstood
  -- what is committed at the first moment is in the log the later leader stood with
  have hstart : (st₁.log i).take (c₁.peers i).rf.commitIndex <+: l := by
    rcases hle with hle | hle
    · exact hr₂.inv.chosen_stood (hrel₁.chosen.mono hle le_rfl) hleads hstood hterm
    · exact hr₁.inv.chosen_stood hrel₁.chosen (hle.leads hleads) (hle.stood hstood) hterm
  have hall := hstart.trans (hown ▸ hbase)
  have hlen := hall.length_le
  rw [List.length_take_of_le hrel₁.committed] at hlen
  refine ⟨?_, fun hmax => ?_⟩
  · rw [hrel₂.log.lastLogIndex]
    exact hk.trans hlen
  · obtain ⟨hi, hj⟩ := max_lt_iff.mp hmax
    obtain ⟨k, rfl⟩ : ∃ k', k = k' + 1 := ⟨k - 1, by omega⟩
    rw [hrel₁.log.entryAt?_succ (Nat.lt_succ_iff.mp hi),
      hrel₂.log.entryAt?_succ (Nat.lt_succ_iff.mp hj)]
    obtain ⟨rest, hrest⟩ := hall
    rw [← hrest, List.getElem?_append_left, List.getElem?_take_of_lt hk]
    rw [List.length_take_of_le hrel₁.committed]
    exact hk

/-- Peer 1 is elected in term 2 with the vote of peer 2. -/
def electOne : List (Cluster.Act 3 ℕ) := [.ticker 1, .requestVote 3, .voteReply 3]

theorem committed_entry_above_snapshots_installed :
    ∃ c₁ c₂, exec Cluster.step (Cluster.init 3 ℕ) installed = some c₁ ∧
      exec Cluster.step c₁ electOne = some c₂ ∧ (c₁.peers 0).rf.commitIndex = 2 ∧
      (c₁.peers 0).rf.lastIncludedIndex = 1 ∧ (c₂.peers 1).rf.state = .leader ∧
      2 ≤ (c₂.peers 1).rf.lastLogIndex ∧
      (c₂.peers 1).rf.entryAt? 2 = (c₁.peers 0).rf.entryAt? 2 := by
  refine ⟨_, _, rfl, rfl, by decide, by decide, by decide, ?_⟩
  have hlater := committed_entry_above_snapshots (i := 0) (j := 1) (k := 2)
    (show meets Cluster.step faultless (Cluster.init 3 ℕ) (installed ++ electOne) by decide)
    ⟨installed, electOne, rfl, rfl⟩ (passes_last rfl) (by decide) (by decide) (by decide)
  exact ⟨hlater.1, hlater.2 (by decide)⟩

/-! ## The goroutines of a peer -/

namespace Peer

/-- What a step of a peer does to the goroutines that send on `applyCh`. -/
inductive Turns (p : Peer n Cmd) : Act n Cmd → Peer n Cmd → Prop
  | rest (b : Act n Cmd) (p' : Peer n Cmd) (happlier : p'.applier = p.applier)
      (hdelivered : p'.delivered = p.delivered) (hsenders : p'.senders = p.senders) : Turns p b p'
  | apply (p' : Peer n Cmd) (h : p.Applies p') : Turns p .applier p'
  | install (args : InstallSnapshotArgs n) (rf : Raft n Cmd)
      (hlt : p.rf.lastIncludedIndex < args.lastIncludedIndex) :
      Turns p (.installSnapshot args)
        { p with
          rf := rf
          senders := p.senders ++
            [{ msg := .snapshot args.data args.lastIncludedTerm args.lastIncludedIndex }] }
  | poll (k : ℕ) (sender : Sender Cmd) (hk : p.senders[k]? = some sender) :
      Turns p (.poll k) { p with senders := p.senders.set k { sender with ready := true } }
  | send (k : ℕ) (sender : Sender Cmd) (hk : p.senders[k]? = some sender) :
      Turns p (.send k)
        { p with delivered := p.delivered ++ [sender.msg], senders := p.senders.eraseIdx k }

theorem turns_of_step {p p' : Peer n Cmd} {b : Act n Cmd} (h : p.step b = some p') :
    p.Turns b p' := by
  cases b with
  | ticker =>
      obtain rfl := Option.some.inj h
      exact .rest _ _ rfl rfl rfl
  | heartbeat =>
      obtain ⟨out, -, rfl⟩ := Option.map_eq_some_iff.mp h
      exact .rest _ _ rfl rfl rfl
  | start command =>
      obtain rfl := Option.some.inj h
      exact .rest _ _ rfl rfl rfl
  | snapshot index data =>
      obtain ⟨rf, -, rfl⟩ := Option.map_eq_some_iff.mp h
      exact .rest _ _ rfl rfl rfl
  | requestVote args =>
      obtain rfl := Option.some.inj h
      exact .rest _ _ rfl rfl rfl
  | appendEntries args =>
      obtain ⟨r, -, rfl⟩ := Option.map_eq_some_iff.mp h
      exact .rest _ _ rfl rfl rfl
  | installSnapshot args =>
      obtain rfl := Option.some.inj h
      rcases p.installSnapshot_outcome args with he | he | ⟨hlt, -, he⟩
      · rw [he]
        exact .rest _ _ rfl rfl rfl
      · rw [he]
        exact .rest _ _ rfl rfl rfl
      · rw [he]
        exact .install args _ hlt
  | voteReply args reply =>
      obtain ⟨r, -, rfl⟩ := Option.map_eq_some_iff.mp h
      exact .rest _ _ rfl rfl rfl
  | appendReply peer args reply =>
      obtain ⟨rf, -, rfl⟩ := Option.map_eq_some_iff.mp h
      exact .rest _ _ rfl rfl rfl
  | snapshotReply peer args reply =>
      obtain rfl := Option.some.inj h
      exact .rest _ _ rfl rfl rfl
  | applier => exact .apply p' (applierStep_applies h)
  | poll k =>
      obtain ⟨sender, hk, -, rfl⟩ := pollStep_eq_some.mp h
      exact .poll k sender hk
  | send k =>
      obtain ⟨sender, hk, -, rfl⟩ := sendStep_eq_some.mp h
      exact .send k sender hk

/-- A snapshot that waits to be delivered has been waiting, or comes from a request. -/
theorem Turns.senders {p p' : Peer n Cmd} {b : Act n Cmd} (h : p.Turns b p') {s : Sender Cmd}
    (hs : s ∈ p'.senders) : (∃ s₀ ∈ p.senders, s.msg = s₀.msg) ∨
      ∃ args, b = .installSnapshot args ∧ p.rf.lastIncludedIndex < args.lastIncludedIndex ∧
        s.msg = .snapshot args.data args.lastIncludedTerm args.lastIncludedIndex := by
  cases h with
  | rest _ _ happlier hdelivered hsenders => exact Or.inl ⟨s, hsenders ▸ hs, rfl⟩
  | apply _ hp =>
      refine Or.inl ⟨s, ?_, rfl⟩
      cases hp with
      | collect _ _ _ _ => exact hs
      | wait _ => exact hs
      | skip _ _ _ _ => exact hs
      | flag _ _ _ _ => exact hs
      | send _ _ _ => exact hs
      | clear _ _ _ => exact hs
      | advance _ _ _ => exact hs
  | install args rf hlt =>
      rcases List.mem_append.mp hs with hs | hs
      · exact Or.inl ⟨s, hs, rfl⟩
      · rw [List.mem_singleton.mp hs]
        exact Or.inr ⟨args, rfl, hlt, rfl⟩
  | poll k sender hk =>
      rcases List.mem_or_eq_of_mem_set hs with hs | rfl
      · exact Or.inl ⟨s, hs, rfl⟩
      · exact Or.inl ⟨sender, List.mem_of_getElem? hk, rfl⟩
  | send k sender hk => exact Or.inl ⟨s, List.mem_of_mem_eraseIdx hs, rfl⟩

end Peer

/-! ## State machine safety -/

/-- A request that is not stale agrees with the committed part of the log it is sent to,
since a leader holds everything that is chosen. -/
theorem Refines.agreesWith {c : Cluster n Cmd} {st : Book n Cmd} (h : Refines c st)
    {r : Rpc n (AppendEntriesArgs n Cmd) AppendEntriesReply} (hr : r ∈ c.appends)
    (hterm : (c.peers r.dst).rf.currentTerm ≤ r.args.term) :
    (c.peers r.dst).rf.AgreesWith r.args := by
  have hrel := h.peers r.dst
  have hcall := h.appends r hr
  have hstart := h.inv.chosen_lead hrel.chosen hcall.leads hterm
  intro i hi hinc entry hentry term hterm
  have htake : (st.lead r.args.term).take i = (st.log r.dst).take i := by
    rw [take_of_isPrefix hstart (by rw [List.length_take_of_le hrel.committed]; exact hi),
      List.take_take, Nat.min_eq_left hi]
  rw [hrel.log.entryAt?_term hinc hentry, ← htake]
  unfold AppendEntriesArgs.termAt? at hterm
  split at hterm
  · rename_i heq
    rw [← Option.some.inj hterm, hcall.prevTerm, heq]
  · split at hterm
    · rename_i hlt
      obtain ⟨e, he, rfl⟩ := Option.map_eq_some_iff.mp hterm
      obtain ⟨i, rfl⟩ : ∃ i', i = i' + 1 := ⟨i - 1, by omega⟩
      have hlead : (st.lead r.args.term)[i]? = some e := by
        refine getElem?_of_isPrefix hcall.entries ?_
        rw [List.getElem?_append_right, List.length_take_of_le hcall.prev]
        · rwa [Nat.add_sub_add_right] at he
        · rw [List.length_take_of_le hcall.prev]
          omega
      exact tipTerm_take_succ _ hlead
    · cases hterm

/-- The service compacts the log of its peer up to a command that it has been given. -/
def compactsDelivered (c : Cluster n Cmd) : Cluster.Act n Cmd → Prop
  | .snapshot i index _ => ∃ msg ∈ (c.peers i).delivered, msg.IsCommandAt index
  | _ => True

instance (c : Cluster n Cmd) (a : Cluster.Act n Cmd) : Decidable (compactsDelivered c a) :=
  match a with
  | .snapshot i index _ =>
    inferInstanceAs (Decidable (∃ msg ∈ (c.peers i).delivered, msg.IsCommandAt index))
  | .ticker _ | .heartbeat _ | .start _ _ | .requestVote _ | .appendEntries _
  | .installSnapshot _ | .voteReply _ | .appendReply _ | .snapshotReply _ | .applier _
  | .poll _ _ | .deliver _ _ | .restart _ => .isTrue trivial

/-- What holds of a cluster after a run with snapshots in which the calls of `Start` have
returned `born`. -/
structure Compacted (c : Cluster n Cmd) (st : Book n Cmd) (born : List (Placed Cmd)) : Prop where
  refines : Refines c st
  created : Created born c
  indices : ∀ i, (c.peers i).IndexInv
  senders : ∀ i, ∀ s ∈ (c.peers i).senders, ∃ data t k, s.msg = .snapshot data t k
  commands : ∀ i command index, (c.peers i).Holds (.command command index) →
    Backed st born (.command command index)

theorem compacted_init (n : ℕ) (Cmd : Type*) :
    Compacted (Cluster.init n Cmd) (Ledger.init (Fin n) (LogEntry Cmd)) [] where
  refines := refines_init n Cmd
  created := created_init n Cmd
  indices i := Peer.indexInv_make i {}
  senders _ _ hs := by cases hs
  commands _ _ _ h := h.elim (nomatch ·) (nomatch ·)

namespace Compacted

variable {c c' : Cluster n Cmd} {st st' : Book n Cmd} {born : List (Placed Cmd)} {i : Fin n}
  {a : Cluster.Act n Cmd} {b : Peer.Act n Cmd}

/-- The environment of a peer in a cluster is the one that its indices rely on. -/
theorem expected (h : Compacted c st born) (hok : compactsDelivered c a) (hb : c.Delivers a i b) :
    (c.peers i).expected (.act b) := by
  cases b with
  | appendEntries args =>
      obtain ⟨k, r, -, hk, rfl, rfl⟩ := hb
      exact h.refines.agreesWith (List.mem_of_getElem? hk)
  | snapshot index data =>
      obtain rfl := hb
      exact hok
  | _ => trivial

/-- The messages of a batch carry what is committed in the log of the peer: `applierEvent`
builds a batch above the snapshot point. -/
theorem batch (h : Compacted c st born) (hwait : (c.peers i).applier = .waiting)
    {msgs : List (ApplyMsg Cmd)} (hbatch : Peer.batch (c.peers i).rf = some msgs)
    {msg : ApplyMsg Cmd} (hmsg : msg ∈ msgs) : Backed st born msg := by
  have hrel := h.refines.peers i
  have hinc := (h.indices i).included_le_reached
  rw [hwait] at hinc
  change _ ≤ (c.peers i).rf.lastApplied at hinc
  obtain ⟨index, hindex, hentry⟩ := exists_of_mem_mapM hbatch hmsg
  obtain ⟨e, he, rfl⟩ := Option.map_eq_some_iff.mp hentry
  rw [List.mem_range'_1] at hindex
  obtain ⟨k, rfl⟩ : ∃ k, index = k + 1 := ⟨index - 1, by omega⟩
  have hk : (c.peers i).rf.lastIncludedIndex ≤ k := by omega
  rw [hrel.log.entryAt?_succ hk] at he
  have hplaced := h.created.memory i (k - (c.peers i).rf.lastIncludedIndex) e (by
    rw [hrel.log.rest, List.getElem?_drop, Nat.add_sub_cancel' hk, he])
  rw [Nat.add_sub_cancel' hk] at hplaced
  refine ⟨_, _, k, e, hrel.chosen, ?_, rfl, hplaced⟩
  rw [List.getElem?_take_of_lt (by omega), he]

theorem step (h : Compacted c st born) (hok : faultless c a ∧ compactsDelivered c a)
    (hs : c.step a = some c') :
    ∃ st', st ≤ st' ∧ Compacted c' st' (born ++ c.places a) := by
  obtain ⟨st', hle, hrefines⟩ := h.refines.step_of_faultless hok.1 hs
  have hmore : born ⊆ born ++ c.places a := List.subset_append_left _ _
  -- the peer rests or takes a step of its own
  have hmoves : ∀ i, c'.peers i = c.peers i ∨
      ∃ b, c.Delivers a i b ∧ (c.peers i).step b = some (c'.peers i) := by
    intro i
    rcases Cluster.step_delivers hs i with he | ⟨rfl, -⟩ | hb
    · exact Or.inl he
    · exact nomatch hok.1.1
    · exact Or.inr hb
  refine ⟨st', hle, hrefines, h.created.step hs, fun i => ?_, fun i s hsender => ?_,
    fun i command index hheld => ?_⟩
  · rcases hmoves i with he | ⟨b, hdelivers, hb⟩
    · rw [he]
      exact h.indices i
    · exact ((h.indices i).step (h.expected hok.2 hdelivers) hb).1
  · rcases hmoves i with he | ⟨b, -, hb⟩
    · exact h.senders i s (he ▸ hsender)
    · rcases (Peer.turns_of_step hb).senders hsender with ⟨s₀, hs₀, he⟩ | ⟨args, -, -, he⟩
      · rw [he]
        exact h.senders i s₀ hs₀
      · exact ⟨_, _, _, he⟩
  · rcases hmoves i with he | ⟨b, -, hb⟩
    · exact (h.commands i command index (he ▸ hheld)).mono hle hmore
    · rcases Peer.holds_step hb hheld with
        hheld | ⟨hwait, msgs, hbatch, hmem⟩ | ⟨s, hsender, he⟩
      · exact (h.commands i command index hheld).mono hle hmore
      · exact (h.batch hwait hbatch hmem).mono hle hmore
      · obtain ⟨data, t, k, hmsg⟩ := h.senders i s hsender
        rw [hmsg] at he
        cases he

end Compacted

theorem compacted_exec {acts : List (Cluster.Act n Cmd)} {c : Cluster n Cmd}
    (hok : meets Cluster.step (fun c a => faultless c a ∧ compactsDelivered c a)
      (Cluster.init n Cmd) acts)
    (h : exec Cluster.step (Cluster.init n Cmd) acts = some c) :
    ∃ st, Compacted c st (placedIn acts) :=
  emits_invariant (I := fun c born => ∃ st, Compacted c st born)
    (fun _ _ _ _ ⟨_, hI⟩ ha hs =>
      let ⟨st', _, hI'⟩ := hI.step ha hs
      ⟨st', hI'⟩)
    ⟨_, compacted_init n Cmd⟩ hok h

/-- State machine safety with snapshots: two peers that have delivered a command with the
same index have delivered the same command, and a call of `Start` has placed it there. -/
theorem delivered_command_placed {acts : List (Cluster.Act n Cmd)} {c : Cluster n Cmd}
    (hok : meets Cluster.step faultless (Cluster.init n Cmd) acts)
    (hcompacts : meets Cluster.step compactsDelivered (Cluster.init n Cmd) acts)
    (hexec : exec Cluster.step (Cluster.init n Cmd) acts = some c) {i j : Fin n}
    {x y : Option Cmd} {index : ℕ} (hi : .command x index ∈ (c.peers i).delivered)
    (hj : .command y index ∈ (c.peers j).delivered) :
    x = y ∧ ∃ term, ⟨term, index, x⟩ ∈ placedIn acts := by
  obtain ⟨st, h⟩ := compacted_exec (meets_and hok hcompacts) hexec
  obtain ⟨t, l, k, e, hl, he, hmsg, hplaced⟩ := h.commands i x index (Or.inr hi)
  obtain ⟨t', l', k', e', hl', he', hmsg', -⟩ := h.commands j y index (Or.inr hj)
  obtain ⟨rfl, rfl⟩ := ApplyMsg.command.inj hmsg
  obtain ⟨rfl, hkk⟩ := ApplyMsg.command.inj hmsg'
  obtain rfl : k = k' := Nat.succ.inj hkk
  refine ⟨?_, e.term, hplaced⟩
  rcases h.refines.inv.chosen_agree hl hl' with hle | hle
  · rw [getElem?_of_isPrefix hle he] at he'
    rw [Option.some.inj he']
  · rw [getElem?_of_isPrefix hle he'] at he
    rw [Option.some.inj he]

/-- Peer 0 delivers the command 8; peer 2 gives the snapshot to its service, learns that the
command 8 is committed and delivers it. -/
def deliverEight : List (Cluster.Act 3 ℕ) :=
  [.applier 0, .applier 0, .applier 0, .applier 0, .applier 0, .poll 2 0, .deliver 2 0,
    .heartbeat 0, .appendEntries 8, .applier 2, .applier 2, .applier 2]

theorem delivered_command_placed_installed :
    ∃ c, exec Cluster.step (Cluster.init 3 ℕ) (installed ++ deliverEight) = some c ∧
      (c.peers 0).delivered = [.command (some 7) 1, .command (some 8) 2] ∧
      (c.peers 2).delivered = [.snapshot [] 1 1, .command (some 8) 2] ∧
      ∀ x, .command x 2 ∈ (c.peers 0).delivered → x = some 8 ∧
        ∃ term, ⟨term, 2, x⟩ ∈ placedIn (installed ++ deliverEight) := by
  refine ⟨_, rfl, by decide, by decide, fun x hx => ?_⟩
  exact delivered_command_placed (i := 0) (j := 2)
    (show meets Cluster.step faultless (Cluster.init 3 ℕ) (installed ++ deliverEight) by decide)
    (by decide) rfl hx (by decide)

end Raft

end DistributedLabs
