import DistributedLabs.Raft.Simulation
import DistributedLabs.Raft.Uncompacted

/-!
# Log matching, leader completeness and state machine safety

The three guarantees of the log in runs without restarts and without calls of
`Snapshot`. Such a run is followed in a ledger; what a peer delivers to its
service is chosen there, and chosen logs agree.
-/

namespace DistributedLabs

namespace Raft

open Consensus

variable {n : ℕ} {Cmd : Type*}

/-- A run without restarts and without calls of `Snapshot`. -/
def Plain (acts : List (Cluster.Act n Cmd)) : Prop :=
  ∀ a ∈ acts, a.isRestart = false ∧ a.isSnapshot = false

instance (acts : List (Cluster.Act n Cmd)) : Decidable (Plain acts) := by
  unfold Plain
  infer_instance

theorem Plain.meets {acts : List (Cluster.Act n Cmd)} (h : Plain acts) (c : Cluster n Cmd) :
    meets Cluster.step (fun _ a => a.isRestart = false ∧ a.isSnapshot = false) c acts :=
  meets_of_forall c h

/-- A message that a peer has built or delivered so far. -/
def Peer.Holds (p : Peer n Cmd) (msg : ApplyMsg Cmd) : Prop :=
  msg ∈ p.applier.msgs ∨ msg ∈ p.delivered

/-- A command message carries the command that is chosen at its index. -/
def ChosenMsg (st : Book n Cmd) : ApplyMsg Cmd → Prop
  | .command command index => ∃ t l k e, st.Chosen t l ∧ index = k + 1 ∧ l[k]? = some e ∧
      e.cmd = command
  | .snapshot _ _ _ => True

theorem ChosenMsg.mono {st st' : Book n Cmd} {msg : ApplyMsg Cmd} (h : ChosenMsg st msg)
    (hle : st ≤ st') : ChosenMsg st' msg := by
  cases msg with
  | command command index =>
      obtain ⟨t, l, k, e, hl, hk, he, hcmd⟩ := h
      exact ⟨t, l, k, e, hl.mono hle le_rfl, hk, he, hcmd⟩
  | snapshot => trivial

/-- A plain run shows a ledger in which everything delivered is chosen. -/
structure PlainRefines (c : Cluster n Cmd) (st : Book n Cmd) : Prop where
  refines : Refines c st
  uncompacted : Uncompacted c
  messages : ∀ i msg, (c.peers i).Holds msg → ChosenMsg st msg

theorem plainRefines_init (n : ℕ) (Cmd : Type*) :
    PlainRefines (Cluster.init n Cmd) (Ledger.init (Fin n) (LogEntry Cmd)) :=
  ⟨refines_init n Cmd, uncompacted_init n Cmd, fun _ _ h => h.elim (nomatch ·) (nomatch ·)⟩

/-- A step of `applierEvent` brings no message but those of a batch it has been waiting to
build. -/
theorem applierStep_holds {p p' : Peer n Cmd} (h : p.applierStep = some p') {msg : ApplyMsg Cmd}
    (hmsg : p'.Holds msg) : p.Holds msg ∨
      p.applier = .waiting ∧ ∃ msgs, Peer.batch p.rf = some msgs ∧ msg ∈ msgs := by
  unfold Peer.Holds at hmsg ⊢
  cases Peer.applierStep_applies h with
  | collect msgs happ _ hbatch =>
      exact hmsg.symm.imp Or.inr fun hmsg => ⟨happ, msgs, hbatch, hmsg⟩
  | wait happ =>
      rw [happ]
      exact Or.inl hmsg
  | skip msg' msgs happ _ =>
      rw [happ]
      exact Or.inl (hmsg.imp_left (List.mem_cons_of_mem _))
  | flag msg' msgs happ _ =>
      rw [happ]
      exact Or.inl hmsg
  | send msg' msgs happ =>
      rw [happ]
      rcases hmsg with hmsg | hmsg
      · exact Or.inl (Or.inl hmsg)
      · rcases List.mem_append.mp hmsg with hmsg | hmsg
        · exact Or.inl (Or.inr hmsg)
        · exact Or.inl (Or.inl (List.mem_singleton.mp hmsg ▸ List.mem_cons_self))
  | clear msg' msgs happ =>
      rw [happ]
      exact Or.inl hmsg
  | advance msg' msgs happ =>
      rw [happ]
      exact Or.inl (hmsg.imp_left (List.mem_cons_of_mem _))

/-- A message that a peer holds after a step was there before, comes from the batch that
`applierEvent` has been waiting to build, or from a goroutine that delivers a snapshot. -/
theorem Peer.holds_step {p p' : Peer n Cmd} {b : Peer.Act n Cmd} (hs : p.step b = some p')
    {msg : ApplyMsg Cmd} (h : p'.Holds msg) : p.Holds msg ∨
      (p.applier = .waiting ∧ ∃ msgs, Peer.batch p.rf = some msgs ∧ msg ∈ msgs) ∨
      ∃ sender ∈ p.senders, msg = sender.msg := by
  cases b with
  | ticker =>
      obtain rfl := Option.some.inj hs
      exact Or.inl h
  | heartbeat =>
      obtain ⟨out, -, rfl⟩ := Option.map_eq_some_iff.mp hs
      exact Or.inl h
  | start command =>
      obtain rfl := Option.some.inj hs
      exact Or.inl h
  | snapshot index data =>
      obtain ⟨rf, -, rfl⟩ := Option.map_eq_some_iff.mp hs
      exact Or.inl h
  | requestVote args =>
      obtain rfl := Option.some.inj hs
      exact Or.inl h
  | appendEntries args =>
      obtain ⟨r, -, rfl⟩ := Option.map_eq_some_iff.mp hs
      exact Or.inl h
  | installSnapshot args =>
      obtain rfl := Option.some.inj hs
      exact Or.inl h
  | voteReply args reply =>
      obtain ⟨r, -, rfl⟩ := Option.map_eq_some_iff.mp hs
      exact Or.inl h
  | appendReply peer args reply =>
      obtain ⟨rf, -, rfl⟩ := Option.map_eq_some_iff.mp hs
      exact Or.inl h
  | snapshotReply peer args reply =>
      obtain rfl := Option.some.inj hs
      exact Or.inl h
  | applier => exact (applierStep_holds hs h).imp_right Or.inl
  | poll k =>
      obtain ⟨sender, -, -, rfl⟩ := Peer.pollStep_eq_some.mp hs
      exact Or.inl h
  | send k =>
      obtain ⟨sender, hk, -, rfl⟩ := Peer.sendStep_eq_some.mp hs
      rcases h with h | h
      · exact Or.inl (Or.inl h)
      · rcases List.mem_append.mp h with h | h
        · exact Or.inl (Or.inr h)
        · exact Or.inr (Or.inr ⟨sender, List.mem_of_getElem? hk, List.mem_singleton.mp h⟩)

/-- The messages of a batch are chosen: they come from the committed part of the
log. -/
theorem PlainRefines.batch {c : Cluster n Cmd} {st : Book n Cmd} (h : PlainRefines c st)
    {i : Fin n} {msgs : List (ApplyMsg Cmd)} (hbatch : Peer.batch (c.peers i).rf = some msgs)
    {msg : ApplyMsg Cmd} (hmsg : msg ∈ msgs) : ChosenMsg st msg := by
  have hrel := h.refines.peers i
  obtain ⟨index, hindex, hentry⟩ := exists_of_mem_mapM hbatch hmsg
  obtain ⟨entry, he, rfl⟩ := Option.map_eq_some_iff.mp hentry
  rw [List.mem_range'_1] at hindex
  obtain ⟨k, rfl⟩ : ∃ k, index = k + 1 := ⟨index - 1, by omega⟩
  rw [hrel.log.entryAt?_succ (by rw [h.uncompacted.included i]; exact Nat.zero_le k)] at he
  refine ⟨_, _, k, entry, hrel.chosen, rfl, ?_, rfl⟩
  rw [List.getElem?_take_of_lt (by omega), he]

theorem PlainRefines.step {c c' : Cluster n Cmd} {st : Book n Cmd} {a : Cluster.Act n Cmd}
    (h : PlainRefines c st) (ha : a.isRestart = false ∧ a.isSnapshot = false)
    (hs : c.step a = some c') : ∃ st', st ≤ st' ∧ PlainRefines c' st' := by
  have hrestart : ∀ i, a ≠ .restart i := by
    rintro i rfl
    exact nomatch ha.1
  have hsafe : snapshotSafe c a := by
    cases a with
    | installSnapshot k =>
        intro r hr _ hlt _
        have hzero := h.uncompacted.calls r
          (List.mem_of_getElem? (Rpc.request?_eq_some.mp hr).1)
        omega
    | _ => trivial
  obtain ⟨st', hle, hrefines⟩ := h.refines.step ⟨hrestart, hsafe⟩ hs
  refine ⟨st', hle, hrefines, h.uncompacted.step ha.1 ha.2 hs, fun i msg hmsg => ?_⟩
  -- only `applierEvent` brings new messages, since there are no snapshot senders
  have hold : (c.peers i).Holds msg → ChosenMsg st' msg :=
    fun hmsg => (h.messages i msg hmsg).mono hle
  rcases Cluster.step_peer hs i with heq | ⟨rfl, -⟩ | ⟨b, -, hb⟩
  · exact hold (heq ▸ hmsg)
  · exact absurd rfl (hrestart i)
  · rcases Peer.holds_step hb hmsg with hmsg | ⟨-, msgs, hbatch, hmsg⟩ | ⟨sender, hsender, -⟩
    · exact hold hmsg
    · exact (h.batch hbatch hmsg).mono hle
    · rw [h.uncompacted.senders i] at hsender
      cases hsender

/-- A plain run can be followed in a ledger. -/
theorem Plain.refines {acts : List (Cluster.Act n Cmd)} {c : Cluster n Cmd} (hplain : Plain acts)
    (hexec : exec Cluster.step (Cluster.init n Cmd) acts = some c) : ∃ st, PlainRefines c st := by
  obtain ⟨st, -, h⟩ := exec_simulation (fun _ _ _ _ h ha hs => PlainRefines.step h ha hs)
    (plainRefines_init n Cmd) (hplain.meets _) hexec
  exact ⟨st, h⟩

/-- In a plain run slot 0 of every log is the empty entry, and the other slots are
the full log. -/
theorem PlainRefines.entryAt? {c : Cluster n Cmd} {st : Book n Cmd} (h : PlainRefines c st)
    (i : Fin n) (k : ℕ) : (c.peers i).rf.entryAt? k =
      ({ term := 0, cmd := none } :: st.log i)[k]? := by
  have hlog := (h.refines.peers i).log
  have hinc := h.uncompacted.included i
  cases k with
  | zero =>
      rw [entryAt?_of_le _ hinc.le, Nat.zero_sub, Logs.get?_zero, hlog.zero, hinc, List.take_zero,
        tipTerm_nil]
      rfl
  | succ k =>
      rw [hlog.entryAt?_succ (hinc.trans_le (Nat.zero_le k))]
      rfl

/-- Peer 0 is elected in term 1, commits the command 7 with peer 1 and delivers
it; peer 1 learns of it and delivers it too. -/
def commitSeven : List (Cluster.Act 3 ℕ) :=
  [.ticker 0, .requestVote 0, .voteReply 0, .start 0 (some 7), .heartbeat 0, .appendEntries 2,
    .appendReply 2, .applier 0, .applier 0, .applier 0, .heartbeat 0, .appendEntries 4,
    .applier 1, .applier 1, .applier 1]

/-- Peer 1 is elected in term 2 with the vote of peer 2. -/
def nextLeader : List (Cluster.Act 3 ℕ) :=
  [.ticker 1, .requestVote 3, .voteReply 3]

/-! ## Log matching -/

/-- Log matching: if the logs of two peers have entries of the same term at an
index, they are identical up to it. -/
theorem entryAt?_eq_of_term_eq {acts : List (Cluster.Act n Cmd)} {c : Cluster n Cmd}
    (hplain : Plain acts) (hexec : exec Cluster.step (Cluster.init n Cmd) acts = some c)
    {i j : Fin n} {k : ℕ} {e e' : LogEntry Cmd} (he : (c.peers i).rf.entryAt? k = some e)
    (he' : (c.peers j).rf.entryAt? k = some e') (hterm : e.term = e'.term) :
    ∀ m ≤ k, (c.peers i).rf.entryAt? m = (c.peers j).rf.entryAt? m := by
  obtain ⟨st, h⟩ := hplain.refines hexec
  intro m hm
  simp only [h.entryAt?] at he he' ⊢
  cases m with
  | zero => rfl
  | succ m =>
      obtain ⟨k, rfl⟩ : ∃ k', k = k' + 1 := ⟨k - 1, by omega⟩
      rw [List.getElem?_cons_succ] at he he' ⊢
      have hlogs := h.refines.inv.logs
      have htake := (hlogs.log_good i).take_eq (hlogs.log_good j) he he' hterm
      have hlt : m < k + 1 := hm
      rw [List.getElem?_cons_succ, ← List.getElem?_take_of_lt hlt, htake,
        List.getElem?_take_of_lt hlt]

theorem entryAt?_eq_of_term_eq_commitSeven :
    ∃ c, exec Cluster.step (Cluster.init 3 ℕ) commitSeven = some c ∧
      (c.peers 0).rf.entryAt? 1 = some { term := 1, cmd := some 7 } ∧
      ∀ m ≤ 1, (c.peers 0).rf.entryAt? m = (c.peers 1).rf.entryAt? m :=
  ⟨_, rfl, by decide, entryAt?_eq_of_term_eq (show Plain commitSeven by decide) rfl
    (show _ = some { term := 1, cmd := some 7 } by decide)
    (show _ = some { term := 1, cmd := some 7 } by decide) rfl⟩

/-! ## Leader completeness -/

/-- Leader completeness: an entry at an index that a peer, in particular a leader,
has committed in some term is held at that index by every leader of a later term,
at every moment of its leadership, be it before the commitment or after it. -/
theorem committed_entry_of_later_leader {acts : List (Cluster.Act n Cmd)}
    {c₁ c₂ : Cluster n Cmd} (hplain : Plain acts)
    (h₁ : passes Cluster.step (Cluster.init n Cmd) acts c₁)
    (h₂ : passes Cluster.step (Cluster.init n Cmd) acts c₂) {i j : Fin n} {k : ℕ}
    {e : LogEntry Cmd} (hk : k ≤ (c₁.peers i).rf.commitIndex)
    (he : (c₁.peers i).rf.entryAt? k = some e)
    (hj : (c₂.peers j).rf.state = .leader)
    (hterm : (c₁.peers i).rf.currentTerm < (c₂.peers j).rf.currentTerm) :
    (c₂.peers j).rf.entryAt? k = some e := by
  obtain ⟨st₁, st₂, hr₁, hr₂, hle⟩ :=
    passes_simulation (fun _ _ _ _ h ha hs => PlainRefines.step h ha hs)
      (plainRefines_init n Cmd) (hplain.meets _) h₁ h₂
  have hrel₁ := hr₁.refines.peers i
  have hrel₂ := hr₂.refines.peers j
  have hleads := hrel₂.leader.mp hj
  obtain ⟨l, hstood⟩ := hr₂.refines.inv.votes.leads_stood hleads
  have hbase := hr₂.refines.inv.logs.base hleads hstood
  have hown : st₂.log j = st₂.lead (c₂.peers j).rf.currentTerm := by
    rw [hrel₂.term] at hleads ⊢
    exact hr₂.refines.inv.logs.own hleads
  -- what is committed at the first moment is in the log the later leader stood with
  have hprefix : (st₁.log i).take (c₁.peers i).rf.commitIndex <+: l := by
    rcases hle with hle | hle
    · exact hr₂.refines.inv.chosen_stood (hrel₁.chosen.mono hle le_rfl) hleads hstood hterm
    · exact hr₁.refines.inv.chosen_stood hrel₁.chosen (hle.leads hleads) (hle.stood hstood) hterm
  rw [hr₁.entryAt?] at he
  rw [hr₂.entryAt?]
  cases k with
  | zero => exact he
  | succ k =>
      rw [List.getElem?_cons_succ] at he ⊢
      have htake : ((st₁.log i).take (c₁.peers i).rf.commitIndex)[k]? = some e := by
        rw [List.getElem?_take_of_lt hk, he]
      obtain ⟨rest, hrest⟩ := hprefix.trans (hown ▸ hbase)
      obtain ⟨hlt, -⟩ := List.getElem?_eq_some_iff.mp htake
      rw [← hrest, List.getElem?_append_left hlt, htake]

theorem committed_entry_of_later_leader_commitSeven :
    ∃ c₁ c₂, exec Cluster.step (Cluster.init 3 ℕ) commitSeven = some c₁ ∧
      exec Cluster.step c₁ nextLeader = some c₂ ∧
      (c₁.peers 0).rf.state = .leader ∧ (c₂.peers 1).rf.state = .leader ∧
      (c₂.peers 1).rf.entryAt? 1 = some { term := 1, cmd := some 7 } :=
  ⟨_, _, rfl, rfl, by decide, by decide,
    committed_entry_of_later_leader (i := 0) (show Plain (commitSeven ++ nextLeader) by decide)
      ⟨commitSeven, nextLeader, rfl, rfl⟩ (passes_last rfl) (by decide) (by decide) (by decide)
      (by decide)⟩

/-! ## State machine safety -/

/-- State machine safety: two peers that have delivered a command with the same
index have delivered the same command. -/
theorem delivered_command_unique {acts : List (Cluster.Act n Cmd)} {c : Cluster n Cmd}
    (hplain : Plain acts) (hexec : exec Cluster.step (Cluster.init n Cmd) acts = some c)
    {i j : Fin n} {x y : Option Cmd} {index : ℕ}
    (hi : .command x index ∈ (c.peers i).delivered)
    (hj : .command y index ∈ (c.peers j).delivered) : x = y := by
  obtain ⟨st, h⟩ := hplain.refines hexec
  obtain ⟨t, l, k, e, hl, hk, he, rfl⟩ := h.messages i _ (Or.inr hi)
  obtain ⟨t', l', k', e', hl', hk', he', rfl⟩ := h.messages j _ (Or.inr hj)
  obtain rfl : k = k' := by omega
  obtain ⟨hlt, -⟩ := List.getElem?_eq_some_iff.mp he
  obtain ⟨hlt', -⟩ := List.getElem?_eq_some_iff.mp he'
  have hsame : e = e' := by
    rcases h.refines.inv.chosen_agree hl hl' with ⟨rest, hrest⟩ | ⟨rest, hrest⟩
    · rw [← hrest, List.getElem?_append_left hlt, he] at he'
      exact Option.some.inj he'
    · rw [← hrest, List.getElem?_append_left hlt', he'] at he
      exact (Option.some.inj he).symm
  rw [hsame]

theorem delivered_command_unique_commitSeven :
    ∃ c, exec Cluster.step (Cluster.init 3 ℕ) commitSeven = some c ∧
      .command (some 7) 1 ∈ (c.peers 1).delivered ∧
      ∀ x, .command x 1 ∈ (c.peers 0).delivered → x = some 7 :=
  ⟨_, rfl, by decide, fun _ hx =>
    delivered_command_unique (j := 1) (show Plain commitSeven by decide) rfl hx (by decide)⟩

end Raft

end DistributedLabs
