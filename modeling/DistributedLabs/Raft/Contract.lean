import DistributedLabs.Raft.Placement
import DistributedLabs.Raft.Safety

/-!
# What a cluster promises to its services

In a run without restarts and without calls of `Snapshot` there is one log of
commands, which only grows, and every peer delivers a start of it, one command after
the other and with the indices 1, 2, 3 and so on. A command stands in the log at the
index, and with the term, that a call of `Start` has returned for it, and no two calls
have returned the same index and term.
-/

namespace DistributedLabs

namespace Raft

open Consensus

variable {n : ℕ} {Cmd : Type*}

/-! ## The pace of `applierEvent` -/

/-- `lastApplied` counts the messages that have been delivered, but for the one that has
just been sent. -/
def Peer.Paced (p : Peer n Cmd) : Prop :=
  match p.applier with
  | .waiting | .looping _ => p.delivered.length = p.rf.lastApplied
  | .flagged msg _ => p.delivered.length = p.rf.lastApplied ∧ msg.index = p.rf.lastApplied + 1
  | .sent msg _ | .cleared msg _ =>
    p.delivered.length = p.rf.lastApplied + 1 ∧ msg.index = p.rf.lastApplied + 1

namespace Peer.Paced

variable {p p' : Peer n Cmd}

theorem setRf (h : p.Paced) {rf : Raft n Cmd} (hrf : rf.lastApplied = p.rf.lastApplied) :
    (p.setRf rf).Paced := by
  unfold Paced at h ⊢
  simp only [Peer.setRf, hrf]
  exact h

/-- The message that is about to be sent is the next one. -/
theorem flagged (h : p.Paced) {msg : ApplyMsg Cmd} {msgs : List (ApplyMsg Cmd)}
    (happ : p.applier = .flagged msg msgs) : msg.index = p.delivered.length + 1 := by
  unfold Paced at h
  rw [happ] at h
  exact h.2.trans (congrArg (· + 1) h.1.symm)

theorem applier (h : p.Paced) (hs : p.applierStep = some p') : p'.Paced := by
  unfold Paced at h ⊢
  cases Peer.applierStep_applies hs with
  | collect msgs happ _ _ =>
      rw [happ] at h
      exact h
  | wait happ =>
      rw [happ] at h
      exact h
  | skip msg msgs happ _ =>
      rw [happ] at h
      exact h
  | flag msg msgs happ hnext =>
      rw [happ] at h
      exact ⟨h, hnext⟩
  | send msg msgs happ =>
      rw [happ] at h
      exact ⟨by rw [List.length_append, h.1, List.length_singleton], h.2⟩
  | clear msg msgs happ =>
      rw [happ] at h
      exact h
  | advance msg msgs happ =>
      rw [happ] at h
      change p.delivered.length = max msg.index p.rf.lastApplied
      rw [h.1, h.2, Nat.max_eq_left (Nat.le_succ _)]

/-- Nothing but `applierEvent` moves `lastApplied`, as long as no snapshot is taken over. -/
theorem step (h : p.Paced) {b : Peer.Act n Cmd} (hsend : p.senders = [])
    (hinstall : ∀ args, b = .installSnapshot args → args.lastIncludedIndex = 0)
    (hs : p.step b = some p') : p'.Paced := by
  cases b with
  | ticker =>
      obtain rfl := Option.some.inj hs
      exact h.setRf rfl
  | heartbeat =>
      obtain ⟨out, -, rfl⟩ := Option.map_eq_some_iff.mp hs
      exact h
  | start command =>
      obtain rfl := Option.some.inj hs
      obtain ⟨_, _, _, _, he⟩ := start_frame p.rf command
      rw [he]
      exact h.setRf rfl
  | snapshot index data =>
      obtain ⟨rf, hrf, rfl⟩ := Option.map_eq_some_iff.mp hs
      rcases snapshotUpTo_cases hrf with rfl | ⟨-, -, entry, -, rfl⟩
      · exact h
      · exact h.setRf rfl
  | requestVote args =>
      obtain rfl := Option.some.inj hs
      obtain ⟨_, _, _, _, he⟩ := requestVote_frame p.rf args
      rw [he]
      exact h.setRf rfl
  | appendEntries args =>
      obtain ⟨⟨rf, reply⟩, hr, rfl⟩ := Option.map_eq_some_iff.mp hs
      obtain ⟨_, _, _, _, _, _, rfl⟩ := appendEntries_frame hr
      exact h.setRf rfl
  | installSnapshot args =>
      obtain rfl := Option.some.inj hs
      have hzero := hinstall args rfl
      rcases p.installSnapshot_outcome args with he | he | ⟨hlt, -, -⟩
      · rw [he]
        exact h
      · rw [he]
        obtain ⟨_, _, ha⟩ := adoptTerm_frame p.rf args.term
        rw [ha]
        exact h.setRf rfl
      · omega
  | voteReply args reply =>
      obtain ⟨⟨rf, out⟩, hr, rfl⟩ := Option.map_eq_some_iff.mp hs
      obtain ⟨_, _, _, _, _, _, _, rfl⟩ := handleVoteReply_frame hr
      exact h.setRf rfl
  | appendReply peer args reply =>
      obtain ⟨rf, hrf, rfl⟩ := Option.map_eq_some_iff.mp hs
      obtain ⟨_, _, _, _, _, _, rfl⟩ := handleSendAppendEntries_frame hrf
      exact h.setRf rfl
  | snapshotReply peer args reply =>
      obtain rfl := Option.some.inj hs
      obtain ⟨_, _, _, _, _, he⟩ := handleSendInstallSnapshot_frame p.rf peer args reply
      rw [he]
      exact h.setRf rfl
  | applier => exact h.applier hs
  | poll k =>
      obtain ⟨sender, hk, -⟩ := Peer.pollStep_eq_some.mp hs
      rw [hsend] at hk
      cases hk
  | send k =>
      obtain ⟨sender, hk, -⟩ := Peer.sendStep_eq_some.mp hs
      rw [hsend] at hk
      cases hk

end Peer.Paced

/-- Among the steps of a plain run only the send of `applierEvent` delivers anything. -/
theorem Cluster.step_delivered {c c' : Cluster n Cmd} {a : Cluster.Act n Cmd}
    (huncompacted : Uncompacted c) (hrestart : a.isRestart = false) (hs : c.step a = some c') :
    (∀ i, (c'.peers i).delivered = (c.peers i).delivered) ∨
      ∃ i msg msgs, a = .applier i ∧ (c.peers i).applier = .flagged msg msgs ∧
        c' = c.setPeer i
          { c.peers i with
            delivered := (c.peers i).delivered ++ [msg], applier := .sent msg msgs } := by
  -- a step of the peer `i` that leaves `delivered` alone
  have hkeep : ∀ {i : Fin n} {p : Peer n Cmd}, c'.peers = (c.setPeer i p).peers →
      p.delivered = (c.peers i).delivered →
      ∀ j, (c'.peers j).delivered = (c.peers j).delivered := by
    intro i p hpeers hp j
    rw [hpeers]
    by_cases hj : j = i
    · subst hj
      rw [setPeer_self, hp]
    · rw [setPeer_of_ne c p hj]
  cases a with
  | ticker i =>
      obtain rfl := Option.some.inj hs
      exact Or.inl (hkeep rfl rfl)
  | heartbeat i =>
      obtain ⟨out, -, rfl⟩ := Option.map_eq_some_iff.mp hs
      exact Or.inl fun _ => rfl
  | start i command =>
      obtain rfl := Option.some.inj hs
      exact Or.inl (hkeep rfl rfl)
  | snapshot i index data =>
      obtain ⟨rf, -, rfl⟩ := Option.map_eq_some_iff.mp hs
      exact Or.inl (hkeep rfl rfl)
  | requestVote k =>
      obtain ⟨r, -, -, rfl⟩ := step_requestVote hs
      exact Or.inl (hkeep rfl rfl)
  | appendEntries k =>
      obtain ⟨r, rf, reply, -, -, -, rfl⟩ := step_appendEntries hs
      exact Or.inl (hkeep rfl rfl)
  | installSnapshot k =>
      obtain ⟨r, -, -, rfl⟩ := step_installSnapshot hs
      exact Or.inl (hkeep rfl rfl)
  | voteReply k =>
      obtain ⟨r, reply, rf, out, -, -, -, -, -, rfl⟩ := step_voteReply hs
      exact Or.inl (hkeep rfl rfl)
  | appendReply k =>
      obtain ⟨r, reply, rf, -, -, -, -, -, rfl⟩ := step_appendReply hs
      exact Or.inl (hkeep rfl rfl)
  | snapshotReply k =>
      obtain ⟨r, reply, -, -, -, -, rfl⟩ := step_snapshotReply hs
      exact Or.inl (hkeep rfl rfl)
  | applier i =>
      obtain ⟨p, hp, rfl⟩ := Option.map_eq_some_iff.mp hs
      cases Peer.applierStep_applies hp with
      | send msg msgs happ => exact Or.inr ⟨i, msg, msgs, rfl, happ, rfl⟩
      | collect _ _ _ _ => exact Or.inl (hkeep rfl rfl)
      | wait _ => exact Or.inl (hkeep rfl rfl)
      | skip _ _ _ _ => exact Or.inl (hkeep rfl rfl)
      | flag _ _ _ _ => exact Or.inl (hkeep rfl rfl)
      | clear _ _ _ => exact Or.inl (hkeep rfl rfl)
      | advance _ _ _ => exact Or.inl (hkeep rfl rfl)
  | poll i k =>
      obtain ⟨p, hp, rfl⟩ := Option.map_eq_some_iff.mp hs
      obtain ⟨sender, -, -, rfl⟩ := Peer.pollStep_eq_some.mp hp
      exact Or.inl (hkeep rfl rfl)
  | deliver i k =>
      obtain ⟨p, hp, rfl⟩ := Option.map_eq_some_iff.mp hs
      obtain ⟨sender, hk, -⟩ := Peer.sendStep_eq_some.mp hp
      rw [huncompacted.senders i] at hk
      cases hk
  | restart i => cases hrestart

/-! ## The contract -/

/-- The messages that deliver a log. -/
def commands (log : List (LogEntry Cmd)) : List (ApplyMsg Cmd) :=
  log.mapIdx fun k e => .command e.cmd (k + 1)

theorem commands_concat (log : List (LogEntry Cmd)) (e : LogEntry Cmd) :
    commands (log ++ [e]) = commands log ++ [.command e.cmd (log.length + 1)] := by
  simp [commands]

@[simp] theorem length_commands (log : List (LogEntry Cmd)) :
    (commands log).length = log.length :=
  List.length_mapIdx

theorem getElem?_commands {log : List (LogEntry Cmd)} {k : ℕ} {e : LogEntry Cmd}
    (h : log[k]? = some e) : (commands log)[k]? = some (.command e.cmd (k + 1)) := by
  simp [commands, h]

/-- The leader of the term has the command at the index in its log. -/
def Recorded (st : Book n Cmd) (b : Placed Cmd) : Prop :=
  ∃ l k, st.leads l b.term ∧ b.index = k + 1 ∧
    (st.lead b.term)[k]? = some { term := b.term, cmd := b.cmd }

theorem Recorded.mono {st st' : Book n Cmd} {b : Placed Cmd} (h : Recorded st b) (hle : st ≤ st') :
    Recorded st' b := by
  obtain ⟨l, k, hlead, hindex, hentry⟩ := h
  exact ⟨l, k, hle.leads hlead, hindex, getElem?_of_isPrefix (hle.lead hlead) hentry⟩

/-- A message carries a command that is chosen at its index and has been placed there. -/
def Backed (st : Book n Cmd) (born : List (Placed Cmd)) (msg : ApplyMsg Cmd) : Prop :=
  ∃ t l k e, st.Chosen t l ∧ l[k]? = some e ∧ msg = .command e.cmd (k + 1) ∧
    ⟨e.term, k + 1, e.cmd⟩ ∈ born

theorem Backed.mono {st st' : Book n Cmd} {born born' : List (Placed Cmd)} {msg : ApplyMsg Cmd}
    (h : Backed st born msg) (hle : st ≤ st') (hborn : born ⊆ born') : Backed st' born' msg := by
  obtain ⟨t, l, k, e, hl, he, hmsg, hplaced⟩ := h
  exact ⟨t, l, k, e, hl.mono hle le_rfl, he, hmsg, hborn hplaced⟩

/-- What holds of a cluster after a plain run in which the calls of `Start` have returned
`born`: the peers have delivered starts of `log`. -/
structure Contract (c : Cluster n Cmd) (st : Book n Cmd) (born : List (Placed Cmd))
    (log : List (LogEntry Cmd)) : Prop where
  plain : PlainRefines c st
  created : Created born c
  recorded : ∀ b ∈ born, Recorded st b
  nodup : (born.map Placed.place).Nodup
  messages : ∀ i msg, (c.peers i).Holds msg → Backed st born msg
  chosen : ∃ t, st.Chosen t log
  traced : Traced born 0 log
  paced : ∀ i, (c.peers i).Paced
  delivered : ∀ i, (c.peers i).delivered <+: commands log

theorem contract_init (n : ℕ) (Cmd : Type*) :
    Contract (Cluster.init n Cmd) (Ledger.init (Fin n) (LogEntry Cmd)) [] [] where
  plain := plainRefines_init n Cmd
  created := created_init n Cmd
  recorded _ hb := by cases hb
  nodup := List.nodup_nil
  messages _ _ hmsg := hmsg.elim (nomatch ·) (nomatch ·)
  chosen := ⟨0, Or.inl rfl⟩
  traced _ _ hk := by cases hk
  paced _ := rfl
  delivered _ := List.prefix_rfl

section

variable {c c' : Cluster n Cmd} {st st' : Book n Cmd} {born : List (Placed Cmd)}
  {log : List (LogEntry Cmd)} {i : Fin n}

/-- A leader has its own log on record. -/
theorem Refines.lead_eq (h : Refines c st) (hlead : (c.peers i).rf.state = .leader) :
    st.leads i (c.peers i).rf.currentTerm ∧ st.lead (c.peers i).rf.currentTerm = st.log i := by
  have hrel := h.peers i
  have hleads := hrel.leader.mp hlead
  refine ⟨hleads, ?_⟩
  rw [hrel.term] at hleads ⊢
  exact (h.inv.logs.own hleads).symm

theorem start_of_leader {rf : Raft n Cmd} (h : rf.state = .leader) (command : Option Cmd) :
    (rf.start command).1.state = .leader ∧ (rf.start command).1.currentTerm = rf.currentTerm ∧
      (rf.start command).1.entryAt? (rf.lastLogIndex + 1) =
        some { term := rf.currentTerm, cmd := command } := by
  rcases start_cases rf command with ⟨hnot, -⟩ | ⟨-, rf₁, rfl, he⟩
  · exact absurd h hnot
  · rw [he]
    refine ⟨h, rfl, ?_⟩
    simp [entryAt?, logIndex, lastLogIndex_eq, persist, Logs.push, Nat.add_assoc]

/-- What `Start` returns is the place of the command in the log of the leader. -/
theorem PlainRefines.recorded_start (h : PlainRefines c' st') {command : Option Cmd}
    (hs : c.step (.start i command) = some c') :
    ∀ b ∈ c.places (.start i command), Recorded st' b := by
  intro b hb
  obtain rfl := Option.some.inj hs
  have hself : ((c.setRf i ((c.peers i).rf.start command).1).peers i).rf =
      ((c.peers i).rf.start command).1 :=
    congrArg Peer.rf (Cluster.setRf_self c i _)
  by_cases hlead : (c.peers i).rf.state = .leader
  · rw [Cluster.places, placed?_of_leader hlead] at hb
    obtain rfl := List.mem_singleton.mp hb
    obtain ⟨hlead', hterm, hentry⟩ := start_of_leader hlead command
    have hrecord := h.refines.lead_eq (hself.symm ▸ hlead')
    rw [hself, hterm] at hrecord
    refine ⟨i, _, hrecord.1, rfl, ?_⟩
    rw [hrecord.2]
    rwa [← hself, h.entryAt?, List.getElem?_cons_succ] at hentry
  · rw [Cluster.places, placed?_of_not_leader hlead] at hb
    cases hb

/-- The index that `Start` returns is new in its term. -/
theorem PlainRefines.fresh_start (h : PlainRefines c st) {b : Placed Cmd}
    (hb : Recorded st b) (hlead : (c.peers i).rf.state = .leader) :
    b.place ≠ ((c.peers i).rf.currentTerm, (c.peers i).rf.lastLogIndex + 1) := by
  intro heq
  obtain ⟨hterm, hindex⟩ := Prod.mk.inj heq
  obtain ⟨l, k, -, hk, hentry⟩ := hb
  have hlen : (c.peers i).rf.lastLogIndex = (st.log i).length :=
    (h.refines.peers i).log.lastLogIndex
  rw [hterm, (h.refines.lead_eq hlead).2] at hentry
  have hlt := (List.getElem?_eq_some_iff.mp hentry).1
  omega

namespace Contract

/-- No two calls of `Start` have returned the same index and term. -/
theorem nodup_step (h : Contract c st born log) (a : Cluster.Act n Cmd) :
    ((born ++ c.places a).map Placed.place).Nodup := by
  cases a with
  | start i command =>
      by_cases hlead : (c.peers i).rf.state = .leader
      · rw [Cluster.places, placed?_of_leader hlead, Option.toList_some, List.map_append]
        refine List.nodup_append.mpr ⟨h.nodup, List.nodup_singleton _, ?_⟩
        intro x hx y hy
        obtain ⟨b, hb, rfl⟩ := List.mem_map.mp hx
        obtain rfl := List.mem_singleton.mp hy
        exact h.plain.fresh_start (h.recorded b hb) hlead
      · rw [Cluster.places, placed?_of_not_leader hlead, Option.toList_none, List.append_nil]
        exact h.nodup
  | _ =>
      change ((born ++ []).map Placed.place).Nodup
      rw [List.append_nil]
      exact h.nodup

theorem recorded_step (h : Contract c st born log) {a : Cluster.Act n Cmd} (hle : st ≤ st')
    (hst' : PlainRefines c' st') (hs : c.step a = some c') :
    ∀ b ∈ born ++ c.places a, Recorded st' b := by
  intro b hb
  rcases List.mem_append.mp hb with hb | hb
  · exact (h.recorded b hb).mono hle
  · cases a with
    | start i command => exact hst'.recorded_start hs b hb
    | _ => cases hb

/-- The messages of a batch carry what is committed in the log of the peer. -/
theorem batch (h : Contract c st born log) {msgs : List (ApplyMsg Cmd)}
    (hbatch : Peer.batch (c.peers i).rf = some msgs) {msg : ApplyMsg Cmd} (hmsg : msg ∈ msgs) :
    Backed st born msg := by
  have hrel := h.plain.refines.peers i
  have hinc := h.plain.uncompacted.included i
  obtain ⟨index, hindex, hentry⟩ := exists_of_mem_mapM hbatch hmsg
  obtain ⟨e, he, rfl⟩ := Option.map_eq_some_iff.mp hentry
  rw [List.mem_range'_1] at hindex
  obtain ⟨k, rfl⟩ : ∃ k, index = k + 1 := ⟨index - 1, by omega⟩
  rw [h.plain.entryAt?, List.getElem?_cons_succ] at he
  have hplaced := h.created.memory i k e (by rw [hrel.log.rest, hinc, List.drop_zero, he])
  rw [hinc, Nat.zero_add] at hplaced
  refine ⟨_, _, k, e, hrel.chosen, ?_, rfl, hplaced⟩
  rw [List.getElem?_take_of_lt (by omega), he]

theorem messages_step (h : Contract c st born log) {a : Cluster.Act n Cmd}
    (ha : a.isRestart = false) (hle : st ≤ st') (hs : c.step a = some c') (i : Fin n)
    (msg : ApplyMsg Cmd) (hmsg : (c'.peers i).Holds msg) :
    Backed st' (born ++ c.places a) msg := by
  have hmore : born ⊆ born ++ c.places a := List.subset_append_left _ _
  rcases Cluster.step_peer hs i with heq | ⟨rfl, -⟩ | ⟨b, -, hb⟩
  · exact (h.messages i msg (heq ▸ hmsg)).mono hle hmore
  · cases ha
  · rcases Peer.holds_step hb hmsg with hmsg | ⟨-, msgs, hbatch, hmsg⟩ | ⟨sender, hsender, -⟩
    · exact (h.messages i msg hmsg).mono hle hmore
    · exact (h.batch hbatch hmsg).mono hle hmore
    · rw [h.plain.uncompacted.senders i] at hsender
      cases hsender

theorem paced_step (h : Contract c st born log) {a : Cluster.Act n Cmd}
    (ha : a.isRestart = false) (hs : c.step a = some c') (i : Fin n) : (c'.peers i).Paced := by
  rcases Cluster.step_delivers hs i with heq | ⟨rfl, -⟩ | ⟨b, hdelivers, hb⟩
  · rw [heq]
    exact h.paced i
  · cases ha
  · refine (h.paced i).step (h.plain.uncompacted.senders i) ?_ hb
    rintro args rfl
    obtain ⟨r, hr, -, rfl⟩ := hdelivers.arrives
    exact h.plain.uncompacted.calls r hr

/-- The next message of a peer continues what it has delivered as the log says, or is
the next command of the log. -/
theorem next (h : Contract c st born log) {msg : ApplyMsg Cmd} {msgs : List (ApplyMsg Cmd)}
    (happ : (c.peers i).applier = .flagged msg msgs) :
    ∃ log', (log' = log ∨ ∃ e, log' = log ++ [e]) ∧ (∃ t, st.Chosen t log') ∧
      Traced born 0 log' ∧ (c.peers i).delivered ++ [msg] <+: commands log' := by
  have hindex := (h.paced i).flagged happ
  have hprefix := h.delivered i
  have hheld : (c.peers i).Holds msg := Or.inl (happ ▸ List.mem_cons_self)
  obtain ⟨t, l, k, e, hl, he, rfl, hplaced⟩ := h.messages i msg hheld
  obtain ⟨t', hlog⟩ := h.chosen
  obtain rfl : k = (c.peers i).delivered.length := Nat.succ.inj hindex
  have hagree := h.plain.refines.inv.chosen_agree hlog hl
  have hlen := hprefix.length_le
  rw [length_commands] at hlen
  rcases hlen.lt_or_eq with hlt | heq
  · -- the log reaches the index already, and chosen logs agree
    have hsame : log[(c.peers i).delivered.length]? = some e := by
      rcases hagree with hle | hle
      · have hk := List.getElem?_eq_getElem hlt
        rw [getElem?_of_isPrefix hle hk] at he
        rw [hk, he]
      · exact getElem?_of_isPrefix hle he
    refine ⟨log, Or.inl rfl, h.chosen, h.traced, ?_⟩
    have hnext := take_succ_of_getElem? (getElem?_commands hsame)
    rw [← List.prefix_iff_eq_take.mp hprefix] at hnext
    rw [← hnext]
    exact List.take_prefix _ _
  · -- the log ends here, and goes on with the command
    have hstart : log <+: l := by
      rcases hagree with hle | hle
      · exact hle
      · have hlt := (List.getElem?_eq_some_iff.mp he).1
        have := hle.length_le
        omega
    have htake : l.take ((c.peers i).delivered.length + 1) = log ++ [e] := by
      rw [take_succ_of_getElem? he, heq, ← List.prefix_iff_eq_take.mp hstart]
    have hgood := hl.start <| List.take_prefix ((c.peers i).delivered.length + 1) l
    rw [htake] at hgood
    refine ⟨log ++ [e], Or.inr ⟨e, rfl⟩, ⟨t, hgood⟩, ?_, ?_⟩
    · refine h.traced.concat ?_
      rwa [Nat.zero_add, ← heq]
    · have hall := hprefix.eq_of_length_le (by rw [length_commands, heq])
      rw [commands_concat, hall, length_commands]

theorem step (h : Contract c st born log) {a : Cluster.Act n Cmd}
    (ha : a.isRestart = false ∧ a.isSnapshot = false) (hs : c.step a = some c') :
    ∃ st' log', Contract c' st' (born ++ c.places a) log' ∧
      (log' = log ∨ ∃ e, log' = log ++ [e]) := by
  have hmore : born ⊆ born ++ c.places a := List.subset_append_left _ _
  obtain ⟨st', hle, hplain⟩ := h.plain.step ha hs
  -- all parts but those about the log
  have hcontract : ∀ log', (∃ t, st.Chosen t log') → Traced born 0 log' →
      (∀ i, (c'.peers i).delivered <+: commands log') →
      Contract c' st' (born ++ c.places a) log' := by
    rintro log' ⟨t, hchosen⟩ htraced hdelivered
    exact
      { plain := hplain
        created := h.created.step hs
        recorded := h.recorded_step hle hplain hs
        nodup := h.nodup_step a
        messages := h.messages_step ha.1 hle hs
        chosen := ⟨t, hchosen.mono hle le_rfl⟩
        traced := htraced.mono hmore
        paced := h.paced_step ha.1 hs
        delivered := hdelivered }
  rcases Cluster.step_delivered h.plain.uncompacted ha.1 hs with
    hsame | ⟨i, msg, msgs, -, happ, rfl⟩
  · refine ⟨st', log, hcontract log h.chosen h.traced fun i => ?_, Or.inl rfl⟩
    rw [hsame i]
    exact h.delivered i
  · obtain ⟨log', hlog', hchosen, htraced, hnext⟩ := h.next happ
    refine ⟨st', log', hcontract log' hchosen htraced fun j => ?_, hlog'⟩
    by_cases hj : j = i
    · subst hj
      rw [Cluster.setPeer_self]
      exact hnext
    · rw [Cluster.setPeer_of_ne c _ hj]
      rcases hlog' with rfl | ⟨e, rfl⟩
      · exact h.delivered j
      · rw [commands_concat]
        exact (h.delivered j).trans (List.prefix_append _ _)

end Contract

theorem Plain.contract {acts : List (Cluster.Act n Cmd)} (hplain : Plain acts)
    (h : exec Cluster.step (Cluster.init n Cmd) acts = some c) :
    ∃ st log, Contract c st (placedIn acts) log :=
  emits_invariant (I := fun c born => ∃ st log, Contract c st born log)
    (fun _ _ _ _ ⟨_, _, hI⟩ ha hs =>
      let ⟨st', log', hI', _⟩ := hI.step ha hs
      ⟨st', log', hI'⟩)
    ⟨_, _, contract_init n Cmd⟩ (hplain.meets _) h

end

/-- The contract of Raft with its services, in a plain run: there is one log such that
every peer has delivered a start of it, with the indices 1, 2, 3 and so on; each command
in the log was handed to a call of `Start` that returned its index and its term; and
different calls of `Start` returned different places. -/
theorem delivered_isPrefix_placed {acts : List (Cluster.Act n Cmd)} {c : Cluster n Cmd}
    (hplain : Plain acts) (h : exec Cluster.step (Cluster.init n Cmd) acts = some c) :
    ((placedIn acts).map Placed.place).Nodup ∧
      ∃ log : List (LogEntry Cmd), (∀ i, (c.peers i).delivered <+: commands log) ∧
        ∀ k e, log[k]? = some e → ⟨e.term, k + 1, e.cmd⟩ ∈ placedIn acts := by
  obtain ⟨st, log, hcontract⟩ := hplain.contract h
  refine ⟨hcontract.nodup, log, hcontract.delivered, fun k e he => ?_⟩
  have hplaced := hcontract.traced k e he
  rwa [Nat.zero_add] at hplaced

/-- Peer 0 places two commands and loses one of them to peer 1, which is elected without
it and places another one at the same index. -/
def overwritten : List (Cluster.Act 3 ℕ) :=
  [.ticker 0, .requestVote 0, .voteReply 0, .start 0 (some 7), .heartbeat 0, .appendEntries 2,
    .appendReply 2, .start 0 (some 8), .applier 0, .applier 0, .applier 0,
    .ticker 1, .requestVote 3, .voteReply 3, .start 1 (some 9), .heartbeat 1,
    .appendEntries 6, .appendReply 6, .applier 1, .applier 1, .applier 1, .applier 1, .applier 1,
    .applier 1, .applier 1]

theorem delivered_isPrefix_placed_overwritten :
    ∃ c, exec Cluster.step (Cluster.init 3 ℕ) overwritten = some c ∧
      (c.peers 1).delivered = [.command (some 7) 1, .command (some 9) 2] ∧
      placedIn overwritten = [⟨1, 1, some 7⟩, ⟨1, 2, some 8⟩, ⟨2, 2, some 9⟩] ∧
      ((placedIn overwritten).map Placed.place).Nodup ∧
      ∃ log : List (LogEntry ℕ), (∀ i, (c.peers i).delivered <+: commands log) ∧
        ∀ k e, log[k]? = some e → ⟨e.term, k + 1, e.cmd⟩ ∈ placedIn overwritten :=
  ⟨_, rfl, by decide, by decide,
    delivered_isPrefix_placed (show Plain overwritten by decide) rfl⟩

end Raft

end DistributedLabs
