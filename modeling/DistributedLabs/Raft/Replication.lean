import DistributedLabs.Raft.Compacted
import DistributedLabs.Raft.Delivery
import DistributedLabs.Raft.SnapshotPoint

/-!
# Replicated services with snapshots

A service is a state that commands change and that snapshots replace. If each service hands
to `Snapshot` bytes that stand for the state it has reached, and no message is sent while
an older snapshot waits, then the services of all peers go through the states of one log:
whether a service has applied the commands one after the other or has taken over snapshots
of others, it is in the state that the commands up to its last index lead to.
-/

namespace DistributedLabs

namespace Raft

open Consensus

variable {n : ℕ} {Cmd σ : Type*}

/-- A service as Raft sees it: commands change its state, and a snapshot may stand for a
state. -/
structure Machine (σ Cmd : Type*) where
  init : σ
  apply : σ → Option Cmd → σ
  decode : Bytes → Option σ

namespace Machine

variable (m : Machine σ Cmd)

/-- The service receives a message. -/
def receive (s : σ) : ApplyMsg Cmd → σ
  | .command command _ => m.apply s command
  | .snapshot data _ _ => (m.decode data).getD s

/-- The state of a service that has received `msgs`. -/
def state (msgs : List (ApplyMsg Cmd)) : σ := msgs.foldl m.receive m.init

/-- The state that the commands of a log lead to. -/
def replay (log : List (LogEntry Cmd)) : σ := log.foldl (fun s e => m.apply s e.cmd) m.init

@[simp] theorem state_concat (msgs : List (ApplyMsg Cmd)) (msg : ApplyMsg Cmd) :
    m.state (msgs ++ [msg]) = m.receive (m.state msgs) msg := by
  simp [state]

@[simp] theorem replay_concat (log : List (LogEntry Cmd)) (e : LogEntry Cmd) :
    m.replay (log ++ [e]) = m.apply (m.replay log) e.cmd := by
  simp [replay]

/-- The bytes stand for the state at the index `k` of the log. -/
def Readable (log : List (LogEntry Cmd)) (k : ℕ) (data : Bytes) : Prop :=
  k ≤ log.length ∧ m.decode data = some (m.replay (log.take k))

variable {m} in
theorem Readable.mono {log log' : List (LogEntry Cmd)} {k : ℕ} {data : Bytes}
    (h : m.Readable log k data) (hle : log <+: log') : m.Readable log' k data := by
  refine ⟨h.1.trans hle.length_le, ?_⟩
  rw [take_of_isPrefix hle h.1]
  exact h.2

/-- The service of a peer calls `Snapshot` after a command, with the index of the command and
with bytes that stand for its state. -/
def Serves (c : Cluster n Cmd) : Cluster.Act n Cmd → Prop
  | .snapshot i index data =>
    (∃ msg ∈ (c.peers i).delivered.getLast?, msg.IsCommandAt index) ∧
      m.decode data = some (m.state (c.peers i).delivered)
  | _ => True

instance [DecidableEq σ] (c : Cluster n Cmd) (a : Cluster.Act n Cmd) : Decidable (m.Serves c a) :=
  match a with
  | .snapshot i index data =>
    inferInstanceAs (Decidable ((∃ msg ∈ (c.peers i).delivered.getLast?, msg.IsCommandAt index) ∧
      m.decode data = some (m.state (c.peers i).delivered)))
  | .ticker _ | .heartbeat _ | .start _ _ | .requestVote _ | .appendEntries _
  | .installSnapshot _ | .voteReply _ | .appendReply _ | .snapshotReply _ | .applier _
  | .poll _ _ | .deliver _ _ | .restart _ => .isTrue trivial

end Machine

/-- No message is sent to a service while an older snapshot waits. -/
def inTurn (c : Cluster n Cmd) : Cluster.Act n Cmd → Prop
  | .applier i => (c.peers i).oldestFirst .applier
  | .deliver i k => (c.peers i).oldestFirst (.send k)
  | _ => True

instance (c : Cluster n Cmd) (a : Cluster.Act n Cmd) : Decidable (inTurn c a) :=
  match a with
  | .applier i => inferInstanceAs (Decidable ((c.peers i).oldestFirst .applier))
  | .deliver i k => inferInstanceAs (Decidable ((c.peers i).oldestFirst (.send k)))
  | .ticker _ | .heartbeat _ | .start _ _ | .snapshot _ _ _ | .requestVote _
  | .appendEntries _ | .installSnapshot _ | .voteReply _ | .appendReply _ | .snapshotReply _
  | .poll _ _ | .restart _ => .isTrue trivial

theorem InOrder.follows {i : ℕ} {msgs : List (ApplyMsg Cmd)} {msg : ApplyMsg Cmd}
    (h : InOrder i (msgs ++ [msg])) : msg.Follows (lastIndex i msgs) := by
  induction msgs generalizing i with
  | nil => exact h.1
  | cons m msgs ih => exact ih h.2

/-- A call of `Snapshot` with the last index is one with an index that was delivered. -/
theorem Machine.Serves.compactsDelivered {m : Machine σ Cmd} {c : Cluster n Cmd}
    {a : Cluster.Act n Cmd} (h : m.Serves c a) : compactsDelivered c a := by
  cases a with
  | snapshot i index data =>
      obtain ⟨⟨msg, hmsg, hindex⟩, -⟩ := h
      exact ⟨msg, List.mem_of_getLast? hmsg, hindex⟩
  | _ => trivial

theorem lastIndex_of_getLast? {msgs : List (ApplyMsg Cmd)} {msg : ApplyMsg Cmd}
    (h : msgs.getLast? = some msg) (i : ℕ) : lastIndex i msgs = msg.index := by
  obtain ⟨start, rfl⟩ := List.getLast?_eq_some_iff.mp h
  exact lastIndex_append i start msg

/-! ## The relation -/

/-- What holds of a cluster and its services: `log` is what has been delivered so far, every
snapshot stands for a state of it, and so does every service. -/
structure Replicated (m : Machine σ Cmd) (c : Cluster n Cmd) (st : Book n Cmd)
    (born : List (Placed Cmd)) (log : List (LogEntry Cmd)) : Prop where
  compacted : Compacted c st born
  delivery : ∀ i, (c.peers i).DeliveryInv 0
  chosen : ∃ t, st.Chosen t log
  traced : Traced born 0 log
  memory : ∀ i, 0 < (c.peers i).rf.snapshotPoint.index →
    m.Readable log (c.peers i).rf.snapshotPoint.index (c.peers i).rf.snapshotPoint.bytes
  installs : ∀ r ∈ c.installs, 0 < r.args.lastIncludedIndex →
    m.Readable log r.args.lastIncludedIndex r.args.data
  senders : ∀ i, ∀ s ∈ (c.peers i).senders, ∀ data t k, s.msg = .snapshot data t k →
    m.Readable log k data
  snapshots : ∀ i data t k, .snapshot data t k ∈ (c.peers i).delivered → m.Readable log k data
  reached : ∀ i, lastIndex 0 (c.peers i).delivered ≤ log.length
  states : ∀ i, m.state (c.peers i).delivered =
    m.replay (log.take (lastIndex 0 (c.peers i).delivered))

section

variable {m : Machine σ Cmd} {c c' : Cluster n Cmd} {st st' : Book n Cmd}
  {born : List (Placed Cmd)} {log log' : List (LogEntry Cmd)} {a : Cluster.Act n Cmd} {i : Fin n}

/-- A step without a restart delivers nothing to a service, or one message. -/
theorem Cluster.step_delivers_one (ha : a.isRestart = false) (hs : c.step a = some c')
    (i : Fin n) :
    (c'.peers i).delivered = (c.peers i).delivered ∨
      (∃ msg msgs, a = .applier i ∧ (c.peers i).applier = .flagged msg msgs ∧
        (c'.peers i).delivered = (c.peers i).delivered ++ [msg]) ∨
      ∃ k s, a = .deliver i k ∧ s ∈ (c.peers i).senders ∧
        (c'.peers i).delivered = (c.peers i).delivered ++ [s.msg] := by
  rcases Cluster.step_delivers hs i with he | ⟨rfl, -⟩ | ⟨b, hb, hstep⟩
  · exact Or.inl (by rw [he])
  · cases ha
  · generalize c'.peers i = p' at hstep ⊢
    cases Peer.turns_of_step hstep with
    | rest _ _ _ hdelivered _ => exact Or.inl hdelivered
    | apply _ hp =>
        cases hp with
        | send msg msgs happ => exact Or.inr (Or.inl ⟨msg, msgs, hb, happ, rfl⟩)
        | collect _ _ _ _ => exact Or.inl rfl
        | wait _ => exact Or.inl rfl
        | skip _ _ _ _ => exact Or.inl rfl
        | flag _ _ _ _ => exact Or.inl rfl
        | clear _ _ _ => exact Or.inl rfl
        | advance _ _ _ => exact Or.inl rfl
    | install _ _ _ => exact Or.inl rfl
    | poll _ _ _ => exact Or.inl rfl
    | send k s hk => exact Or.inr (Or.inr ⟨k, s, hb, List.mem_of_getElem? hk, rfl⟩)

/-- The messages of a peer stay in order. -/
theorem Compacted.delivery_step (h : Compacted c st born) (hdelivery : (c.peers i).DeliveryInv 0)
    (hok : faultless c a ∧ compactsDelivered c a) (hturn : inTurn c a)
    (hs : c.step a = some c') : (c'.peers i).DeliveryInv 0 := by
  rcases Cluster.step_delivers hs i with he | ⟨rfl, -⟩ | ⟨b, hb, hstep⟩
  · rw [he]
    exact hdelivery
  · exact nomatch hok.1.1
  · refine hdelivery.step ⟨?_, ?_⟩ hstep
    · cases b with
      | appendEntries args =>
          intro r hr
          have hraise := ((h.indices i).step (h.expected hok.2 hb) hstep).2.1
          obtain ⟨r', hr', he⟩ := Option.map_eq_some_iff.mp hstep
          obtain rfl := Option.some.inj (hr'.symm.trans hr)
          rw [← he] at hraise
          exact hraise
      | _ => trivial
    · cases b with
      | applier =>
          obtain rfl : a = .applier i := hb
          exact hturn
      | send k =>
          obtain rfl : a = .deliver i k := hb
          exact hturn
      | _ => trivial

namespace Replicated

/-- The log goes on with a command that a peer delivers, if it does not have it yet. -/
theorem next (h : Replicated m c st born log) {msg : ApplyMsg Cmd} {msgs : List (ApplyMsg Cmd)}
    (happ : (c.peers i).applier = .flagged msg msgs)
    (hfollows : msg.Follows (lastIndex 0 (c.peers i).delivered)) :
    ∃ log', (log' = log ∨ ∃ e, log' = log ++ [e]) ∧ (∃ t, st.Chosen t log') ∧
      Traced born 0 log' ∧ msg.index ≤ log'.length ∧
      m.receive (m.state (c.peers i).delivered) msg = m.replay (log'.take msg.index) := by
  have hmem : msg ∈ (c.peers i).applier.msgs := happ ▸ List.mem_cons_self
  obtain ⟨command, index, rfl, -⟩ := (h.delivery i).commands msg hmem
  obtain ⟨t, l, k, e, hl, he, hmsg, hplaced⟩ :=
    h.compacted.commands i command index (Or.inl hmem)
  obtain ⟨rfl, rfl⟩ := ApplyMsg.command.inj hmsg
  obtain ⟨t', hlog⟩ := h.chosen
  have hreached := h.reached i
  have hstate := h.states i
  obtain hk : k = lastIndex 0 (c.peers i).delivered := Nat.succ.inj hfollows
  rw [← hk] at hreached hstate
  have hagree := h.compacted.refines.inv.chosen_agree hlog hl
  -- the state after the command, in a log that has it
  have hnext : ∀ log' : List (LogEntry Cmd), log'[k]? = some e → log'.take k = log.take k →
      m.receive (m.state (c.peers i).delivered) (.command e.cmd (k + 1)) =
        m.replay (log'.take (k + 1)) := by
    intro log' he' htake
    rw [take_succ_of_getElem? he', htake, m.replay_concat, ← hstate]
    rfl
  rcases hreached.lt_or_eq with hlt | heq
  · have hsame : log[k]? = some e := by
      rcases hagree with hle | hle
      · have hget := List.getElem?_eq_getElem hlt
        rw [getElem?_of_isPrefix hle hget] at he
        rw [hget, he]
      · exact getElem?_of_isPrefix hle he
    exact ⟨log, Or.inl rfl, h.chosen, h.traced, hlt, hnext log hsame rfl⟩
  · have hstart : log <+: l := by
      rcases hagree with hle | hle
      · exact hle
      · have hlt := (List.getElem?_eq_some_iff.mp he).1
        have := hle.length_le
        omega
    have htake : l.take (k + 1) = log ++ [e] := by
      rw [take_succ_of_getElem? he, heq, ← List.prefix_iff_eq_take.mp hstart]
    have hgood := hl.start <| List.take_prefix (k + 1) l
    rw [htake] at hgood
    refine ⟨log ++ [e], Or.inr ⟨e, rfl⟩, ⟨t, hgood⟩, ?_, ?_,
      hnext _ (by rw [heq]; exact List.getElem?_concat_length)
        (List.take_append_of_le_length heq.le)⟩
    · refine h.traced.concat ?_
      rwa [Nat.zero_add, ← heq]
    · rw [List.length_append, List.length_singleton, heq]
      exact le_rfl

/-- The snapshots in the memory of the peers stand for states of the log. -/
theorem memory_step (h : Replicated m c st born log) (hserves : m.Serves c a)
    (ha : a.isRestart = false) (hs : c.step a = some c') (i : Fin n)
    (hpos : 0 < (c'.peers i).rf.snapshotPoint.index) :
    m.Readable log (c'.peers i).rf.snapshotPoint.index (c'.peers i).rf.snapshotPoint.bytes := by
  rcases Cluster.step_delivers hs i with he | ⟨rfl, -⟩ | ⟨b, hb, hstep⟩
  · rw [he] at hpos ⊢
    exact h.memory i hpos
  · cases ha
  · rcases Peer.step_snapshotPoint hstep with he | ⟨args, rfl, he⟩ | ⟨index, data, rfl, hmakes⟩
    · rw [he] at hpos ⊢
      exact h.memory i hpos
    · obtain ⟨r, hr, -, rfl⟩ := hb.arrives
      rw [he] at hpos ⊢
      exact h.installs r hr hpos
    · obtain rfl : a = .snapshot i index data := hb
      obtain ⟨-, -, entry, -, hpt⟩ := hmakes
      obtain ⟨⟨msg, hmsg, hindex⟩, hdecode⟩ := hserves
      have hlast : lastIndex 0 (c.peers i).delivered = index := by
        rw [lastIndex_of_getLast? hmsg]
        cases msg with
        | command command k => exact hindex
        | snapshot data t k => exact hindex.elim
      rw [hpt]
      refine ⟨hlast ▸ h.reached i, ?_⟩
      rw [hdecode, h.states i, hlast]

/-- The snapshots on the network stand for states of the log. -/
theorem installs_step (h : Replicated m c st born log)
    (hmemory : ∀ i, 0 < (c'.peers i).rf.snapshotPoint.index →
      m.Readable log (c'.peers i).rf.snapshotPoint.index (c'.peers i).rf.snapshotPoint.bytes)
    (hs : c.step a = some c') :
    ∀ r ∈ c'.installs, 0 < r.args.lastIncludedIndex →
      m.Readable log r.args.lastIncludedIndex r.args.data := by
  intro r' hr' hpos
  rcases Cluster.step_installs hs hr' with ⟨r, hr, hcont⟩ | ⟨-, hfresh⟩
  · rw [hcont.args] at hpos ⊢
    exact h.installs r hr hpos
  · rcases heartbeatTo_cases hfresh.sent with ⟨-, he⟩ | ⟨_, _, -, -, -, -, he⟩
    · obtain ⟨-, hargs⟩ := Outgoing.installSnapshot.inj he
      rw [hargs] at hpos ⊢
      exact hmemory r'.src hpos
    · cases he

/-- The snapshots that wait to be delivered stand for states of the log. -/
theorem senders_step (h : Replicated m c st born log) (ha : a.isRestart = false)
    (hs : c.step a = some c') (i : Fin n) {s : Sender Cmd} (hsender : s ∈ (c'.peers i).senders)
    {data : Bytes} {t k : ℕ} (hmsg : s.msg = .snapshot data t k) : m.Readable log k data := by
  rcases Cluster.step_delivers hs i with he | ⟨rfl, -⟩ | ⟨b, hb, hstep⟩
  · exact h.senders i s (he ▸ hsender) data t k hmsg
  · cases ha
  · rcases (Peer.turns_of_step hstep).senders hsender with ⟨s₀, hs₀, he⟩ | ⟨args, rfl, hlt, he⟩
    · exact h.senders i s₀ hs₀ data t k (he.symm.trans hmsg)
    · obtain ⟨rfl, rfl, rfl⟩ := ApplyMsg.snapshot.inj (hmsg.symm.trans he)
      obtain ⟨r, hr, -, rfl⟩ := hb.arrives
      exact h.installs r hr (Nat.zero_lt_of_lt hlt)

/-- What the services have reached after a step, in a log that has grown by one command at
most. -/
theorem services_step (h : Replicated m c st born log) (ha : a.isRestart = false)
    (hdelivery : ∀ i, (c'.peers i).DeliveryInv 0) (hs : c.step a = some c') :
    ∃ log', (log' = log ∨ ∃ e, log' = log ++ [e]) ∧ (∃ t, st.Chosen t log') ∧
      Traced born 0 log' ∧ ∀ i, lastIndex 0 (c'.peers i).delivered ≤ log'.length ∧
        m.state (c'.peers i).delivered =
          m.replay (log'.take (lastIndex 0 (c'.peers i).delivered)) ∧
        ∀ data t k, .snapshot data t k ∈ (c'.peers i).delivered → m.Readable log' k data := by
  -- a peer that delivers nothing or a snapshot
  have hold : ∀ j, (∀ msg msgs, a = .applier j → (c.peers j).applier ≠ .flagged msg msgs) →
      lastIndex 0 (c'.peers j).delivered ≤ log.length ∧
        m.state (c'.peers j).delivered =
          m.replay (log.take (lastIndex 0 (c'.peers j).delivered)) ∧
        ∀ data t k, .snapshot data t k ∈ (c'.peers j).delivered → m.Readable log k data := by
    intro j hnot
    rcases Cluster.step_delivers_one ha hs j with he | ⟨msg, msgs, rfl, happ, -⟩ | ⟨k, s, -, hs, he⟩
    · rw [he]
      exact ⟨h.reached j, h.states j, h.snapshots j⟩
    · exact absurd happ (hnot msg msgs rfl)
    · obtain ⟨data, t, k', hmsg⟩ := h.compacted.senders j s hs
      have hread := h.senders j s hs data t k' hmsg
      rw [he, hmsg, lastIndex_append, m.state_concat]
      refine ⟨hread.1, ?_, fun data' t' k'' hmem => ?_⟩
      · rw [Machine.receive, hread.2]
        rfl
      · rcases List.mem_append.mp hmem with hmem | hmem
        · exact h.snapshots j data' t' k'' hmem
        · obtain ⟨rfl, rfl, rfl⟩ := ApplyMsg.snapshot.inj (List.mem_singleton.mp hmem)
          exact hread
  by_cases hsend : ∃ i msg msgs, a = .applier i ∧ (c.peers i).applier = .flagged msg msgs
  · obtain ⟨i, msg, msgs, rfl, happ⟩ := hsend
    have hdelivered : (c'.peers i).delivered = (c.peers i).delivered ++ [msg] := by
      obtain ⟨p, hp, rfl⟩ := Option.map_eq_some_iff.mp hs
      rw [Cluster.setPeer_self]
      rw [Peer.applierStep, happ] at hp
      exact Option.some.inj hp ▸ rfl
    have hinOrder := (hdelivery i).inOrder
    rw [hdelivered] at hinOrder
    obtain ⟨log', hlog', hchosen, htraced, hlen, hstate⟩ := h.next happ hinOrder.follows
    have hle : log <+: log' := by
      rcases hlog' with rfl | ⟨e, rfl⟩
      · exact List.prefix_rfl
      · exact List.prefix_append _ _
    refine ⟨log', hlog', hchosen, htraced, fun j => ?_⟩
    by_cases hj : j = i
    · subst hj
      rw [hdelivered, lastIndex_append, m.state_concat]
      refine ⟨hlen, hstate, fun data t k hmem => ?_⟩
      rcases List.mem_append.mp hmem with hmem | hmem
      · exact (h.snapshots j data t k hmem).mono hle
      · obtain ⟨command, index, rfl, -⟩ :=
          (h.delivery j).commands msg (happ ▸ List.mem_cons_self)
        cases List.mem_singleton.mp hmem
    · obtain ⟨hreached, hstates, hsnapshots⟩ := hold j (by rintro _ _ ⟨⟩; exact absurd rfl hj)
      refine ⟨hreached.trans hle.length_le, ?_, fun data t k hmem =>
        (hsnapshots data t k hmem).mono hle⟩
      rw [take_of_isPrefix hle hreached]
      exact hstates
  · exact ⟨log, Or.inl rfl, h.chosen, h.traced, fun j => hold j fun msg msgs ha happ =>
      hsend ⟨j, msg, msgs, ha, happ⟩⟩

/-- What a run with services keeps to. -/
def Allowed (m : Machine σ Cmd) (c : Cluster n Cmd) (a : Cluster.Act n Cmd) : Prop :=
  faultless c a ∧ inTurn c a ∧ m.Serves c a

theorem step (h : Replicated m c st born log) (hok : Allowed m c a) (hs : c.step a = some c') :
    ∃ st' log', Replicated m c' st' (born ++ c.places a) log' ∧
      (log' = log ∨ ∃ e, log' = log ++ [e]) := by
  obtain ⟨hfault, hturn, hserves⟩ := hok
  have hmore : born ⊆ born ++ c.places a := List.subset_append_left _ _
  have hcompacts := hserves.compactsDelivered
  obtain ⟨st', hle, hcompacted⟩ := h.compacted.step ⟨hfault, hcompacts⟩ hs
  have hdelivery : ∀ i, (c'.peers i).DeliveryInv 0 := fun i =>
    h.compacted.delivery_step (h.delivery i) ⟨hfault, hcompacts⟩ hturn hs
  have hmemory := h.memory_step hserves hfault.1 hs
  obtain ⟨log', hlog', ⟨t, hchosen⟩, htraced, hservices⟩ := h.services_step hfault.1 hdelivery hs
  have hgrown : log <+: log' := by
    rcases hlog' with rfl | ⟨e, rfl⟩
    · exact List.prefix_rfl
    · exact List.prefix_append _ _
  exact ⟨st', log',
    { compacted := hcompacted
      delivery := hdelivery
      chosen := ⟨t, hchosen.mono hle le_rfl⟩
      traced := htraced.mono hmore
      memory := fun i hpos => (hmemory i hpos).mono hgrown
      installs := fun r hr hpos => (h.installs_step hmemory hs r hr hpos).mono hgrown
      senders := fun i s hsender data t k hmsg =>
        (h.senders_step hfault.1 hs i hsender hmsg).mono hgrown
      snapshots := fun i => (hservices i).2.2
      reached := fun i => (hservices i).1
      states := fun i => (hservices i).2.1 }, hlog'⟩

end Replicated

end

end Raft

end DistributedLabs
