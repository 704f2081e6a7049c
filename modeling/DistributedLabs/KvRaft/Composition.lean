import DistributedLabs.KvRaft.Linearizability
import DistributedLabs.KvRaft.Recovery
import DistributedLabs.KvRaft.ExactlyOnce
import DistributedLabs.KvRaft.Stack
import DistributedLabs.Raft.Contract

/-!
# The service with its Raft is linearizable

A run in which no server takes a snapshot is a run of `System`, as far as clerks and
servers can see: the cluster keeps the contract that `System` assumes. An operation enters
the log of the system when the first peer delivers it, at the place that a call of `Start`
has returned for it. So the service with its Raft is linearizable, and its servers are
replicas of one log.
-/

namespace DistributedLabs

namespace KvRaft

open SharedLog
open Raft (Placed LogEntry Bytes)

variable {n m : ℕ}

theorem SnapshotStatus.replica_injective : Function.Injective SnapshotStatus.replica := by
  rintro ⟨data, duptable⟩ ⟨data', duptable'⟩ h
  obtain ⟨rfl, rfl⟩ := Replica.mk.inj h
  rfl

/-! ## What clerks and servers can see -/

/-- Other knowledge of what Raft has done. -/
def System.withContract (t : System n m) (received : Fin n → ℕ) (started : List (Op × Bool))
    (log : List Op) : System n m :=
  { t with received := received, started := started, log := log }

/-- The clerks and the servers move without regard to it. -/
theorem System.step_withContract (t : System n m) {a : System.Act n m} (ha : Stack.isFront a)
    (received : Fin n → ℕ) (started : List (Op × Bool)) (log : List Op) :
    (t.withContract received started log).step a =
      (t.step a).map fun t' => t'.withContract received started log := by
  cases a with
  | invoke c input =>
      simp only [step, invoke, withContract]
      cases (t.clerks c).call with
      | none => rfl
      | some cl => rfl
  | call c =>
      simp only [step, call, withContract]
      cases (t.clerks c).call with
      | none => rfl
      | some cl =>
          simp only [Option.bind_some]
          cases cl.rpc with
          | some k => rfl
          | none =>
              by_cases h : cl.server < n
              · simp only [h, dite_true]
                rfl
              · simp only [h, dite_false]
                rfl
  | fail c =>
      simp only [step, fail, withContract]
      cases (t.clerks c).call with
      | none => rfl
      | some cl =>
          simp only [Option.bind_some, Option.map_map]
          cases cl.rpc with
          | none => rfl
          | some k => rfl
  | ret c =>
      simp only [step, ret, withContract, Option.map_bind, Function.comp_def]
      congr 1
      funext cl
      congr 1
      funext k
      congr 1
      funext r
      congr 1
      funext h
      congr 1
      funext hd
      cases hd.pc with
      | done reply =>
          cases hleader : reply.leader with
          | true =>
              simp only [hleader, if_true]
              rfl
          | false =>
              simp only [hleader, Bool.false_eq_true, if_false]
              rfl
      | _ => rfl
  | deliver k =>
      simp only [step, deliver, withContract]
      cases t.requests[k]? with
      | none => rfl
      | some r =>
          simp only [Option.bind_some]
          cases r.handler with
          | some h => rfl
          | none => rfl
  | own i a =>
      simp only [step, own, withContract]
      cases isOwn a with
      | false => rfl
      | true =>
          simp only [if_true, Option.map_map]
          rfl
  | start i h index => cases ha
  | commit k => cases ha
  | recv i => cases ha

/-! ## The cluster keeps the contract -/

/-- The operations that were started and those in the log are the ones that the calls of
`Start` have placed. -/
structure Matches (born : List (Placed Op)) (entries : List (LogEntry Op))
    (started : List (Op × Bool)) (log : List Op) : Prop where
  logged : entries.map LogEntry.cmd = log.map some
  handed : born.map Placed.cmd = started.map fun x => some x.1
  marked : ∀ (k : ℕ) (op : Op), started[k]? = some (op, true) →
    ∃ b, born[k]? = some b ∧ b.index ≤ entries.length

namespace Matches

variable {born : List (Placed Op)} {entries : List (LogEntry Op)} {started : List (Op × Bool)}
  {log : List Op}

theorem start (h : Matches born entries started log) {b : Placed Op} {op : Op}
    (hb : b.cmd = some op) : Matches (born ++ [b]) entries (started ++ [(op, false)]) log where
  logged := h.logged
  handed := by simp [h.handed, hb]
  marked k op' hk := by
    rcases getElem?_concat_cases hk with hk | ⟨-, heq⟩
    · obtain ⟨b', hb', hindex⟩ := h.marked k op' hk
      exact ⟨b', getElem?_of_isPrefix (List.prefix_append _ _) hb', hindex⟩
    · cases heq

/-- The entry that the log goes on with was placed by a call of `Start` whose operation is
not in the log yet: those in the log stand at smaller indices. -/
theorem commit (h : Matches born entries started log) {e : LogEntry Op}
    (htraced : Raft.Traced born 0 (entries ++ [e])) :
    ∃ k op, started[k]? = some (op, false) ∧
      Matches born (entries ++ [e]) (started.set k (op, true)) (log ++ [op]) := by
  have hplaced := htraced entries.length e List.getElem?_concat_length
  rw [Nat.zero_add] at hplaced
  obtain ⟨k, hk⟩ := List.mem_iff_getElem?.mp hplaced
  have hcmd : (started.map fun x => some x.1)[k]? = some e.cmd := by
    rw [← h.handed, List.getElem?_map, hk]
    rfl
  rw [List.getElem?_map] at hcmd
  obtain ⟨⟨op, mark⟩, hstarted, hop⟩ := Option.map_eq_some_iff.mp hcmd
  have hfresh : mark = false := by
    cases hmark : mark with
    | false => rfl
    | true =>
        obtain ⟨b, hb, hindex⟩ := h.marked k op (hmark ▸ hstarted)
        obtain rfl := Option.some.inj (hk.symm.trans hb)
        exact absurd hindex (Nat.not_succ_le_self _)
  subst hfresh
  refine ⟨k, op, hstarted, ⟨?_, ?_, fun k' op' hk' => ?_⟩⟩
  · simp [h.logged, ← hop]
  · rw [map_set_of_eq (y := (op, true)) (f := fun x => some x.1) hstarted rfl]
    exact h.handed
  · rw [List.length_append, List.length_singleton]
    by_cases hkk : k = k'
    · subst hkk
      exact ⟨_, hk, le_rfl⟩
    · rw [List.getElem?_set_ne hkk] at hk'
      obtain ⟨b, hb, hindex⟩ := h.marked k' op' hk'
      exact ⟨b, hb, hindex.trans (Nat.le_succ _)⟩

theorem getElem? (h : Matches born entries started log) {k : ℕ} {e : LogEntry Op}
    (he : entries[k]? = some e) : ∃ op, log[k]? = some op ∧ e.cmd = some op := by
  have hcmd : (log.map some)[k]? = some e.cmd := by
    rw [← h.logged, List.getElem?_map, he]
    rfl
  rw [List.getElem?_map] at hcmd
  obtain ⟨op, hop, heq⟩ := Option.map_eq_some_iff.mp hcmd
  exact ⟨op, hop, heq.symm⟩

end Matches

/-- What the cluster has done is what the system knows of Raft. -/
def Stack.Follows (s : Stack n m) (g : System n m) : Prop :=
  ∃ st born entries started log, Raft.Contract s.raft st born entries ∧
    Matches born entries started log ∧ g = s.system started log

theorem Stack.follows_init (n : ℕ) (ids : Fin m → ℕ) :
    (Stack.init n ids).Follows (System.init n ids) :=
  ⟨_, [], [], [], [], Raft.contract_init n Op, ⟨rfl, rfl, fun _ _ hk => nomatch hk⟩, rfl⟩

namespace Stack

variable {s s' : Stack n m} {g : System n m}

/-- The log of the system catches up with the log of the cluster. -/
theorem catchUp {born : List (Placed Op)} {entries entries' : List (LogEntry Op)}
    {started : List (Op × Bool)} {log : List Op} (h : Matches born entries started log)
    (htraced : Raft.Traced born 0 entries')
    (hgrown : entries' = entries ∨ ∃ e, entries' = entries ++ [e]) :
    ∃ as started' log', Matches born entries' started' log' ∧
      ∀ t : Stack n m, exec System.step (t.system started log) as =
        some (t.system started' log') := by
  rcases hgrown with rfl | ⟨e, rfl⟩
  · exact ⟨[], started, log, h, fun _ => rfl⟩
  · obtain ⟨k, op, hk, h'⟩ := h.commit htraced
    refine ⟨[.commit k], _, _, h', fun t => ?_⟩
    have hcommit : (t.system started log).commit k =
        some (t.system (started.set k (op, true)) (log ++ [op])) := by
      simp only [System.commit, system, hk]
    exact exec_cons_eq_some.mpr ⟨_, hcommit, rfl⟩

/-- The cluster takes a step that delivers nothing. -/
theorem system_of_delivered {raft : Raft.Cluster n Op}
    (hraft : ∀ i, (raft.peers i).delivered = (s.raft.peers i).delivered)
    (started : List (Op × Bool)) (log : List Op) :
    system { s with raft := raft } started log = s.system started log := by
  unfold system
  simp only [hraft]

theorem Follows.front (h : s.Follows g) {a : System.Act n m} (hs : s.front a = some s') :
    ∃ as g', exec System.step g as = some g' ∧ s'.Follows g' := by
  obtain ⟨st, born, entries, started, log, hcontract, hmatches, rfl⟩ := h
  unfold Stack.front at hs
  split at hs
  · rename_i ha
    obtain ⟨t, ht, rfl⟩ := Option.map_eq_some_iff.mp hs
    have hstep : (s.system started log).step a = some ((s.setFront t).system started log) := by
      have hframe := System.step_withContract (s.system [] []) ha
        (s.system [] []).received started log
      rw [ht] at hframe
      exact hframe
    exact ⟨[a], _, exec_cons_eq_some.mpr ⟨_, hstep, rfl⟩, st, born, entries, started, log,
      hcontract, hmatches, rfl⟩
  · cases hs

theorem isPrivate_cases {c : Raft.Cluster n Op} {a : Raft.Cluster.Act n Op}
    (h : isPrivate c a = true) :
    (a.isRestart = false ∧ a.isSnapshot = false) ∧ c.places a = [] ∧
      ∀ i msg msgs, a = .applier i → (c.peers i).applier ≠ .flagged msg msgs := by
  cases a with
  | start i command => cases h
  | snapshot i index data => cases h
  | deliver i k => cases h
  | restart i => cases h
  | applier i =>
      refine ⟨⟨rfl, rfl⟩, rfl, ?_⟩
      rintro j msg msgs ⟨⟩ happ
      rw [isPrivate, happ] at h
      cases h
  | _ => exact ⟨⟨rfl, rfl⟩, rfl, by rintro j msg msgs ⟨⟩⟩

theorem Follows.raft (h : s.Follows g) {a : Raft.Cluster.Act n Op} (hs : s.raftStep a = some s') :
    ∃ as g', exec System.step g as = some g' ∧ s'.Follows g' := by
  obtain ⟨st, born, entries, started, log, hcontract, hmatches, rfl⟩ := h
  unfold raftStep at hs
  split at hs
  · rename_i hprivate
    obtain ⟨raft, hraft, rfl⟩ := Option.map_eq_some_iff.mp hs
    obtain ⟨hplain, hplaces, happlier⟩ := isPrivate_cases hprivate
    obtain ⟨st', entries', hcontract', hgrown⟩ := hcontract.step hplain hraft
    rw [hplaces, List.append_nil] at hcontract'
    have hsame : ∀ i, (raft.peers i).delivered = (s.raft.peers i).delivered := by
      rcases Raft.Cluster.step_delivered hcontract.plain.uncompacted hplain.1 hraft with
        hsame | ⟨i, msg, msgs, ha, happ, -⟩
      · exact hsame
      · exact absurd happ (happlier i msg msgs ha)
    obtain ⟨as, started', log', hmatches', has⟩ := catchUp hmatches hcontract'.traced hgrown
    refine ⟨as, _, has s, st', born, entries', started', log', hcontract', hmatches', ?_⟩
    exact (system_of_delivered hsame started' log').symm
  · cases hs

theorem Follows.start (h : s.Follows g) {i : Fin n} {k : ℕ} (hs : s.start i k = some s') :
    ∃ as g', exec System.step g as = some g' ∧ s'.Follows g' := by
  obtain ⟨st, born, entries, started, log, hcontract, hmatches, rfl⟩ := h
  obtain ⟨hd, hhd, hs⟩ := Option.bind_eq_some_iff.mp hs
  obtain ⟨kv, hkv, hs⟩ := Option.bind_eq_some_iff.mp hs
  obtain ⟨raft, hraft, rfl⟩ := Option.map_eq_some_iff.mp hs
  obtain ⟨st', entries', hcontract', hgrown⟩ := hcontract.step ⟨rfl, rfl⟩ hraft
  have hsame : ∀ i, (raft.peers i).delivered = (s.raft.peers i).delivered := by
    rcases Raft.Cluster.step_delivered hcontract.plain.uncompacted rfl hraft with
      hsame | ⟨i, msg, msgs, ha, -, -⟩
    · exact hsame
    · cases ha
  have hmove : ∀ index, (s.servers i).start k index = some kv →
      (s.system started log).start i k index =
        some ((s.setServer i raft kv).system
          (index.elim started fun _ => started ++ [(hd.op, false)]) log) := by
    intro index hkv
    have hsystem : ∀ started', (s.setServer i raft kv).system started' log =
        System.setServer (s.system started' log) i kv :=
      fun started' => system_of_delivered (s := s.setServer i s.raft kv) hsame started' log
    rw [hsystem]
    simp only [System.start, system, hhd, Option.bind_some, hkv, Option.map_some]
    cases index with
    | none => rfl
    | some j => rfl
  -- the handler goes on with what `Start` returned
  have hstart : ∃ index started', Matches (born ++ s.raft.places (.start i (some hd.op))) entries
      started' log ∧ (s.system started log).start i k index =
        some ((s.setServer i raft kv).system started' log) := by
    rw [Raft.Cluster.places]
    by_cases hlead : (s.raft.peers i).rf.state = .leader
    · rw [Raft.placed?_of_leader hlead] at hkv ⊢
      exact ⟨_, _, hmatches.start rfl, hmove _ hkv⟩
    · rw [Raft.placed?_of_not_leader hlead] at hkv ⊢
      rw [Option.toList_none, List.append_nil]
      exact ⟨_, _, hmatches, hmove _ hkv⟩
  obtain ⟨index, started', hmatches', hstep⟩ := hstart
  obtain ⟨as, started'', log', hmatches'', has⟩ := catchUp hmatches' hcontract'.traced hgrown
  exact ⟨.start i k index :: as, _, exec_cons_eq_some.mpr ⟨_, hstep, has _⟩, st', _, entries',
    started'', log', hcontract', hmatches'', rfl⟩

section

variable {encode : SnapshotStatus → Bytes} {decode : Bytes → Option SnapshotStatus}

theorem Follows.recv (h : s.Follows g) {i : Fin n} (hs : s.recv decode i = some s') :
    ∃ as g', exec System.step g as = some g' ∧ s'.Follows g' := by
  obtain ⟨st, born, entries, started, log, hcontract, hmatches, rfl⟩ := h
  unfold Stack.recv at hs
  split at hs
  · rename_i msg msgs happ
    obtain ⟨msg', hmsg', hs⟩ := Option.bind_eq_some_iff.mp hs
    obtain ⟨kv, hkv, hs⟩ := Option.bind_eq_some_iff.mp hs
    obtain ⟨raft, hraft, rfl⟩ := Option.map_eq_some_iff.mp hs
    obtain ⟨st', entries', hcontract', hgrown⟩ := hcontract.step ⟨rfl, rfl⟩ hraft
    change Raft.Contract raft st' (born ++ []) entries' at hcontract'
    rw [List.append_nil] at hcontract'
    obtain ⟨as, started', log', hmatches', has⟩ := catchUp hmatches hcontract'.traced hgrown
    -- the message is the next command of the log
    obtain ⟨p, hp, rfl⟩ := Option.map_eq_some_iff.mp hraft
    have hdelivered : p.delivered = (s.raft.peers i).delivered ++ [msg] := by
      rw [Raft.Peer.applierStep, happ] at hp
      exact (Option.some.inj hp) ▸ rfl
    have hnext := hcontract'.delivered i
    rw [Raft.Cluster.setPeer_self, hdelivered] at hnext
    have hlast := getElem?_of_isPrefix hnext List.getElem?_concat_length
    obtain ⟨e, he, hcommand⟩ : ∃ e, entries'[(s.raft.peers i).delivered.length]? = some e ∧
        msg = .command e.cmd ((s.raft.peers i).delivered.length + 1) := by
      rw [Raft.commands, List.getElem?_mapIdx] at hlast
      obtain ⟨e, he, hmsg⟩ := Option.map_eq_some_iff.mp hlast
      exact ⟨e, he, hmsg.symm⟩
    obtain ⟨op, hop, hcmd⟩ := hmatches'.getElem? he
    rw [hcommand, hcmd] at hmsg'
    obtain rfl := Option.some.inj hmsg'
    have hrecv : (s.system started' log').recv i =
        some ((s.setServer i (s.raft.setPeer i p) kv).system started' log') := by
      simp only [System.recv, system, hop, Option.bind_some, hkv, Option.map_some, setServer,
        System.setServer, Option.some.injEq, System.mk.injEq, true_and, and_true]
      funext j
      by_cases hj : j = i
      · subst hj
        rw [Function.update_self, Raft.Cluster.setPeer_self, hdelivered, List.length_append,
          List.length_singleton]
      · rw [Function.update_of_ne hj, Raft.Cluster.setPeer_of_ne _ _ hj]
    have hrun : exec System.step (s.system started' log') [.recv i] = some _ :=
      exec_cons_eq_some.mpr ⟨_, hrecv, rfl⟩
    exact ⟨as ++ [.recv i], _, exec_append_eq_some.mpr ⟨_, has s, hrun⟩, st', born, entries',
      started', log', hcontract', hmatches', rfl⟩
  · cases hs

theorem Follows.step (h : s.Follows g) {a : Act n m} (ha : a.takesSnapshot = false)
    (hs : s.step encode decode a = some s') :
    ∃ as g', exec System.step g as = some g' ∧ s'.Follows g' := by
  cases a with
  | front a => exact h.front hs
  | start i k => exact h.start hs
  | raft a => exact h.raft hs
  | recv i => exact h.recv hs
  | recvSnapshot i k =>
      obtain ⟨st, born, entries, started, log, hcontract, -⟩ := h
      obtain ⟨sender, hk, -⟩ := Option.bind_eq_some_iff.mp hs
      rw [hcontract.plain.uncompacted.senders i] at hk
      cases hk
  | finish i full =>
      obtain rfl : full = false := ha
      obtain ⟨st, born, entries, started, log, hcontract, hmatches, rfl⟩ := h
      obtain ⟨kv, hkv, hs⟩ := Option.bind_eq_some_iff.mp hs
      obtain rfl := Option.some.inj hs
      have hown : (s.system started log).own i (.finish false) =
          some ((s.setServer i s.raft kv).system started log) :=
        congrArg (Option.map (System.setServer (s.system started log) i)) hkv
      exact ⟨[.own i (.finish false)], _, exec_cons_eq_some.mpr ⟨_, hown, rfl⟩, st, born, entries,
        started, log, hcontract, hmatches, rfl⟩

theorem follows_exec {ids : Fin m → ℕ} {acts : List (Act n m)} (hacts : Unsnapped acts)
    (h : exec (step encode decode) (init n ids) acts = some s) :
    ∃ as g, exec System.step (System.init n ids) as = some g ∧ s.Follows g := by
  refine exec_invariant (I := fun s => ∃ as g, exec System.step (System.init n ids) as = some g ∧
    s.Follows g) ?_ ⟨[], _, rfl, follows_init n ids⟩ (meets_of_forall _ hacts) h
  rintro s a s' ⟨as, g, hg, hfollows⟩ ha hs
  obtain ⟨as', g', hg', hfollows'⟩ := hfollows.step ha hs
  exact ⟨as ++ as', g', exec_append_eq_some.mpr ⟨g, hg, hg'⟩, hfollows'⟩

/-- Peer 0 is elected, and a clerk puts a value through server 0, which commits it with
peer 2. Peer 2 is elected with the vote of peer 1. Another clerk asks the servers 0 and 1 in
vain, and gets the value from server 2. -/
def putThenGetElsewhere : List (Act 3 3) :=
  [.raft (.ticker 0), .raft (.requestVote 0), .raft (.voteReply 0),
    .front (.invoke 0 (.put "x" "1")), .front (.call 0), .front (.deliver 0),
    .front (.own 0 (.check 0)), .start 0 0, .front (.own 0 (.register 0)),
    .raft (.heartbeat 0), .raft (.appendEntries 3), .raft (.appendReply 3),
    .raft (.applier 0), .raft (.applier 0), .recv 0, .front (.own 0 .applyMsg),
    .front (.own 0 .lookup), .front (.own 0 .send), .finish 0 false, .front (.own 0 (.clean 0)),
    .front (.ret 0),
    .raft (.ticker 2), .raft (.requestVote 2), .raft (.requestVote 3), .raft (.voteReply 3),
    .front (.invoke 1 (.get "x")), .front (.call 1), .front (.deliver 1), .start 0 1,
    .front (.ret 1), .front (.call 1), .front (.deliver 2), .start 1 0, .front (.ret 1),
    .front (.call 1), .front (.deliver 3), .start 2 0, .front (.own 2 (.register 0)),
    .raft (.heartbeat 2), .raft (.appendEntries 6), .raft (.appendReply 6),
    .raft (.applier 2), .raft (.applier 2), .recv 2, .front (.own 2 .applyMsg),
    .front (.own 2 .lookup), .finish 2 false, .raft (.applier 2), .raft (.applier 2),
    .raft (.applier 2), .recv 2, .front (.own 2 .applyMsg), .front (.own 2 .lookup),
    .front (.own 2 .send), .finish 2 false, .front (.own 2 (.read 0)),
    .front (.own 2 (.clean 0)), .front (.ret 1)]

/-- Raft keeps its contract: a run of the whole service without snapshots is, as far as the
clerks, the servers, the network between them and the history are concerned, a run of the
system that has the contract in the place of the cluster. -/
theorem exists_system_exec {ids : Fin m → ℕ} {acts : List (Act n m)} (hacts : Unsnapped acts)
    (h : exec (step encode decode) (init n ids) acts = some s) :
    ∃ as g, exec System.step (System.init n ids) as = some g ∧ g.servers = s.servers ∧
      g.clerks = s.clerks ∧ g.requests = s.requests ∧ g.history = s.history := by
  obtain ⟨as, g, hg, st, born, entries, started, log, -, -, rfl⟩ := follows_exec hacts h
  exact ⟨as, _, hg, rfl, rfl, rfl, rfl⟩

theorem exists_system_exec_putThenGetElsewhere :
    ∃ s, exec (step (fun _ => []) fun _ => none) (init 3 Fin.val) putThenGetElsewhere = some s ∧
      (s.servers 2).lastApplied = 2 ∧ ∃ as g,
        exec System.step (System.init 3 Fin.val) as = some g ∧ g.servers = s.servers ∧
          g.clerks = s.clerks ∧ g.requests = s.requests ∧ g.history = s.history :=
  ⟨_, rfl, rfl, exists_system_exec (by decide)
    (show exec (step (fun _ => []) fun _ => none) (init 3 Fin.val) putThenGetElsewhere = some _
      from rfl)⟩

theorem refines_exec {ids : Fin m → ℕ} (hids : Function.Injective ids) {acts : List (Act n m)}
    (hacts : Unsnapped acts) (h : exec (step encode decode) (init n ids) acts = some s) :
    ∃ g started log, Refines ids (s.system started log) g := by
  obtain ⟨as, t, ht, st, born, entries, started, log, -, -, rfl⟩ := follows_exec hacts h
  obtain ⟨g, hg⟩ := exec_preserves (I := fun t => ∃ g, Refines ids t g)
    (fun _ _ _ ⟨_, hg⟩ hs => hg.step hids hs) ⟨_, refines_init n ids⟩ ht
  exact ⟨g, started, log, hg⟩

/-- Whatever the clerks, the servers, the peers and the two networks do, what the callers
of the clerks see is linearizable with respect to a map from keys to strings, as long as
no server takes a snapshot or restarts. -/
theorem history_linearizable {ids : Fin m → ℕ} (hids : Function.Injective ids)
    {acts : List (Act n m)} (hacts : Unsnapped acts)
    (h : exec (step encode decode) (init n ids) acts = some s) :
    Linearizable kvSpec s.history := by
  obtain ⟨g, started, log, hg⟩ := refines_exec hids hacts h
  have hhistory : g.history = s.history := hg.history
  rw [← hhistory]
  exact hg.inv.linearizable kvSpec_read

theorem history_linearizable_putThenGetElsewhere :
    ∃ s, exec (step (fun _ => []) fun _ => none) (init 3 Fin.val) putThenGetElsewhere = some s ∧
      s.history = [.inv (0, 0) (.put "x" "1"), .ret (0, 0) "", .inv (1, 0) (.get "x"),
        .ret (1, 0) "1"] ∧
      Linearizable kvSpec s.history :=
  ⟨_, rfl, rfl, history_linearizable (fun _ _ he => Fin.ext he) (by decide)
    (show exec (step (fun _ => []) fun _ => none) (init 3 Fin.val) putThenGetElsewhere = some _
      from rfl)⟩

/-- The tables of all servers are those of one log, each up to the command that the server
has reached. -/
theorem tables_eq_common_log {ids : Fin m → ℕ} {acts : List (Act n m)} (hacts : Unsnapped acts)
    (h : exec (step encode decode) (init n ids) acts = some s) :
    ∃ log : List Op, ∀ i, (s.servers i).position ≤ log.length ∧
      (s.servers i).toSnapshotStatus =
        SnapshotStatus.applyOps (log.take (s.servers i).position) := by
  obtain ⟨as, t, ht, st, born, entries, started, log, -, -, rfl⟩ := follows_exec hacts h
  have htracks := exec_preserves (fun _ _ _ hI hs => hI.step hs) (System.tracks_init n ids) ht
  refine ⟨log, fun i => ?_⟩
  have hrel : (s.servers i).Tracks (log.map Op.entry) _ := htracks i
  have hlen := hrel.position_le
  rw [List.length_map] at hlen
  refine ⟨hlen, SnapshotStatus.replica_injective ?_⟩
  rw [SnapshotStatus.replica_applyOps, List.map_take]
  exact hrel.replica

theorem tables_eq_common_log_putThenGetElsewhere :
    ∃ s, exec (step (fun _ => []) fun _ => none) (init 3 Fin.val) putThenGetElsewhere = some s ∧
      (s.servers 0).position = 1 ∧ (s.servers 2).position = 2 ∧ ∃ log : List Op, ∀ i,
        (s.servers i).position ≤ log.length ∧ (s.servers i).toSnapshotStatus =
          SnapshotStatus.applyOps (log.take (s.servers i).position) :=
  ⟨_, rfl, rfl, rfl, tables_eq_common_log (by decide)
    (show exec (step (fun _ => []) fun _ => none) (init 3 Fin.val) putThenGetElsewhere = some _
      from rfl)⟩

end

end Stack

end KvRaft

end DistributedLabs
