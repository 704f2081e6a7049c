import DistributedLabs.KvRaft.ExactlyOnce

/-!
# Whether the applied state goes backwards

Raft sends commands and snapshots from different goroutines, so `apply` may receive
them in any order. An old command is skipped, but a snapshot takes the place of the
tables and of `lastApplied` whatever its index is. The applied state never goes
backwards as long as no snapshot is older than what has been applied.
-/

namespace DistributedLabs

namespace KvRaft

open SharedLog SnapshotStatus

/-! ## Tables -/

/-- Every client's number in the first table is reached in the second one. -/
def TableLe (t t' : ℕ → Option ℕ) : Prop :=
  ∀ client seq, t client = some seq → ∃ seq', seq ≤ seq' ∧ t' client = some seq'

theorem TableLe.refl (t : ℕ → Option ℕ) : TableLe t t :=
  fun _ seq h => ⟨seq, le_rfl, h⟩

theorem TableLe.trans {t t' t'' : ℕ → Option ℕ} (h : TableLe t t') (h' : TableLe t' t'') :
    TableLe t t'' := by
  intro client seq hseq
  obtain ⟨seq', hle, hseq'⟩ := h client seq hseq
  obtain ⟨seq'', hle', hseq''⟩ := h' client seq' hseq'
  exact ⟨seq'', hle.trans hle', hseq''⟩

theorem tableLe_applyOp (st : SnapshotStatus) (op : Op) :
    TableLe st.duptable (st.applyOp op).duptable := by
  intro client seq hseq
  have hmono : ∃ seq', seq ≤ seq' ∧
      (st.replica.apply kvSpec op.entry).seen client = some seq' :=
    Replica.seen_apply_mono op.entry hseq
  rw [← replica_applyOp] at hmono
  exact hmono

theorem tableLe_applyOps_take (ops : List Op) {m n : ℕ} (hmn : m ≤ n) :
    TableLe (applyOps (ops.take m)).duptable (applyOps (ops.take n)).duptable := by
  intro client seq hseq
  change (applyOps (ops.take m)).replica.seen client = some seq at hseq
  rw [replica_applyOps] at hseq
  have hle : (ops.take m).map Op.entry <+: (ops.take n).map Op.entry :=
    (List.take_prefix_take_left hmn).map Op.entry
  have hmono := replay_seen_mono hle hseq
  rw [← replica_applyOps] at hmono
  exact hmono

/-- A command of the log leaves a table below that of the log up to the command. -/
theorem TableLe.applyOp {st : SnapshotStatus} {ops : List Op} {n : ℕ} {op : Op}
    (h : TableLe st.duptable (applyOps (ops.take n)).duptable) (hop : op ∈ ops.take n) :
    TableLe (st.applyOp op).duptable (applyOps (ops.take n)).duptable := by
  rw [applyOp_eq]
  split
  · intro client seq hseq
    change Function.update st.duptable op.clientId (some op.sequenceId) client = some seq at hseq
    by_cases hclient : client = op.clientId
    · subst hclient
      rw [Function.update_self] at hseq
      obtain rfl := Option.some.inj hseq
      have hseen : ∃ t, op.entry.seq ≤ t ∧
          (replay kvSpec ((ops.take n).map Op.entry)).seen op.entry.client = some t :=
        exists_seen_of_mem (List.mem_map_of_mem hop)
      rw [← replica_applyOps] at hseen
      exact hseen
    · rw [Function.update_of_ne hclient] at hseq
      exact h client seq hseq
  · exact h

/-! ## Messages -/

/-- The message belongs to the log `ops`: a command is its entry, and a snapshot has
the tables that the log gives up to its index, which is not below `start`. -/
def ApplyMsg.Carries (ops : List Op) (start : ℕ) : ApplyMsg → Prop
  | .command op index => ∃ i, index = i + 1 ∧ ops[i]? = some op
  | .snapshot status index => start ≤ index ∧ ∀ st ∈ status, st = applyOps (ops.take index)

/-- `apply` has no snapshot in hand that is older than the index `last`. -/
def ApplyPc.NotOlder (last : ℕ) : ApplyPc → Prop
  | .locked (.snapshot (some _) index) => last ≤ index
  | _ => True

instance (last : ℕ) : DecidablePred (ApplyPc.NotOlder last)
  | .locked (.snapshot (some _) index) => inferInstanceAs (Decidable (last ≤ index))
  | .locked (.snapshot none _) | .locked (.command _ _) => isTrue trivial
  | .idle | .looking _ _ | .sending _ _ _ | .finishing _ | .stopped => isTrue trivial

/-! ## The steps of `apply` -/

namespace Server

variable {kv kv' : Server} {a : Act}

/-- What a step does to the tables, to `lastApplied` and to the position in the log:
nothing new, a command, or a snapshot. -/
inductive ApplyStep (kv : Server) (a : Act) (kv' : Server) : Prop where
  | quiet (htables : kv'.toSnapshotStatus = kv.toSnapshotStatus)
      (hposition : kv'.position = kv.position)
      (hlast : kv'.lastApplied = kv.lastApplied ∨ kv'.lastApplied = kv.position)
      (hlocked : ∀ msg, kv'.applyPc = .locked msg → kv.applyPc = .locked msg ∨ a = .recv msg)
      (hother : ∀ status index, a = .applyMsg →
        kv.applyPc ≠ .locked (.snapshot (some status) index))
  | command (op : Op) (index : ℕ) (hact : a = .applyMsg)
      (hpc : kv.applyPc = .locked (.command op index)) (hlt : kv.lastApplied < index)
      (hkv' : kv' = { kv with
        toSnapshotStatus := kv.toSnapshotStatus.applyOp op, applyPc := .looking op index })
  | snapshot (status : SnapshotStatus) (index : ℕ) (hact : a = .applyMsg)
      (hpc : kv.applyPc = .locked (.snapshot (some status) index))
      (hkv' : kv' = { kv with
        toSnapshotStatus := status, lastApplied := index, applyPc := .idle })

/-- The steps of the handlers do not concern `apply`. -/
theorem ApplyStep.of_eq (htables : kv'.toSnapshotStatus = kv.toSnapshotStatus)
    (hlast : kv'.lastApplied = kv.lastApplied) (hpc : kv'.applyPc = kv.applyPc)
    (ha : a ≠ .applyMsg) : ApplyStep kv a kv' := by
  refine .quiet htables ?_ (Or.inl hlast) (fun msg hmsg => Or.inl (hpc ▸ hmsg))
    fun _ _ hact => absurd hact ha
  unfold position
  rw [hpc, hlast]

/-- The other steps of `apply` after it has taken a message. -/
theorem ApplyStep.of_unlocked (htables : kv'.toSnapshotStatus = kv.toSnapshotStatus)
    (hposition : kv'.position = kv.position)
    (hlast : kv'.lastApplied = kv.lastApplied ∨ kv'.lastApplied = kv.position)
    (hpc : ∀ msg, kv'.applyPc ≠ .locked msg) (ha : a ≠ .applyMsg) : ApplyStep kv a kv' :=
  .quiet htables hposition hlast (fun msg hmsg => absurd hmsg (hpc msg))
    fun _ _ hact => absurd hact ha

theorem applyMsg_applyStep (hs : kv.applyMsg = some kv') : ApplyStep kv .applyMsg kv' := by
  obtain ⟨msg, hpc, ⟨op, index, rfl, -, rfl⟩ | ⟨op, index, rfl, hlt, rfl⟩ |
    ⟨index, rfl, rfl⟩ | ⟨status, index, rfl, rfl⟩⟩ := applyMsg_cases hs
  · refine .quiet rfl ?_ (Or.inl rfl) (fun msg hmsg => by cases hmsg) fun status i _ h => ?_
    · simp [position, hpc]
    · rw [hpc] at h
      cases h
  · exact .command op index rfl hpc hlt rfl
  · refine .quiet rfl ?_ (Or.inl rfl) (fun msg hmsg => by cases hmsg) fun status i _ h => ?_
    · simp [position, hpc]
    · rw [hpc] at h
      cases h
  · exact .snapshot status index rfl hpc rfl

theorem step_applyStep (hs : kv.step a = some kv') : ApplyStep kv a kv' := by
  cases happly : a.isApply with
  | false =>
      obtain ⟨htables, hlast, hpc⟩ := step_frame happly hs
      exact .of_eq htables hlast hpc (by rintro rfl; cases happly)
  | true =>
      cases a with
      | applyMsg => exact applyMsg_applyStep hs
      | recv msg =>
          obtain ⟨hpc, rfl | rfl⟩ := recv_cases hs
          · refine .of_unlocked rfl ?_ (Or.inl rfl) (fun _ => ApplyPc.noConfusion) Act.noConfusion
            simp [position, hpc]
          · refine .quiet rfl ?_ (Or.inl rfl) (fun m hm => Or.inr ?_) (fun _ _ h => by cases h)
            · simp [position, hpc]
            · cases hm
              rfl
      | lookup =>
          obtain ⟨op, index, hpc, ⟨h, -, rfl⟩ | ⟨-, rfl⟩⟩ := lookup_cases hs
          · refine .of_unlocked rfl ?_ (Or.inl rfl) (fun _ => ApplyPc.noConfusion) Act.noConfusion
            simp [position, hpc]
          · refine .of_unlocked rfl ?_ (Or.inl rfl) (fun _ => ApplyPc.noConfusion) Act.noConfusion
            simp [position, hpc]
      | send =>
          obtain ⟨op, index, h, hd, i, hpc, -, -, rfl⟩ := send_cases hs
          refine .of_unlocked rfl ?_ (Or.inl rfl) (fun _ => ApplyPc.noConfusion) Act.noConfusion
          simp [position, setPc, hpc]
      | finish full =>
          obtain ⟨index, hpc, rfl⟩ := finish_cases hs
          have hposition : kv.position = index := by simp [position, hpc]
          exact .of_unlocked rfl hposition.symm (Or.inr hposition.symm)
            (fun _ => ApplyPc.noConfusion) Act.noConfusion
      | _ => cases happly

/-! ## Runs -/

/-- A snapshot that is handled is not older than what has been applied. -/
def upToDate (kv : Server) : Act → Prop
  | .applyMsg => kv.applyPc.NotOlder kv.lastApplied
  | _ => True

theorem upToDate_applyMsg_iff : kv.upToDate .applyMsg ↔
    ∀ status index, kv.applyPc = .locked (.snapshot (some status) index) →
      kv.lastApplied ≤ index := by
  change kv.applyPc.NotOlder kv.lastApplied ↔ _
  unfold ApplyPc.NotOlder
  split
  · rename_i status index hpc
    rw [hpc]
    constructor
    · intro h _ i heq
      cases heq
      exact h
    · exact fun h => h status index rfl
  · rename_i hpc
    exact ⟨fun _ status index h => absurd h (hpc status index), fun _ => trivial⟩

/-- The messages that are received belong to the log. -/
def Act.Carries (ops : List Op) (start : ℕ) : Act → Prop
  | .recv msg => msg.Carries ops start
  | _ => True

/-- `lastApplied` follows the position in the log. -/
theorem lastApplied_le_position_step (h : kv.lastApplied ≤ kv.position)
    (hs : kv.step a = some kv') : kv'.lastApplied ≤ kv'.position := by
  cases step_applyStep hs with
  | quiet htables hposition hlast hlocked hother =>
      rw [hposition]
      rcases hlast with hlast | hlast
      · rwa [hlast]
      · exact hlast.le
  | command op index hact hpc hlt hkv' =>
      rw [hkv']
      exact hlt.le
  | snapshot status index hact hpc hkv' =>
      rw [hkv']
      exact le_rfl

/-- A step takes `lastApplied` back only if it handles an old snapshot. -/
theorem lastApplied_le_iff (h : kv.lastApplied ≤ kv.position) :
    (∀ kv', kv.step a = some kv' → kv.lastApplied ≤ kv'.lastApplied) ↔ kv.upToDate a := by
  constructor
  · intro hle
    cases a with
    | applyMsg =>
        refine upToDate_applyMsg_iff.mpr fun status index hpc => ?_
        refine hle { kv with toSnapshotStatus := status, lastApplied := index, applyPc := .idle } ?_
        rw [step, applyMsg, hpc]
    | _ => trivial
  · intro hok kv' hs
    cases step_applyStep hs with
    | quiet htables hposition hlast hlocked hother =>
        rcases hlast with hlast | hlast
        · exact hlast.ge
        · exact h.trans hlast.ge
    | command op index hact hpc hlt hkv' => rw [hkv']
    | snapshot status index hact hpc hkv' =>
        rw [hact] at hok
        rw [hkv']
        exact upToDate_applyMsg_iff.mp hok status index hpc

/-- The table is below that of the log at the position of the server, or at the index
of the snapshot that it started from, and the message in hand belongs to the log. -/
structure Trails (ops : List Op) (start : ℕ) (kv : Server) : Prop where
  position : kv.lastApplied ≤ kv.position
  table : TableLe kv.duptable (applyOps (ops.take (max start kv.position))).duptable
  locked : ∀ msg, kv.applyPc = .locked msg → msg.Carries ops start

theorem trails_startKVServer {ops : List Op} {start : ℕ} {snapshot : Option SnapshotStatus}
    (h : snapshot.getD {} = applyOps (ops.take start)) :
    Trails ops start (startKVServer snapshot) where
  position := le_rfl
  table := by
    change TableLe (snapshot.getD {}).duptable _
    rw [h]
    exact tableLe_applyOps_take ops (le_max_left _ _)
  locked := by
    intro msg hmsg
    cases hmsg

/-- One step keeps the table below that of the log and takes no number back. -/
theorem Trails.step {ops : List Op} {start : ℕ} (h : Trails ops start kv) (hok : kv.upToDate a)
    (ha : a.Carries ops start) (hs : kv.step a = some kv') :
    Trails ops start kv' ∧ TableLe kv.duptable kv'.duptable := by
  have hposition := lastApplied_le_position_step h.position hs
  cases step_applyStep hs with
  | quiet htables hsame hlast hlocked hother =>
      rw [htables]
      refine ⟨⟨hposition, ?_, fun msg hmsg => ?_⟩, .refl _⟩
      · rw [htables, hsame]
        exact h.table
      · rcases hlocked msg hmsg with hold | rfl
        · exact h.locked msg hold
        · exact ha
  | command op index hact hpc hlt hkv' =>
      obtain ⟨i, rfl, hop⟩ := h.locked _ hpc
      rw [hkv'] at hposition ⊢
      refine ⟨⟨hposition, ?_, fun msg hmsg => by cases hmsg⟩, tableLe_applyOp _ op⟩
      -- the tables were those of a shorter part of the log
      have hshort : max start kv.position ≤ max start (i + 1) := by
        have : kv.position = kv.lastApplied := by simp [Server.position, hpc]
        omega
      have hmem : op ∈ ops.take (max start (i + 1)) :=
        List.mem_of_getElem? (i := i) (by rw [List.getElem?_take_of_lt (by omega), hop])
      exact (h.table.trans (tableLe_applyOps_take ops hshort)).applyOp hmem
  | snapshot status index hact hpc hkv' =>
      obtain ⟨hstart, hstatus⟩ := h.locked _ hpc
      rw [hact] at hok
      have hle := upToDate_applyMsg_iff.mp hok status index hpc
      have htables := hstatus status rfl
      have hshort : max start kv.position ≤ index := by
        have : kv.position = kv.lastApplied := by simp [Server.position, hpc]
        omega
      rw [hkv'] at hposition ⊢
      rw [htables]
      refine ⟨⟨hposition, ?_, fun msg hmsg => by cases hmsg⟩,
        h.table.trans (tableLe_applyOps_take ops hshort)⟩
      exact tableLe_applyOps_take ops (le_max_right _ _)

/-- In any sequence of messages, `lastApplied` is never taken back exactly if no
snapshot is handled that is older than it. If the messages belong to one log, and the
server started from the tables of the log up to `start`, no client's number is taken
back either. -/
theorem applied_nondecreasing (snapshot : Option SnapshotStatus) (acts : List Act) :
    (meets step upToDate (startKVServer snapshot) acts ↔
      meets step (fun kv a => ∀ kv', kv.step a = some kv' → kv.lastApplied ≤ kv'.lastApplied)
        (startKVServer snapshot) acts) ∧
    ∀ ops start, snapshot.getD {} = applyOps (ops.take start) →
      (∀ a ∈ acts, a.Carries ops start) → meets step upToDate (startKVServer snapshot) acts →
      meets step (fun kv a => ∀ kv', kv.step a = some kv' → TableLe kv.duptable kv'.duptable)
        (startKVServer snapshot) acts := by
  refine ⟨⟨?_, ?_⟩, ?_⟩
  · exact meets_of_invariant (I := fun kv => kv.lastApplied ≤ kv.position)
      (fun _ _ _ h _ hs => lastApplied_le_position_step h hs)
      (fun _ _ h hok => (lastApplied_le_iff h).mpr hok) le_rfl
  · exact meets_of_invariant (I := fun kv => kv.lastApplied ≤ kv.position)
      (fun _ _ _ h _ hs => lastApplied_le_position_step h hs)
      (fun _ _ h hle => (lastApplied_le_iff h).mp hle) le_rfl
  · intro ops start hstart hcarries hok
    refine meets_of_invariant (I := Trails ops start) ?_ ?_ (trails_startKVServer hstart)
      (meets_and hok (meets_of_forall _ hcarries))
    · exact fun _ _ _ h hok hs => (h.step hok.1 hok.2 hs).1
    · exact fun _ _ h hok _ hs => (h.step hok.1 hok.2 hs).2

instance (kv : Server) : DecidablePred kv.upToDate
  | .applyMsg => inferInstanceAs (Decidable (kv.applyPc.NotOlder kv.lastApplied))
  | .arrive _ | .check _ | .start _ _ | .register _ | .timeout _ | .read _ | .clean _
  | .recv _ | .lookup | .send | .finish _ | .kill => isTrue trivial

/-- `apply` receives a command and handles it. -/
def round (op : Op) (index : ℕ) : List Act :=
  [.recv (.command op index), .applyMsg, .lookup, .finish false]

def putOfClient (value : String) (seq : ℕ) : Op :=
  { type := .put, key := "k", value := value, clientId := 1, sequenceId := seq }

def threePuts : List Op := [putOfClient "a" 0, putOfClient "b" 1, putOfClient "c" 2]

/-- The first and the third command of the log, and then a snapshot of index `index`. Raft
delivers them in this order if a snapshot of index 2 was accepted in between, and the
goroutine that delivers it is late. -/
def thenSnapshot (index : ℕ) : List Act :=
  round (putOfClient "a" 0) 1 ++ round (putOfClient "c" 2) 3 ++
    [.recv (.snapshot (some (applyOps (threePuts.take index))) index)]

theorem carries_round {ops : List Op} {start i : ℕ} {op : Op} (hop : ops[i]? = some op) :
    ∀ a ∈ round op (i + 1), a.Carries ops start := by
  intro a ha
  simp only [round, List.mem_cons, List.not_mem_nil, or_false] at ha
  rcases ha with rfl | rfl | rfl | rfl
  · exact ⟨i, rfl, hop⟩
  · trivial
  · trivial
  · trivial

theorem carries_thenSnapshot (index : ℕ) :
    ∀ a ∈ thenSnapshot index, a.Carries threePuts 0 := by
  have hsnapshot : Act.Carries threePuts 0
      (.recv (.snapshot (some (applyOps (threePuts.take index))) index)) :=
    ⟨Nat.zero_le index, fun st hst => (Option.some.inj hst).symm⟩
  have hfirst : threePuts[0]? = some (putOfClient "a" 0) := rfl
  have hthird : threePuts[2]? = some (putOfClient "c" 2) := rfl
  exact List.forall_mem_append.mpr ⟨List.forall_mem_append.mpr
    ⟨carries_round hfirst, carries_round hthird⟩, List.forall_mem_singleton.mpr hsnapshot⟩

theorem applied_nondecreasing_thenSnapshot :
    meets step upToDate (startKVServer none) (thenSnapshot 3 ++ [.applyMsg]) ∧
      meets step (fun kv a => ∀ kv', kv.step a = some kv' → kv.lastApplied ≤ kv'.lastApplied)
        (startKVServer none) (thenSnapshot 3 ++ [.applyMsg]) ∧
      meets step (fun kv a => ∀ kv', kv.step a = some kv' → TableLe kv.duptable kv'.duptable)
        (startKVServer none) (thenSnapshot 3 ++ [.applyMsg]) := by
  have hok : meets step upToDate (startKVServer none) (thenSnapshot 3 ++ [.applyMsg]) := by
    decide
  refine ⟨hok, (applied_nondecreasing none _).1.mp hok,
    (applied_nondecreasing none _).2 threePuts 0 rfl (fun a ha => ?_) hok⟩
  rcases List.mem_append.mp ha with ha | ha
  · exact carries_thenSnapshot 3 a ha
  · rw [List.mem_singleton.mp ha]
    trivial

/-- A snapshot of index 2 that is handled after command 3 takes `lastApplied` and the
number of the client back. -/
theorem oldSnapshot_takes_back :
    (∀ a ∈ thenSnapshot 2, a.Carries threePuts 0) ∧
    ∃ kv kv', exec step (startKVServer none) (thenSnapshot 2) = some kv ∧
      kv.step .applyMsg = some kv' ∧ kv.lastApplied = 3 ∧ kv'.lastApplied = 2 ∧
      kv.duptable 1 = some 2 ∧ kv'.duptable 1 = some 1 :=
  ⟨carries_thenSnapshot 2, _, _, rfl, rfl, rfl, rfl, by decide, by decide⟩

end Server

end KvRaft

end DistributedLabs
