import DistributedLabs.KvRaft.System
import DistributedLabs.SharedLog.Service

/-!
# A server as a replica of the shared log

`ServerRel g received kv` ties a server to a service that is served from a shared
log: its tables are what a replay of the log up to its position gives (`Tracks`), and
each of its handlers knows that its request is in the log before it answers it. Every
step of the server keeps the relation.
-/

namespace DistributedLabs

namespace KvRaft

open SharedLog

/-- The service that the system implements. -/
abbrev KvService := Service ℕ Input String

/-- The calls that only read. -/
def isRead : Input → Bool
  | .get _ => true
  | .put _ _ | .append _ _ => false

theorem kvSpec_read (x : String → Option String) (input : Input) (h : isRead input = true) :
    (kvSpec.step x input).1 = x := by
  cases input with
  | get key => rfl
  | put key value => cases h
  | append key value => cases h

/-- `Put` and `Append` answer with nothing. -/
theorem kvSpec_write (x : String → Option String) {input : Input} (h : isRead input = false) :
    (kvSpec.step x input).2 = "" := by
  cases input with
  | get key => cases h
  | put key value => rfl
  | append key value =>
      simp only [kvSpec]
      split <;> rfl

/-- The call that a request was made of. -/
def Op.input (op : Op) : Input :=
  match op.type with
  | .get => .get op.key
  | .put => .put op.key op.value
  | .append => .append op.key op.value

def Op.entry (op : Op) : Entry ℕ Input :=
  { client := op.clientId, seq := op.sequenceId, input := op.input }

@[simp] theorem Input.op_input (input : Input) (clientId sequenceId : ℕ) :
    (input.op clientId sequenceId).input = input := by
  cases input <;> rfl

@[simp] theorem Input.op_id (input : Input) (clientId sequenceId : ℕ) :
    (input.op clientId sequenceId).entry.id = (clientId, sequenceId) := by
  cases input <;> rfl

theorem Op.isRead_input (op : Op) : isRead op.input = true ↔ op.type = .get := by
  unfold Op.input
  split <;> simp_all [isRead]

/-- The tables as a replica. -/
def SnapshotStatus.replica (st : SnapshotStatus) : Replica (String → Option String) ℕ :=
  { state := st.data, seen := st.duptable }

/-- `apply` brings a command to the tables as a replica applies an entry. -/
theorem SnapshotStatus.replica_applyOp (st : SnapshotStatus) (op : Op) :
    (st.applyOp op).replica = st.replica.apply kvSpec op.entry := by
  unfold SnapshotStatus.applyOp
  by_cases h : ∀ pre ∈ st.duptable op.clientId, pre < op.sequenceId
  · have hfresh : st.replica.Fresh op.entry := h
    rw [if_pos h, Replica.apply_of_fresh hfresh]
    cases htype : op.type with
    | get => simp [replica, Op.entry, Op.input, htype, kvSpec]
    | put => simp [replica, Op.entry, Op.input, htype, kvSpec]
    | append =>
        cases hold : st.data op.key with
        | none => simp [replica, Op.entry, Op.input, htype, kvSpec, hold]
        | some old => simp [replica, Op.entry, Op.input, htype, kvSpec, hold]
  · have hfresh : ¬ st.replica.Fresh op.entry := h
    rw [if_neg h, Replica.apply_of_not_fresh hfresh]

/-- What `Get` replies is the answer of the map. -/
theorem getReply_value (st : SnapshotStatus) {op : Op} (h : op.type = .get) :
    (Server.getReply st op.key).value = (kvSpec.step st.replica.state op.input).2 := by
  unfold Server.getReply
  cases hold : st.data op.key with
  | none => simp [Op.input, h, kvSpec, SnapshotStatus.replica, hold]
  | some val => simp [Op.input, h, kvSpec, SnapshotStatus.replica, hold]

/-! ## The relation -/

/-- How much of the log is in the tables. -/
def Server.position (kv : Server) : ℕ :=
  match kv.applyPc with
  | .looking _ index | .sending _ index _ | .finishing index => index
  | .idle | .locked _ | .stopped => kv.lastApplied

/-- The call of a request has been invoked. -/
def Invoked (g : KvService) (op : Op) : Prop :=
  .inv op.entry.id op.input ∈ g.history

/-- A reply that a client accepts is justified by the log. -/
def Answered (g : KvService) (op : Op) (reply : Reply) : Prop :=
  reply.leader = true →
    if op.type = .get then
      ∃ p ≤ g.log.length, g.LoggedBefore op.entry.id p ∧
        (kvSpec.step (replay kvSpec (g.log.take p)).state op.input).2 = reply.value
    else g.LoggedBefore op.entry.id g.log.length

/-- What a handler knows of the log. -/
def HandlerPc.Ok (g : KvService) (position : ℕ) (op : Op) : HandlerPc → Prop
  | .checking => op.type ≠ .get
  | .starting | .registering _ | .selecting _ => True
  | .reading _ => op.type = .get ∧ g.LoggedBefore op.entry.id position
  | .cleaning _ reply | .done reply => Answered g op reply

structure HandlerOk (g : KvService) (position : ℕ) (hd : Handler) : Prop where
  invoked : Invoked g hd.op
  pc : hd.pc.Ok g position hd.op

/-- What `apply` knows of the log. -/
def ApplyPc.Ok (log : List (Entry ℕ Input)) (received lastApplied : ℕ) : ApplyPc → Prop
  | .idle => received = lastApplied
  | .locked msg => received = lastApplied + 1 ∧ ∃ op,
      msg = .command op (lastApplied + 1) ∧ log[lastApplied]? = some op.entry
  | .looking op index | .sending op index _ =>
      received = index ∧ ∃ q, index = q + 1 ∧ log[q]? = some op.entry
  | .finishing index => received = index
  | .stopped => True

/-- The tables are those of the log up to the position of the server. -/
structure Server.Tracks (log : List (Entry ℕ Input)) (received : ℕ) (kv : Server) : Prop where
  replica : kv.toSnapshotStatus.replica = replay kvSpec (log.take kv.position)
  position_le : kv.position ≤ log.length
  applyPc : kv.applyPc.Ok log received kv.lastApplied

structure ServerRel (g : KvService) (received : ℕ) (kv : Server) : Prop
    extends kv.Tracks g.log received where
  handlers : ∀ hd ∈ kv.handlers, HandlerOk g kv.position hd

theorem serverRel_init : ServerRel (Service.init ℕ Input String) 0 (Server.startKVServer none) where
  replica := rfl
  position_le := le_rfl
  applyPc := rfl
  handlers := by rintro hd (_ | _)

/-! ## Growth of the log and of the history -/

section

variable {g g' : KvService} {received position position' : ℕ} {kv kv' : Server} {op : Op}

theorem Invoked.mono (h : Invoked g op) (hle : g ≤ g') : Invoked g' op :=
  hle.2.subset h

theorem Answered.mono {reply : Reply} (h : Answered g op reply) (hle : g ≤ g') :
    Answered g' op reply := by
  intro hleader
  have hold := h hleader
  have hlen := hle.1.length_le
  split
  · rename_i htype
    rw [if_pos htype] at hold
    obtain ⟨p, hp, hlogged, hvalue⟩ := hold
    refine ⟨p, hp.trans hlen, hlogged.mono hle.1, ?_⟩
    rw [take_of_isPrefix hle.1 hp]
    exact hvalue
  · rename_i htype
    rw [if_neg htype] at hold
    obtain ⟨q, e, hq, he, hid⟩ := hold
    exact ⟨q, e, hq.trans_le hlen, getElem?_of_isPrefix hle.1 he, hid⟩

theorem HandlerOk.mono {hd : Handler} (h : HandlerOk g position hd) (hle : g ≤ g')
    (hpos : position ≤ position') : HandlerOk g' position' hd := by
  refine ⟨h.invoked.mono hle, ?_⟩
  have hpc := h.pc
  cases hcase : hd.pc with
  | checking =>
      rw [hcase] at hpc
      exact hpc
  | starting => trivial
  | registering index => trivial
  | selecting index => trivial
  | reading index =>
      rw [hcase] at hpc
      obtain ⟨htype, q, e, hq, he, hid⟩ := hpc
      exact ⟨htype, q, e, hq.trans_le hpos, getElem?_of_isPrefix hle.1 he, hid⟩
  | cleaning index reply =>
      rw [hcase] at hpc
      exact hpc.mono hle
  | done reply =>
      rw [hcase] at hpc
      exact hpc.mono hle

theorem Server.Tracks.mono {log log' : List (Entry ℕ Input)} (h : kv.Tracks log received)
    (hle : log <+: log') : kv.Tracks log' received where
  replica := by
    rw [take_of_isPrefix hle h.position_le]
    exact h.replica
  position_le := h.position_le.trans hle.length_le
  applyPc := by
    have hpc := h.applyPc
    cases hcase : kv.applyPc with
    | idle =>
        rw [hcase] at hpc
        exact hpc
    | locked msg =>
        rw [hcase] at hpc
        obtain ⟨hrec, op, hmsg, hop⟩ := hpc
        exact ⟨hrec, op, hmsg, getElem?_of_isPrefix hle hop⟩
    | looking op index =>
        rw [hcase] at hpc
        obtain ⟨hrec, q, hq, hop⟩ := hpc
        exact ⟨hrec, q, hq, getElem?_of_isPrefix hle hop⟩
    | sending op index h =>
        rw [hcase] at hpc
        obtain ⟨hrec, q, hq, hop⟩ := hpc
        exact ⟨hrec, q, hq, getElem?_of_isPrefix hle hop⟩
    | finishing index =>
        rw [hcase] at hpc
        exact hpc
    | stopped => trivial

theorem ServerRel.mono (h : ServerRel g received kv) (hle : g ≤ g') :
    ServerRel g' received kv where
  toTracks := h.toTracks.mono hle.1
  handlers hd hhd := (h.handlers hd hhd).mono hle le_rfl

end

/-! ## The steps of `apply` -/

namespace Server.Tracks

variable {log : List (Entry ℕ Input)} {received received' : ℕ} {kv kv' : Server} {op : Op}

/-- A step that leaves the tables and the position alone. -/
theorem move (hkv : kv.Tracks log received)
    (hstatus : kv'.toSnapshotStatus = kv.toSnapshotStatus) (hpos : kv'.position = kv.position)
    (hpc : kv'.applyPc.Ok log received' kv'.lastApplied) : kv'.Tracks log received' where
  replica := by
    rw [hstatus, hpos]
    exact hkv.replica
  position_le := hpos.trans_le hkv.position_le
  applyPc := hpc

theorem recv (hkv : kv.Tracks log received) (hop : log[received]? = some op.entry)
    (hs : kv.recv (.command op (received + 1)) = some kv') : kv'.Tracks log (received + 1) := by
  obtain ⟨hidle, hcases⟩ := recv_cases hs
  have hrec := hkv.applyPc
  rw [hidle] at hrec
  obtain rfl : received = kv.lastApplied := hrec
  have hpos : kv.position = kv.lastApplied := by rw [position, hidle]
  rcases hcases with rfl | rfl
  · exact hkv.move rfl hpos.symm trivial
  · exact hkv.move rfl hpos.symm ⟨rfl, op, rfl, hop⟩

theorem applyMsg (hkv : kv.Tracks log received) (hs : kv.applyMsg = some kv') :
    kv'.Tracks log received := by
  obtain ⟨msg, hlocked, hcases⟩ := applyMsg_cases hs
  have hpc := hkv.applyPc
  rw [hlocked] at hpc
  obtain ⟨hrec, op, rfl, hop⟩ := hpc
  have hpos : kv.position = kv.lastApplied := by rw [position, hlocked]
  have hreplica := hkv.replica
  rw [hpos] at hreplica
  rcases hcases with ⟨op', index, he, hle, -⟩ | ⟨op', index, he, -, rfl⟩ | ⟨index, he, -⟩ |
    ⟨status, index, he, -⟩
  · cases he
    omega
  · cases he
    exact
      { replica := by
          rw [SnapshotStatus.replica_applyOp, hreplica, ← replay_concat,
            ← take_succ_of_getElem? hop]
          rfl
        position_le := (List.getElem?_eq_some_iff.mp hop).1
        applyPc := ⟨hrec, _, rfl, hop⟩ }
  · cases he
  · cases he

theorem lookup (hkv : kv.Tracks log received) (hs : kv.lookup = some kv') :
    kv'.Tracks log received := by
  obtain ⟨op, index, hlook, hcases⟩ := lookup_cases hs
  have hpc := hkv.applyPc
  rw [hlook] at hpc
  have hpos : kv.position = index := by rw [position, hlook]
  rcases hcases with ⟨h, -, rfl⟩ | ⟨-, rfl⟩
  · exact hkv.move rfl hpos.symm hpc
  · exact hkv.move rfl hpos.symm hpc.1

theorem send (hkv : kv.Tracks log received) (hs : kv.send = some kv') :
    kv'.Tracks log received := by
  obtain ⟨op, index, h, hd, i, hsend, -, -, rfl⟩ := send_cases hs
  have hpc := hkv.applyPc
  rw [hsend] at hpc
  have hpos : kv.position = index := by rw [position, hsend]
  exact hkv.move rfl hpos.symm hpc.1

theorem finish (hkv : kv.Tracks log received) {full : Bool} (hs : kv.finish full = some kv') :
    kv'.Tracks log received := by
  obtain ⟨index, hfin, rfl⟩ := finish_cases hs
  have hpc := hkv.applyPc
  rw [hfin] at hpc
  have hpos : kv.position = index := by rw [position, hfin]
  exact hkv.move rfl hpos.symm hpc

/-- All steps but the receipt of a message keep the relation. -/
theorem step (hkv : kv.Tracks log received) {a : Act} (ha : ∀ msg, a ≠ .recv msg)
    (hs : kv.step a = some kv') : kv'.Tracks log received := by
  cases happly : a.isApply with
  | false =>
      obtain ⟨hstatus, hlast, hpc⟩ := step_frame happly hs
      refine hkv.move hstatus ?_ ?_
      · rw [position, position, hpc, hlast]
      · rw [hpc, hlast]
        exact hkv.applyPc
  | true =>
      cases a with
      | recv msg => exact absurd rfl (ha msg)
      | applyMsg => exact hkv.applyMsg hs
      | lookup => exact hkv.lookup hs
      | send => exact hkv.send hs
      | finish full => exact hkv.finish hs
      | _ => cases happly

end Server.Tracks

/-! ## The steps of a server -/

section

variable {g : KvService} {received : ℕ} {kv kv' : Server} {h : ℕ} {hd : Handler} {op : Op}

theorem answered_wrongLeader (g : KvService) (op : Op) : Answered g op wrongLeader :=
  fun hleader => nomatch hleader

theorem ServerRel.setPc (hkv : ServerRel g received kv) (hhd : kv.handlers[h]? = some hd)
    {pc : HandlerPc} (hpc : pc.Ok g kv.position hd.op) :
    ServerRel g received (kv.setPc h hd pc) where
  toTracks := hkv.toTracks.move rfl rfl hkv.applyPc
  handlers := forall_mem_set hkv.handlers
    ⟨(hkv.handlers hd (List.mem_of_getElem? hhd)).invoked, hpc⟩

/-- A step that leaves the handlers alone and does not go back in the log. -/
theorem ServerRel.move (hkv : ServerRel g received kv) {received' : ℕ}
    (htracks : kv'.Tracks g.log received') (hhandlers : kv'.handlers = kv.handlers)
    (hpos : kv.position ≤ kv'.position) : ServerRel g received' kv' where
  toTracks := htracks
  handlers := by
    rw [hhandlers]
    exact fun hd hhd => (hkv.handlers hd hhd).mono le_rfl hpos

theorem ServerRel.handlerOk (hkv : ServerRel g received kv) (hhd : kv.handlers[h]? = some hd)
    {pc : HandlerPc} (hpc : hd.pc = pc) : pc.Ok g kv.position hd.op :=
  hpc ▸ (hkv.handlers hd (List.mem_of_getElem? hhd)).pc

theorem ServerRel.arrive (hkv : ServerRel g received kv) (hop : Invoked g op) :
    ServerRel g received (kv.arrive op) where
  toTracks := hkv.toTracks.move rfl rfl hkv.applyPc
  handlers := by
    intro hd hhd
    rcases List.mem_append.mp hhd with hhd | hhd
    · exact hkv.handlers hd hhd
    · obtain rfl := List.mem_singleton.mp hhd
      refine ⟨hop, ?_⟩
      by_cases htype : op.type = .get
      · simp only [htype, if_true]
        trivial
      · simp only [htype, if_false]
        exact htype

/-- A number in the table of a server is the number of a call in the log. -/
theorem ServerRel.logged_of_duptable (hkv : ServerRel g received kv)
    (hg : g.Inv kvSpec isRead) (hop : Invoked g op) {seq : ℕ}
    (hseq : kv.duptable op.clientId = some seq) (hle : op.sequenceId ≤ seq) :
    g.LoggedBefore op.entry.id g.log.length := by
  have hseen : (replay kvSpec (g.log.take kv.position)).seen op.clientId = some seq := by
    rw [← hkv.replica]
    exact hseq
  have htake := List.take_prefix kv.position g.log
  obtain ⟨seq', hle', hseen'⟩ := replay_seen_mono htake hseen
  have hnot : ¬ (replay kvSpec g.log).Fresh op.entry := fun hfresh =>
    Nat.not_lt.mpr (hle.trans hle') (hfresh seq' hseen')
  obtain ⟨q, e, hq, heff, hid⟩ := hg.effective_of_not_fresh hop hnot
  exact ⟨q, e, hq, heff.1, hid⟩

theorem ServerRel.check (hkv : ServerRel g received kv) (hg : g.Inv kvSpec isRead)
    (hs : kv.check h = some kv') : ServerRel g received kv' := by
  obtain ⟨hd, hhd, hpc, -, ⟨seq, hseq, hle, rfl⟩ | rfl⟩ := Server.check_cases hs
  · have htype : hd.op.type ≠ .get := hkv.handlerOk hhd hpc
    refine hkv.setPc hhd fun _ => ?_
    rw [if_neg htype]
    exact hkv.logged_of_duptable hg (hkv.handlers hd (List.mem_of_getElem? hhd)).invoked hseq hle
  · exact hkv.setPc hhd trivial

theorem ServerRel.start (hkv : ServerRel g received kv) {index : Option ℕ}
    (hs : kv.start h index = some kv') : ServerRel g received kv' := by
  obtain ⟨hd, hhd, -, ⟨-, rfl⟩ | ⟨i, -, rfl⟩⟩ := Server.start_cases hs
  · exact hkv.setPc hhd (answered_wrongLeader g hd.op)
  · exact hkv.setPc hhd trivial

/-- `Get` reads a state of the log behind its own request. -/
theorem ServerRel.read (hkv : ServerRel g received kv) (hs : kv.read h = some kv') :
    ServerRel g received kv' := by
  obtain ⟨hd, index, hhd, hpc, -, rfl⟩ := Server.read_cases hs
  obtain ⟨htype, hlogged⟩ : hd.op.type = .get ∧ g.LoggedBefore hd.op.entry.id kv.position :=
    hkv.handlerOk hhd hpc
  refine hkv.setPc hhd fun _ => ?_
  rw [if_pos htype]
  refine ⟨kv.position, hkv.position_le, hlogged, ?_⟩
  rw [getReply_value _ htype, hkv.replica]

theorem ServerRel.clean (hkv : ServerRel g received kv) (hs : kv.clean h = some kv') :
    ServerRel g received kv' := by
  obtain ⟨hd, index, reply, hhd, hpc, -, rfl⟩ := Server.clean_cases hs
  have hanswered : Answered g hd.op reply := hkv.handlerOk hhd hpc
  have hkv' : ServerRel g received
      { kv with wakeClient := Function.update kv.wakeClient index none } :=
    hkv.move (hkv.toTracks.move rfl rfl hkv.applyPc) rfl le_rfl
  exact hkv'.setPc hhd hanswered

theorem ServerRel.register (hkv : ServerRel g received kv) (hs : kv.register h = some kv') :
    ServerRel g received kv' := by
  obtain ⟨hd, index, hhd, -, -, rfl⟩ := Server.register_cases hs
  have hkv' : ServerRel g received
      { kv with wakeClient := Function.update kv.wakeClient index (some h) } :=
    hkv.move (hkv.toTracks.move rfl rfl hkv.applyPc) rfl le_rfl
  exact hkv'.setPc hhd trivial

theorem ServerRel.recv (hkv : ServerRel g received kv) (hop : g.log[received]? = some op.entry)
    (hs : kv.recv (.command op (received + 1)) = some kv') : ServerRel g (received + 1) kv' := by
  have htracks := hkv.toTracks.recv hop hs
  obtain ⟨hidle, rfl | rfl⟩ := Server.recv_cases hs
  · refine hkv.move htracks rfl ?_
    simp [Server.position, hidle]
  · refine hkv.move htracks rfl ?_
    simp [Server.position, hidle]

theorem ServerRel.applyMsg (hkv : ServerRel g received kv) (hs : kv.applyMsg = some kv') :
    ServerRel g received kv' := by
  have htracks := hkv.toTracks.applyMsg hs
  obtain ⟨msg, hlocked, hcases⟩ := Server.applyMsg_cases hs
  have hpc := hkv.applyPc
  rw [hlocked] at hpc
  obtain ⟨-, op, rfl, -⟩ := hpc
  rcases hcases with ⟨op', index, he, hle, -⟩ | ⟨op', index, he, -, rfl⟩ | ⟨index, he, -⟩ |
    ⟨status, index, he, -⟩
  · cases he
    omega
  · cases he
    refine hkv.move htracks rfl ?_
    simp [Server.position, hlocked]
  · cases he
  · cases he

theorem ServerRel.lookup (hkv : ServerRel g received kv) (hs : kv.lookup = some kv') :
    ServerRel g received kv' := by
  have htracks := hkv.toTracks.lookup hs
  obtain ⟨op, index, hlook, ⟨h, -, rfl⟩ | ⟨-, rfl⟩⟩ := Server.lookup_cases hs
  · refine hkv.move htracks rfl ?_
    simp [Server.position, hlook]
  · refine hkv.move htracks rfl ?_
    simp [Server.position, hlook]

/-- A handler that is woken by its own request finds it in the log. -/
theorem ServerRel.send (hkv : ServerRel g received kv) (hs : kv.send = some kv') :
    ServerRel g received kv' := by
  obtain ⟨op, index, h, hd, i, hsend, hhd, -, rfl⟩ := Server.send_cases hs
  have hpc := hkv.applyPc
  rw [hsend] at hpc
  obtain ⟨hrec, q, rfl, hop⟩ := hpc
  have hpos : kv.position = q + 1 := by rw [Server.position, hsend]
  have hkv' : ServerRel g received { kv with applyPc := .finishing (q + 1) } :=
    hkv.move (hkv.toTracks.move rfl hpos.symm hrec) rfl hpos.le
  refine hkv'.setPc hhd ?_
  unfold Server.wake
  split
  · rename_i hmatch
    have hid : op.entry.id = hd.op.entry.id := Prod.ext hmatch.1 hmatch.2
    split
    · rename_i htype
      exact ⟨htype, q, op.entry, Nat.lt_succ_self q, hop, hid⟩
    · rename_i htype
      intro _
      rw [if_neg htype]
      exact ⟨q, op.entry, (List.getElem?_eq_some_iff.mp hop).1, hop, hid⟩
  · exact answered_wrongLeader g hd.op

theorem ServerRel.finish (hkv : ServerRel g received kv) {full : Bool}
    (hs : kv.finish full = some kv') : ServerRel g received kv' := by
  have htracks := hkv.toTracks.finish hs
  obtain ⟨index, hfin, rfl⟩ := Server.finish_cases hs
  refine hkv.move htracks rfl ?_
  simp [Server.position, hfin]

/-- The steps that a server takes on its own keep the relation. -/
theorem ServerRel.step (hkv : ServerRel g received kv) (hg : g.Inv kvSpec isRead)
    {a : Server.Act} (hown : System.isOwn a = true) (hs : kv.step a = some kv') :
    ServerRel g received kv' := by
  cases a with
  | arrive op => cases hown
  | check h => exact hkv.check hg hs
  | start h index => cases hown
  | register h => exact hkv.register hs
  | timeout h =>
      obtain ⟨hd, index, hhd, -, rfl⟩ := Server.timeout_cases hs
      exact hkv.setPc hhd (answered_wrongLeader g hd.op)
  | read h => exact hkv.read hs
  | clean h => exact hkv.clean hs
  | recv msg => cases hown
  | applyMsg => exact hkv.applyMsg hs
  | lookup => exact hkv.lookup hs
  | send => exact hkv.send hs
  | finish full => exact hkv.finish hs
  | kill =>
      obtain rfl := Option.some.inj hs
      exact hkv.move (hkv.toTracks.move rfl rfl hkv.applyPc) rfl le_rfl

end

/-! ## The servers of a system -/

namespace System

variable {n m : ℕ} {s s' : System n m}

/-- The tables of all servers are those of the log, each up to its position. -/
def Tracks (s : System n m) : Prop :=
  ∀ i, (s.servers i).Tracks (s.log.map Op.entry) (s.received i)

theorem tracks_init (n : ℕ) (ids : Fin m → ℕ) : (init n ids).Tracks :=
  fun _ => ⟨rfl, le_rfl, rfl⟩

theorem Tracks.setServer (h : s.Tracks) {i : Fin n} {kv : Server} {received : ℕ}
    (hkv : kv.Tracks (s.log.map Op.entry) received) :
    Tracks (System.setServer
      { s with received := Function.update s.received i received } i kv) := by
  intro j
  by_cases hj : j = i
  · subst hj
    rw [setServer_self]
    change kv.Tracks _ (Function.update s.received j received j)
    rw [Function.update_self]
    exact hkv
  · rw [setServer_of_ne _ hj]
    change (s.servers j).Tracks _ (Function.update s.received i received j)
    rw [Function.update_of_ne hj]
    exact h j

theorem Tracks.setServer_of_received (h : s.Tracks) {i : Fin n} {kv : Server}
    (hkv : kv.Tracks (s.log.map Op.entry) (s.received i)) : (s.setServer i kv).Tracks := by
  have h' := h.setServer (i := i) hkv
  rwa [Function.update_eq_self] at h'

theorem Tracks.step (h : s.Tracks) {a : Act n m} (hs : s.step a = some s') : s'.Tracks := by
  cases a with
  | invoke c input =>
      obtain ⟨-, rfl⟩ := invoke_cases hs
      exact h
  | call c =>
      obtain ⟨cl, hlt, -, rfl⟩ := call_cases hs
      exact h
  | fail c =>
      obtain ⟨cl, -, rfl⟩ := fail_cases hs
      exact h
  | ret c =>
      obtain ⟨cl, k, r, j, hd, reply, -, -, -, -, -, -, ⟨-, rfl⟩ | rfl⟩ := ret_cases hs
      · exact h
      · exact h
  | deliver k =>
      obtain ⟨r, -, rfl⟩ := deliver_cases hs
      have harrive : (s.servers r.server).step (.arrive r.op) =
          some ((s.servers r.server).arrive r.op) := rfl
      exact h.setServer_of_received
        ((h r.server).step (fun _ => Server.Act.noConfusion) harrive)
  | start i j index =>
      obtain ⟨hd, kv, started, -, hkv, -, rfl⟩ := start_cases hs
      have hstart : (s.servers i).step (.start j index) = some kv := hkv
      exact h.setServer_of_received ((h i).step (fun _ => Server.Act.noConfusion) hstart)
  | commit k =>
      obtain ⟨op, -, rfl⟩ := commit_cases hs
      intro i
      refine (h i).mono ?_
      rw [List.map_append]
      exact List.prefix_append _ _
  | recv i =>
      obtain ⟨op, kv, hop, hkv, rfl⟩ := recv_cases hs
      have hentry : (s.log.map Op.entry)[s.received i]? = some op.entry := by
        rw [List.getElem?_map, hop]
        rfl
      exact h.setServer ((h i).recv hentry hkv)
  | own i a =>
      obtain ⟨kv, hown, hkv, rfl⟩ := own_cases hs
      refine h.setServer_of_received ((h i).step ?_ hkv)
      rintro msg rfl
      cases hown

end System

end KvRaft

end DistributedLabs
