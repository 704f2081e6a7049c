import DistributedLabs.Raft.Spec
import DistributedLabs.Raft.Peer
import DistributedLabs.Logic.Run
import DistributedLabs.Logic.Lists

/-!
# The order of delivery

Two kinds of goroutine send on `applyCh`: `applierEvent`, and the goroutines that
`InstallSnapshot` spawns. `lastApplied` jumps to the index of a snapshot before
the snapshot is sent, so a command or a newer snapshot can overtake it. If no
message is sent while an older snapshot is still waiting, the messages arrive in
order and without gaps.
-/

namespace DistributedLabs

namespace Raft

variable {n : ℕ} {Cmd : Type*}

/-- `msg` may be delivered right after index `i`. -/
def ApplyMsg.Follows (i : ℕ) : ApplyMsg Cmd → Prop
  | .command _ commandIndex => commandIndex = i + 1
  | .snapshot _ _ snapshotIndex => i < snapshotIndex

/-- Messages delivered one after the other, the first one after index `i`. -/
def InOrder : ℕ → List (ApplyMsg Cmd) → Prop
  | _, [] => True
  | i, msg :: msgs => msg.Follows i ∧ InOrder msg.index msgs

/-- The index of the last message, or `i` if there is none. -/
def lastIndex : ℕ → List (ApplyMsg Cmd) → ℕ
  | i, [] => i
  | _, msg :: msgs => lastIndex msg.index msgs

instance (i : ℕ) (msg : ApplyMsg Cmd) : Decidable (msg.Follows i) :=
  match msg with
  | .command _ k => inferInstanceAs (Decidable (k = i + 1))
  | .snapshot _ _ k => inferInstanceAs (Decidable (i < k))

/-- Decide `InOrder` message by message. -/
def decidableInOrder : ∀ (i : ℕ) (msgs : List (ApplyMsg Cmd)), Decidable (InOrder i msgs)
  | _, [] => .isTrue trivial
  | i, msg :: msgs =>
    have := decidableInOrder msg.index msgs
    inferInstanceAs (Decidable (msg.Follows i ∧ InOrder msg.index msgs))

instance (i : ℕ) (msgs : List (ApplyMsg Cmd)) : Decidable (InOrder i msgs) :=
  decidableInOrder i msgs

@[simp] theorem lastIndex_append (i : ℕ) (msgs : List (ApplyMsg Cmd)) (msg : ApplyMsg Cmd) :
    lastIndex i (msgs ++ [msg]) = msg.index := by
  induction msgs generalizing i with
  | nil => rfl
  | cons m msgs ih => exact ih m.index

theorem InOrder.append {i : ℕ} {msgs : List (ApplyMsg Cmd)} {msg : ApplyMsg Cmd}
    (h : InOrder i msgs) (hmsg : msg.Follows (lastIndex i msgs)) :
    InOrder i (msgs ++ [msg]) := by
  induction msgs generalizing i with
  | nil => exact ⟨hmsg, trivial⟩
  | cons m msgs ih => exact ⟨h.1, ih h.2 hmsg⟩

/-! ## What is delivered and what is on its way -/

/-- The snapshot of index `i` waits to be delivered. -/
def Pending (senders : List (Sender Cmd)) (i : ℕ) : Prop :=
  ∃ s ∈ senders, s.msg.index = i

/-- The last message delivered has index `i`, or the snapshot of index `i` waits. -/
def Reached (last : ℕ) (senders : List (Sender Cmd)) (i : ℕ) : Prop :=
  last = i ∨ Pending senders i

/-- What `applierEvent` knows at each of its steps. `applied` runs ahead of the
last message delivered by the snapshots that wait, and behind it from the moment
a command is sent until `lastApplied` is updated. -/
def Stage (last applied : ℕ) (flag : Bool) (senders : List (Sender Cmd)) : Applier Cmd → Prop
  | .waiting | .looping _ => flag = false ∧ Reached last senders applied
  | .flagged msg _ => flag = true ∧
      (∃ k, msg.index = k + 1 ∧ Reached last senders k ∧
        (applied = k ∨ k < applied ∧ Pending senders applied)) ∧
      ∀ s ∈ senders, s.msg.index ≠ msg.index ∧ (s.ready = true → s.msg.index < msg.index)
  | .sent msg _ => flag = true ∧ Reached last senders (max msg.index applied) ∧
      ∀ s ∈ senders, s.ready = false
  | .cleared msg _ => flag = false ∧ Reached last senders (max msg.index applied)

theorem Reached.append {last i : ℕ} {senders : List (Sender Cmd)} (h : Reached last senders i)
    (s : Sender Cmd) : Reached last (senders ++ [s]) i := by
  rcases h with h | ⟨s', hs', hi⟩
  · exact Or.inl h
  · exact Or.inr ⟨s', List.mem_append_left _ hs', hi⟩

theorem reached_concat (last : ℕ) (senders : List (Sender Cmd)) (s : Sender Cmd) :
    Reached last (senders ++ [s]) s.msg.index :=
  Or.inr ⟨s, by simp, rfl⟩

/-- `lastApplied` jumps to the index of a snapshot that begins to wait. -/
theorem Stage.install {last applied : ℕ} {flag : Bool} {senders : List (Sender Cmd)}
    {applier : Applier Cmd} (h : Stage last applied flag senders applier) {s : Sender Cmd}
    (hready : s.ready = false) (hmsgs : ∀ msg ∈ applier.msgs, msg.index < s.msg.index) :
    Stage last s.msg.index flag (senders ++ [s]) applier := by
  cases applier with
  | waiting => exact ⟨h.1, reached_concat last senders s⟩
  | looping msgs => exact ⟨h.1, reached_concat last senders s⟩
  | flagged msg msgs =>
      obtain ⟨hflag, ⟨k, hk, hreached, -⟩, hsenders⟩ := h
      have hlt : msg.index < s.msg.index := hmsgs msg List.mem_cons_self
      refine ⟨hflag, ⟨k, hk, hreached.append s, Or.inr ⟨by omega, s, by simp, rfl⟩⟩, ?_⟩
      intro s' hs'
      rcases List.mem_append.mp hs' with hs' | hs'
      · exact hsenders s' hs'
      · obtain rfl := List.mem_singleton.mp hs'
        exact ⟨hlt.ne', fun hr => absurd (hready.symm.trans hr) Bool.false_ne_true⟩
  | sent msg msgs =>
      obtain ⟨hflag, -, hsenders⟩ := h
      have hlt : msg.index < s.msg.index := hmsgs msg List.mem_cons_self
      refine ⟨hflag, ?_, ?_⟩
      · rw [max_eq_right hlt.le]
        exact reached_concat last senders s
      · intro s' hs'
        rcases List.mem_append.mp hs' with hs' | hs'
        · exact hsenders s' hs'
        · exact List.mem_singleton.mp hs' ▸ hready
  | cleared msg msgs =>
      have hlt : msg.index < s.msg.index := hmsgs msg List.mem_cons_self
      refine ⟨h.1, ?_⟩
      rw [max_eq_right hlt.le]
      exact reached_concat last senders s

theorem Reached.mono {last i : ℕ} {senders senders' : List (Sender Cmd)}
    (h : Reached last senders i) (hsenders : ∀ i, Pending senders i → Pending senders' i) :
    Reached last senders' i :=
  h.imp_right (hsenders i)

/-- A goroutine that finds the flag down gets ready. -/
theorem Stage.poll {last applied : ℕ} {flag : Bool} {senders : List (Sender Cmd)}
    {applier : Applier Cmd} (h : Stage last applied flag senders applier) (hflag : flag = false)
    {k : ℕ} {s : Sender Cmd} (hk : senders[k]? = some s) :
    Stage last applied flag (senders.set k { s with ready := true }) applier := by
  have hpending : ∀ i, Pending senders i → Pending (senders.set k { s with ready := true }) i :=
    fun i => exists_mem_set hk id
  cases applier with
  | waiting => exact ⟨h.1, h.2.mono hpending⟩
  | looping msgs => exact ⟨h.1, h.2.mono hpending⟩
  | flagged msg msgs => exact absurd (hflag.symm.trans h.1) Bool.false_ne_true
  | sent msg msgs => exact absurd (hflag.symm.trans h.1) Bool.false_ne_true
  | cleared msg msgs => exact ⟨h.1, h.2.mono hpending⟩

/-- Of the snapshots that wait, all but the one that is sent go on waiting. -/
theorem Pending.send {senders : List (Sender Cmd)} {k : ℕ} {s : Sender Cmd}
    (hk : senders[k]? = some s) {i : ℕ} (h : Pending senders i) :
    Reached s.msg.index (senders.eraseIdx k) i := by
  obtain ⟨s', hs', hi⟩ := h
  obtain ⟨j, hj⟩ := List.getElem?_of_mem hs'
  by_cases hjk : j = k
  · subst hjk
    obtain rfl : s = s' := Option.some.inj (hk.symm.trans hj)
    exact Or.inl hi
  · exact Or.inr ⟨s', List.mem_eraseIdx_iff_getElem?.mpr ⟨j, hjk, hj⟩, hi⟩

theorem Reached.send {last i : ℕ} {senders : List (Sender Cmd)} {k : ℕ} {s : Sender Cmd}
    (hk : senders[k]? = some s) (hlast : last < s.msg.index) (hi : s.msg.index ≤ i)
    (h : Reached last senders i) : Reached s.msg.index (senders.eraseIdx k) i := by
  rcases h with h | h
  · omega
  · exact h.send hk

/-- A snapshot is sent. -/
theorem Stage.send {last applied : ℕ} {flag : Bool} {senders : List (Sender Cmd)}
    {applier : Applier Cmd} (h : Stage last applied flag senders applier) {k : ℕ}
    {s : Sender Cmd} (hk : senders[k]? = some s) (hready : s.ready = true)
    (hlast : last < s.msg.index) (happlied : s.msg.index ≤ applied) :
    Stage s.msg.index applied flag (senders.eraseIdx k) applier := by
  have hmem : s ∈ senders := List.mem_of_getElem? hk
  cases applier with
  | waiting => exact ⟨h.1, h.2.send hk hlast happlied⟩
  | looping msgs => exact ⟨h.1, h.2.send hk hlast happlied⟩
  | flagged msg msgs =>
      obtain ⟨hflag, ⟨i, hi, hreached, hahead⟩, hsenders⟩ := h
      have hlt := (hsenders s hmem).2 hready
      refine ⟨hflag, ⟨i, hi, hreached.send hk hlast (by omega), ?_⟩, ?_⟩
      · rcases hahead with hahead | ⟨hlt', hpending⟩
        · exact Or.inl hahead
        · rcases hpending.send hk with he | hpending
          · omega
          · exact Or.inr ⟨hlt', hpending⟩
      · exact fun s' hs' => hsenders s' (List.mem_of_mem_eraseIdx hs')
  | sent msg msgs => exact absurd ((h.2.2 s hmem).symm.trans hready) Bool.false_ne_true
  | cleared msg msgs =>
      exact ⟨h.1, h.2.send hk hlast (happlied.trans (le_max_right _ _))⟩

/-- If `applierEvent` is about to send, no snapshot that waits is older. -/
def Applier.oldest (senders : List (Sender Cmd)) : Applier Cmd → Prop
  | .flagged msg _ => ∀ s ∈ senders, msg.index ≤ s.msg.index
  | _ => True

instance (senders : List (Sender Cmd)) (applier : Applier Cmd) :
    Decidable (applier.oldest senders) :=
  match applier with
  | .flagged msg _ => inferInstanceAs (Decidable (∀ s ∈ senders, msg.index ≤ s.msg.index))
  | .waiting | .looping _ | .sent _ _ | .cleared _ _ => .isTrue trivial

namespace Peer

/-- The invariant of delivery after a start at index `start`. -/
structure DeliveryInv (start : ℕ) (p : Peer n Cmd) : Prop where
  inOrder : InOrder start p.delivered
  applied_le : p.rf.lastApplied ≤ p.rf.commitIndex
  last_le : lastIndex start p.delivered ≤ p.rf.commitIndex
  snapshots : ∀ s ∈ p.senders, ∃ data t i, s.msg = .snapshot data t i
  waiting : ∀ s ∈ p.senders,
    lastIndex start p.delivered < s.msg.index ∧ s.msg.index ≤ p.rf.lastApplied
  increasing : (p.senders.map fun s => s.msg.index).Pairwise (· < ·)
  commands : ∀ msg ∈ p.applier.msgs, ∃ command i, msg = .command command i ∧
    i ≤ p.rf.commitIndex
  stage : Stage (lastIndex start p.delivered) p.rf.lastApplied p.rf.replicatePreSnapshot
    p.senders p.applier

theorem deliveryInv_make (me : Fin n) (persister : Persister Cmd) :
    DeliveryInv (make me persister).rf.lastIncludedIndex (make me persister) := by
  have h : (make me persister).rf.lastApplied = (make me persister).rf.lastIncludedIndex ∧
      (make me persister).rf.commitIndex = (make me persister).rf.lastIncludedIndex ∧
      (make me persister).rf.replicatePreSnapshot = false := by
    cases hps : persister.raftstate with
    | none => simp [make, Raft.make, readPersist, hps]
    | some status => simp [make, Raft.make, readPersist, hps]
  obtain ⟨happlied, hcommit, hflag⟩ := h
  exact
    { inOrder := trivial
      applied_le := by rw [happlied, hcommit]
      last_le := by
        rw [hcommit]
        exact le_rfl
      snapshots := by rintro s (_ | _)
      waiting := by rintro s (_ | _)
      increasing := List.Pairwise.nil
      commands := by rintro msg (_ | _)
      stage := ⟨hflag, Or.inl happlied.symm⟩ }

/-- A step under the lock that leaves the applier's fields alone. -/
theorem DeliveryInv.setRf {start : ℕ} {p : Peer n Cmd} (h : DeliveryInv start p)
    {rf : Raft n Cmd} (happlied : rf.lastApplied = p.rf.lastApplied)
    (hflag : rf.replicatePreSnapshot = p.rf.replicatePreSnapshot)
    (hcommit : p.rf.commitIndex ≤ rf.commitIndex) : DeliveryInv start (p.setRf rf) :=
  { inOrder := h.inOrder
    applied_le := by
      change rf.lastApplied ≤ rf.commitIndex
      rw [happlied]
      exact h.applied_le.trans hcommit
    last_le := h.last_le.trans hcommit
    snapshots := h.snapshots
    waiting := by
      intro s hs
      change _ ∧ s.msg.index ≤ rf.lastApplied
      rw [happlied]
      exact h.waiting s hs
    increasing := h.increasing
    commands := by
      intro msg hmsg
      obtain ⟨command, i, he, hi⟩ := h.commands msg hmsg
      exact ⟨command, i, he, hi.trans hcommit⟩
    stage := by
      change Stage _ rf.lastApplied rf.replicatePreSnapshot p.senders p.applier
      rw [happlied, hflag]
      exact h.stage }

/-- A message that `applierEvent` holds has a committed index. -/
theorem DeliveryInv.index_le {start : ℕ} {p : Peer n Cmd} (h : DeliveryInv start p)
    {msg : ApplyMsg Cmd} (hmsg : msg ∈ p.applier.msgs) : msg.index ≤ p.rf.commitIndex := by
  obtain ⟨command, i, rfl, hi⟩ := h.commands msg hmsg
  exact hi

/-- An accepted snapshot begins to wait, above everything delivered so far. -/
theorem DeliveryInv.accepted {start : ℕ} {p p' : Peer n Cmd} (h : DeliveryInv start p)
    {s : Sender Cmd} (hs : ∃ data t i, s.msg = .snapshot data t i) (hready : s.ready = false)
    (hcommit : p.rf.commitIndex < s.msg.index) (happlied : p'.rf.lastApplied = s.msg.index)
    (hcom : p'.rf.commitIndex = s.msg.index)
    (hflag : p'.rf.replicatePreSnapshot = p.rf.replicatePreSnapshot)
    (hsenders : p'.senders = p.senders ++ [s]) (hdelivered : p'.delivered = p.delivered)
    (happ : p'.applier = p.applier) : DeliveryInv start p' := by
  have hbelow : ∀ s' ∈ p.senders, s'.msg.index < s.msg.index := fun s' hs' =>
    ((h.waiting s' hs').2.trans h.applied_le).trans_lt hcommit
  exact
    { inOrder := hdelivered ▸ h.inOrder
      applied_le := by rw [happlied, hcom]
      last_le := by
        rw [hdelivered, hcom]
        exact h.last_le.trans hcommit.le
      snapshots := by
        rw [hsenders]
        intro s' hs'
        rcases List.mem_append.mp hs' with hs' | hs'
        · exact h.snapshots s' hs'
        · exact List.mem_singleton.mp hs' ▸ hs
      waiting := by
        rw [hsenders, hdelivered, happlied]
        intro s' hs'
        rcases List.mem_append.mp hs' with hs' | hs'
        · exact ⟨(h.waiting s' hs').1, (hbelow s' hs').le⟩
        · rw [List.mem_singleton.mp hs']
          exact ⟨h.last_le.trans_lt hcommit, le_rfl⟩
      increasing := by
        rw [hsenders, List.map_append, List.pairwise_append]
        refine ⟨h.increasing, List.pairwise_singleton _ _, ?_⟩
        intro i hi j hj
        obtain ⟨s', hs', rfl⟩ := List.mem_map.mp hi
        rw [List.mem_singleton.mp hj]
        exact hbelow s' hs'
      commands := by
        rw [happ, hcom]
        intro msg hmsg
        obtain ⟨command, i, rfl, hi⟩ := h.commands msg hmsg
        exact ⟨command, i, rfl, hi.trans hcommit.le⟩
      stage := by
        rw [hdelivered, happlied, hflag, hsenders, happ]
        exact h.stage.install hready fun msg hmsg => (h.index_le hmsg).trans_lt hcommit }

theorem DeliveryInv.installSnapshot {start : ℕ} {p : Peer n Cmd} (h : DeliveryInv start p)
    (args : InstallSnapshotArgs n) : DeliveryInv start (p.installSnapshot args).1 := by
  rcases Peer.installSnapshot_outcome p args with hp | hp | ⟨-, hcommit, hp⟩
  · rw [hp]
    exact h.setRf rfl rfl le_rfl
  · rw [hp]
    obtain ⟨_, _, he⟩ := adoptTerm_frame p.rf args.term
    rw [he]
    exact h.setRf rfl rfl le_rfl
  · have hflag : (p.rf.adoptTerm args.term).replicatePreSnapshot = p.rf.replicatePreSnapshot := by
      obtain ⟨_, _, he⟩ := adoptTerm_frame p.rf args.term
      rw [he]
    rw [hp]
    exact h.accepted ⟨_, _, _, rfl⟩ rfl (by exact hcommit) rfl rfl hflag rfl rfl rfl

/-! ## The goroutines that deliver a snapshot -/

theorem DeliveryInv.poll {start : ℕ} {p p' : Peer n Cmd} (h : DeliveryInv start p) {k : ℕ}
    (hs : p.pollStep k = some p') : DeliveryInv start p' := by
  obtain ⟨sender, hk, hflag, rfl⟩ := pollStep_eq_some.mp hs
  have hold : ∀ s ∈ p.senders.set k { sender with ready := true }, ∃ s' ∈ p.senders,
      s.msg = s'.msg := by
    intro s hs
    exact exists_rel_of_mem_set (R := fun s' s => s.msg = s'.msg) (fun _ => rfl) hk rfl hs
  exact
    { h with
      snapshots := by
        intro s hs
        obtain ⟨s', hs', he⟩ := hold s hs
        rw [he]
        exact h.snapshots s' hs'
      waiting := by
        intro s hs
        obtain ⟨s', hs', he⟩ := hold s hs
        rw [he]
        exact h.waiting s' hs'
      increasing := by
        have hsame : (p.senders.set k { sender with ready := true }).map (·.msg.index) =
            p.senders.map (·.msg.index) := map_set_of_eq hk rfl
        change ((p.senders.set k _).map _).Pairwise _
        rw [hsame]
        exact h.increasing
      stage := h.stage.poll hflag hk }

/-- Two snapshots that wait have different indices. -/
theorem DeliveryInv.index_ne {start : ℕ} {p : Peer n Cmd} (h : DeliveryInv start p) {j k : ℕ}
    {s s' : Sender Cmd} (hj : p.senders[j]? = some s) (hk : p.senders[k]? = some s')
    (hjk : j ≠ k) : s.msg.index ≠ s'.msg.index := by
  have hnodup : (p.senders.map fun s => s.msg.index).Nodup :=
    h.increasing.imp fun hlt => hlt.ne
  intro he
  refine hjk ((List.getElem?_inj ?_ hnodup).mp ?_)
  · rw [List.length_map]
    exact (List.getElem?_eq_some_iff.mp hj).1
  · rw [List.getElem?_map, List.getElem?_map, hj, hk]
    exact congrArg some he

theorem DeliveryInv.send {start : ℕ} {p p' : Peer n Cmd} (h : DeliveryInv start p) {k : ℕ}
    (hfirst : ∀ s ∈ p.senders[k]?, ∀ s' ∈ p.senders, s.msg.index ≤ s'.msg.index)
    (hs : p.sendStep k = some p') : DeliveryInv start p' := by
  obtain ⟨s, hk, hready, rfl⟩ := sendStep_eq_some.mp hs
  have hmem : s ∈ p.senders := List.mem_of_getElem? hk
  have hwait := h.waiting s hmem
  have hlast : lastIndex start (p.delivered ++ [s.msg]) = s.msg.index := lastIndex_append _ _ _
  have hkeep : ∀ s' ∈ p.senders.eraseIdx k, s' ∈ p.senders ∧ s.msg.index < s'.msg.index := by
    intro s' hs'
    obtain ⟨j, hjk, hj⟩ := List.mem_eraseIdx_iff_getElem?.mp hs'
    have hmem' : s' ∈ p.senders := List.mem_of_getElem? hj
    exact ⟨hmem', (hfirst s hk s' hmem').lt_of_ne (h.index_ne hj hk hjk).symm⟩
  exact
    { inOrder := by
        refine h.inOrder.append ?_
        obtain ⟨data, t, i, he⟩ := h.snapshots s hmem
        have hlt := hwait.1
        rw [he] at hlt ⊢
        exact hlt
      applied_le := h.applied_le
      last_le := by
        change lastIndex start (p.delivered ++ [s.msg]) ≤ _
        rw [hlast]
        exact hwait.2.trans h.applied_le
      snapshots := fun s' hs' => h.snapshots s' (hkeep s' hs').1
      waiting := by
        intro s' hs'
        change lastIndex start (p.delivered ++ [s.msg]) < _ ∧ _
        rw [hlast]
        exact ⟨(hkeep s' hs').2, (h.waiting s' (hkeep s' hs').1).2⟩
      increasing := h.increasing.sublist ((List.eraseIdx_sublist _ _).map _)
      commands := h.commands
      stage := by
        change Stage (lastIndex start (p.delivered ++ [s.msg])) _ _ _ _
        rw [hlast]
        exact h.stage.send hk hready hwait.1 hwait.2 }

/-! ## The steps of `applierEvent` -/

theorem batch_commands {rf : Raft n Cmd} {msgs : List (ApplyMsg Cmd)} (h : batch rf = some msgs)
    {msg : ApplyMsg Cmd} (hmsg : msg ∈ msgs) :
    ∃ command i, msg = .command command i ∧ i ≤ rf.commitIndex := by
  obtain ⟨i, hi, hentry⟩ := exists_of_mem_mapM h hmsg
  obtain ⟨entry, -, rfl⟩ := Option.map_eq_some_iff.mp hentry
  rw [List.mem_range'_1] at hi
  exact ⟨entry.cmd, i, rfl, by omega⟩

/-- A command is sent while no older snapshot waits. -/
theorem DeliveryInv.sendCommand {start : ℕ} {p : Peer n Cmd} (h : DeliveryInv start p)
    {msg : ApplyMsg Cmd} {msgs : List (ApplyMsg Cmd)} (happ : p.applier = .flagged msg msgs)
    (hfirst : ∀ s ∈ p.senders, msg.index ≤ s.msg.index) :
    DeliveryInv start { p with delivered := p.delivered ++ [msg], applier := .sent msg msgs } := by
  have hstage := h.stage
  have hcommands := h.commands
  rw [happ] at hstage hcommands
  obtain ⟨hflag, ⟨k, hk, hreached, hahead⟩, hsenders⟩ := hstage
  have hlast : lastIndex start p.delivered = k := by
    rcases hreached with hreached | ⟨s, hs, he⟩
    · exact hreached
    · have := hfirst s hs
      omega
  have hnew : lastIndex start (p.delivered ++ [msg]) = msg.index := lastIndex_append _ _ _
  obtain ⟨command, i, rfl, hi⟩ := hcommands msg List.mem_cons_self
  exact
    { inOrder := h.inOrder.append (by
        rw [hlast]
        exact hk)
      applied_le := h.applied_le
      last_le := by
        change lastIndex start (p.delivered ++ [_]) ≤ _
        rw [hnew]
        exact hi
      snapshots := h.snapshots
      waiting := by
        intro s hs
        change lastIndex start (p.delivered ++ [_]) < _ ∧ _
        rw [hnew]
        exact ⟨(hfirst s hs).lt_of_ne (hsenders s hs).1.symm, (h.waiting s hs).2⟩
      increasing := h.increasing
      commands := hcommands
      stage := by
        change Stage (lastIndex start (p.delivered ++ [_])) p.rf.lastApplied
          p.rf.replicatePreSnapshot p.senders _
        rw [hnew]
        refine ⟨hflag, ?_, ?_⟩
        · rcases hahead with hahead | ⟨hlt, hpending⟩
          · rw [max_eq_left (by omega)]
            exact Or.inl rfl
          · rw [max_eq_right (by omega)]
            exact Or.inr hpending
        · intro s hs
          by_contra hready
          have := (hsenders s hs).2 (Bool.not_eq_false _ ▸ hready)
          have := hfirst s hs
          omega }

/-- The steps of `applierEvent` other than a send keep what is delivered and what
waits. -/
theorem DeliveryInv.moveApplier {start : ℕ} {p p' : Peer n Cmd} (h : DeliveryInv start p)
    (hdelivered : p'.delivered = p.delivered) (hsenders : p'.senders = p.senders)
    (hcommit : p'.rf.commitIndex = p.rf.commitIndex)
    (happlied : p.rf.lastApplied ≤ p'.rf.lastApplied)
    (happlied' : p'.rf.lastApplied ≤ p.rf.commitIndex)
    (hcommands : ∀ msg ∈ p'.applier.msgs, ∃ command i, msg = .command command i ∧
      i ≤ p.rf.commitIndex)
    (hstage : Stage (lastIndex start p.delivered) p'.rf.lastApplied p'.rf.replicatePreSnapshot
      p.senders p'.applier) : DeliveryInv start p' :=
  { inOrder := hdelivered ▸ h.inOrder
    applied_le := hcommit ▸ happlied'
    last_le := by
      rw [hdelivered, hcommit]
      exact h.last_le
    snapshots := hsenders ▸ h.snapshots
    waiting := by
      rw [hsenders, hdelivered]
      exact fun s hs => ⟨(h.waiting s hs).1, (h.waiting s hs).2.trans happlied⟩
    increasing := hsenders ▸ h.increasing
    commands := hcommit ▸ hcommands
    stage := by
      rw [hdelivered, hsenders]
      exact hstage }

/-- No snapshot that waits is older than the message about to be sent. -/
def oldestFirst (p : Peer n Cmd) : Act n Cmd → Prop
  | .applier => p.applier.oldest p.senders
  | .send k => ∀ s ∈ p.senders[k]?, ∀ s' ∈ p.senders, s.msg.index ≤ s'.msg.index
  | _ => True

instance (p : Peer n Cmd) (a : Act n Cmd) : Decidable (oldestFirst p a) :=
  match a with
  | .applier => inferInstanceAs (Decidable (p.applier.oldest p.senders))
  | .send k => inferInstanceAs
      (Decidable (∀ s ∈ p.senders[k]?, ∀ s' ∈ p.senders, s.msg.index ≤ s'.msg.index))
  | .ticker | .heartbeat | .start _ | .snapshot _ _ | .requestVote _ | .appendEntries _
  | .installSnapshot _ | .voteReply _ _ | .appendReply _ _ _ | .snapshotReply _ _ _
  | .poll _ => .isTrue trivial

theorem DeliveryInv.applier {start : ℕ} {p p' : Peer n Cmd} (h : DeliveryInv start p)
    (hok : oldestFirst p .applier) (hs : p.applierStep = some p') : DeliveryInv start p' := by
  have hstage := h.stage
  have hcommands := h.commands
  cases applierStep_applies hs with
  | collect msgs happ _ hbatch =>
      rw [happ] at hstage
      exact h.moveApplier rfl rfl rfl le_rfl h.applied_le
        (fun msg hmsg => batch_commands hbatch hmsg) hstage
  | wait happ =>
      rw [happ] at hstage
      exact h.moveApplier rfl rfl rfl le_rfl h.applied_le (by rintro msg (_ | _)) hstage
  | skip msg msgs happ _ =>
      rw [happ] at hstage hcommands
      exact h.moveApplier rfl rfl rfl le_rfl h.applied_le
        (fun msg hmsg => hcommands msg (List.mem_cons_of_mem _ hmsg)) hstage
  | flag msg msgs happ hnext =>
      rw [happ] at hstage hcommands
      refine h.moveApplier rfl rfl rfl le_rfl h.applied_le hcommands ?_
      refine ⟨rfl, ⟨_, hnext, hstage.2, Or.inl rfl⟩, fun s hs => ?_⟩
      have hwait := (h.waiting s hs).2
      exact ⟨by omega, fun _ => by omega⟩
  | send msg msgs happ =>
      simp only [oldestFirst, happ, Applier.oldest] at hok
      exact h.sendCommand happ hok
  | clear msg msgs happ =>
      rw [happ] at hstage hcommands
      exact h.moveApplier rfl rfl rfl le_rfl h.applied_le hcommands ⟨rfl, hstage.2.1⟩
  | advance msg msgs happ =>
      have hindex := h.index_le (happ ▸ List.mem_cons_self : msg ∈ p.applier.msgs)
      rw [happ] at hstage hcommands
      exact h.moveApplier rfl rfl rfl (le_max_right _ _) (max_le hindex h.applied_le)
        (fun msg hmsg => hcommands msg (List.mem_cons_of_mem _ hmsg)) hstage

/-! ## Runs of a peer -/

/-- `AppendEntries` does not lower the commit index. -/
def raisesCommit (p : Peer n Cmd) : Act n Cmd → Prop
  | .appendEntries args =>
    ∀ r ∈ p.rf.appendEntries args, p.rf.commitIndex ≤ r.1.commitIndex
  | _ => True

instance (p : Peer n Cmd) (a : Act n Cmd) : Decidable (raisesCommit p a) :=
  match a with
  | .appendEntries args => inferInstanceAs
      (Decidable (∀ r ∈ p.rf.appendEntries args, p.rf.commitIndex ≤ r.1.commitIndex))
  | .ticker | .heartbeat | .start _ | .snapshot _ _ | .requestVote _ | .installSnapshot _
  | .voteReply _ _ | .appendReply _ _ _ | .snapshotReply _ _ _ | .applier | .poll _
  | .send _ => .isTrue trivial

theorem handleSendAppendEntries_commitIndex_le {rf rf' : Raft n Cmd} {peer : Fin n}
    {args : AppendEntriesArgs n Cmd} {reply : AppendEntriesReply}
    (h : rf.handleSendAppendEntries peer args reply = some rf') :
    rf.commitIndex ≤ rf'.commitIndex := by
  rcases handleSendAppendEntries_cases h with
    rfl | ⟨-, -, -, rfl⟩ | ⟨-, -, -, hcommit⟩ | ⟨-, -, -, rfl⟩
  · exact le_rfl
  · exact le_rfl
  · rcases checkAndCommitLogs_cases hcommit with rfl | ⟨N, hN, -, -, -, rfl⟩
    · exact le_rfl
    · exact hN.le
  · exact le_rfl

theorem DeliveryInv.step {start : ℕ} {p p' : Peer n Cmd} {a : Act n Cmd}
    (h : DeliveryInv start p) (hok : raisesCommit p a ∧ oldestFirst p a)
    (hs : p.step a = some p') : DeliveryInv start p' := by
  cases a with
  | ticker =>
      obtain rfl := Option.some.inj hs
      exact h.setRf rfl rfl le_rfl
  | heartbeat =>
      obtain ⟨out, -, rfl⟩ := Option.map_eq_some_iff.mp hs
      exact h
  | start command =>
      obtain rfl := Option.some.inj hs
      obtain ⟨_, _, _, _, he⟩ := start_frame p.rf command
      rw [he]
      exact h.setRf rfl rfl le_rfl
  | snapshot index data =>
      obtain ⟨rf, hrf, rfl⟩ := Option.map_eq_some_iff.mp hs
      rcases snapshotUpTo_cases hrf with rfl | ⟨-, -, entry, -, rfl⟩
      · exact h
      · exact h.setRf rfl rfl le_rfl
  | requestVote args =>
      obtain rfl := Option.some.inj hs
      obtain ⟨_, _, _, _, he⟩ := requestVote_frame p.rf args
      rw [he]
      exact h.setRf rfl rfl le_rfl
  | appendEntries args =>
      obtain ⟨⟨rf, reply⟩, hr, rfl⟩ := Option.map_eq_some_iff.mp hs
      have hraise := hok.1 _ hr
      obtain ⟨_, _, _, _, _, _, rfl⟩ := appendEntries_frame hr
      exact h.setRf rfl rfl hraise
  | installSnapshot args =>
      obtain rfl := Option.some.inj hs
      exact h.installSnapshot args
  | voteReply args reply =>
      obtain ⟨⟨rf, out⟩, hr, rfl⟩ := Option.map_eq_some_iff.mp hs
      obtain ⟨_, _, _, _, _, _, _, rfl⟩ := handleVoteReply_frame hr
      exact h.setRf rfl rfl le_rfl
  | appendReply peer args reply =>
      obtain ⟨rf, hrf, rfl⟩ := Option.map_eq_some_iff.mp hs
      have hraise := handleSendAppendEntries_commitIndex_le hrf
      obtain ⟨_, _, _, _, _, _, rfl⟩ := handleSendAppendEntries_frame hrf
      exact h.setRf rfl rfl hraise
  | snapshotReply peer args reply =>
      obtain rfl := Option.some.inj hs
      obtain ⟨_, _, _, _, _, he⟩ := handleSendInstallSnapshot_frame p.rf peer args reply
      rw [he]
      exact h.setRf rfl rfl le_rfl
  | applier => exact h.applier hok.2 hs
  | poll k => exact h.poll hs
  | send k => exact h.send hok.2 hs

/-- In a run in which the commit index never falls and no message is sent while an
older snapshot waits, a peer delivers its messages in order and without gaps, from
the index it was started at. -/
theorem delivered_inOrder (me : Fin n) (persister : Persister Cmd) {acts : List (Act n Cmd)}
    {p : Peer n Cmd} (h : exec step (make me persister) acts = some p)
    (hraise : meets step raisesCommit (make me persister) acts)
    (hfirst : meets step oldestFirst (make me persister) acts) :
    InOrder (make me persister).rf.lastIncludedIndex p.delivered :=
  (exec_invariant (fun _ _ _ hp hok hs => DeliveryInv.step hp hok hs)
    (deliveryInv_make me persister) (meets_and hraise hfirst) h).inOrder

/-- A snapshot up to index 5 that the follower accepts, and then an entry that
commits index 6. -/
def snapshotThenEntry : List (Act 3 ℕ) :=
  [.installSnapshot
      { term := 1, leaderId := 0, lastIncludedIndex := 5, lastIncludedTerm := 1, data := [0] },
    .appendEntries
      { term := 1, leaderId := 0, prevLogIndex := 5, prevLogTerm := 1,
        entries := [{ term := 1, cmd := some 7 }], leaderCommit := 6 }]

/-- The goroutine of the snapshot runs before `applierEvent` does. -/
def snapshotFirst : List (Act 3 ℕ) :=
  snapshotThenEntry ++ [.poll 0, .send 0, .applier, .applier, .applier]

theorem delivered_inOrder_snapshotFirst :
    ∃ p, exec step (make 1 {}) snapshotFirst = some p ∧
      p.delivered = [.snapshot [0] 1 5, .command (some 7) 6] ∧ InOrder 0 p.delivered :=
  ⟨_, rfl, by decide, delivered_inOrder 1 {}
    (show exec step (make 1 {}) snapshotFirst = _ from rfl) (by decide) (by decide)⟩

/-- `applierEvent` runs before the goroutine of the snapshot does. -/
def entryFirst : List (Act 3 ℕ) :=
  snapshotThenEntry ++ [.applier, .applier, .applier, .applier, .poll 0, .send 0]

/-- The service gets the command of index 6 before it has seen anything, and the
snapshot of index 5 after it. -/
theorem entryFirst_not_inOrder :
    ∃ p, exec step (make 1 {}) entryFirst = some p ∧
      meets step raisesCommit (make 1 {}) entryFirst ∧
      p.delivered = [.command (some 7) 6, .snapshot [0] 1 5] ∧
      ¬ InOrder (make (1 : Fin 3) ({} : Persister ℕ)).rf.lastIncludedIndex p.delivered :=
  ⟨_, rfl, by decide, by decide, by decide⟩

end Peer

end Raft

end DistributedLabs
