import DistributedLabs.KvRaft.Server
import DistributedLabs.Logic.Lists
import DistributedLabs.Logic.Run

/-!
# The apply loop and the handlers

`apply` sends on the channel of a handler with `kv.mu` held, and a handler that
leaves its `select` by the timeout needs `kv.mu` to take its channel out of
`wakeClient`. If `apply` sends to a handler that has left its `select`, nobody
will ever receive and `kv.mu` is never released. A run keeps clear of this exactly
when `apply` only ever finds channels of handlers that are in their `select`, and
no handler times out while `apply` sends to it.
-/

namespace DistributedLabs

namespace KvRaft

namespace Server

variable {kv kv' : Server} {h : ℕ}

/-- `apply` holds `kv.mu` and sends on a channel whose handler has left its
`select`. -/
def blocked (kv : Server) : Bool :=
  match kv.applyPc with
  | .sending _ _ h => !kv.selects h
  | _ => false

/-- `apply` finds no channel but that of a handler in its `select`, and a handler
to which `apply` sends does not time out. -/
def listening (kv : Server) : Act → Bool
  | .lookup =>
    match kv.applyPc with
    | .looking _ index => (kv.wakeClient index).all kv.selects
    | _ => true
  | .timeout h =>
    match kv.applyPc with
    | .sending _ _ h' => h' != h
    | _ => true
  | _ => true

theorem selects_iff :
    kv.selects h = true ↔ ∃ hd i, kv.handlers[h]? = some hd ∧ hd.pc = .selecting i := by
  unfold selects
  constructor
  · intro hsel
    split at hsel
    · rename_i op i hh
      exact ⟨_, i, hh, rfl⟩
    · cases hsel
  · rintro ⟨⟨op, pc⟩, i, hhd, hpc⟩
    obtain rfl : pc = .selecting i := hpc
    rw [hhd]

theorem selects_setPc_of_ne {j : ℕ} (hj : h ≠ j) (hd : Handler) (pc : HandlerPc) :
    (kv.setPc h hd pc).selects j = kv.selects j := by
  unfold selects
  rw [setPc_of_ne hj]

/-- A handler that is moved elsewhere is not in its `select`. -/
theorem selects_setPc_self {hd : Handler} (hhd : kv.handlers[h]? = some hd) {pc : HandlerPc}
    (hpc : ∀ i, pc ≠ .selecting i) : (kv.setPc h hd pc).selects h = false := by
  rw [← Bool.not_eq_true, selects_iff]
  rintro ⟨hd', i, hhd', hi⟩
  rw [setPc_self hhd] at hhd'
  obtain rfl := Option.some.inj hhd'
  exact hpc i hi

theorem selects_arrive (kv : Server) (op : Op) (h : ℕ) :
    (kv.arrive op).selects h = kv.selects h := by
  rw [Bool.eq_iff_iff, selects_iff, selects_iff]
  constructor
  · rintro ⟨hd, i, hhd, hi⟩
    rcases getElem?_concat_cases hhd with hhd | ⟨-, rfl⟩
    · exact ⟨hd, i, hhd, hi⟩
    · change (if op.type = .get then HandlerPc.starting else .checking) = .selecting i at hi
      split at hi <;> cases hi
  · rintro ⟨hd, i, hhd, hi⟩
    exact ⟨hd, i, getElem?_of_isPrefix (List.prefix_append _ _) hhd, hi⟩

theorem blocked_of_sending {op : Op} {index : ℕ} (hpc : kv.applyPc = .sending op index h) :
    kv.blocked = !kv.selects h := by
  rw [blocked, hpc]

/-- While `apply` sends to the handler `h`, the lock is taken: the send goes
through, the handler times out, or nothing changes for the two. -/
theorem sending_step {op : Op} {index : ℕ} (hpc : kv.applyPc = .sending op index h) {a : Act}
    (hs : kv.step a = some kv') :
    (a = .send ∧ ∃ i, kv'.applyPc = .finishing i) ∨
    (a = .timeout h ∧ kv'.applyPc = kv.applyPc ∧ kv'.selects h = false) ∨
    ((∀ h', a = .timeout h' → h ≠ h') ∧ a ≠ .lookup ∧ kv'.applyPc = kv.applyPc ∧
      kv'.selects h = kv.selects h) := by
  have hlock : kv.free = false := by rw [free, hpc]
  have htaken : ∀ {p : Prop}, kv.free = true → p := fun hfree =>
    absurd (hlock.symm.trans hfree) Bool.false_ne_true
  cases a with
  | arrive op' =>
      obtain rfl := Option.some.inj hs
      exact Or.inr (Or.inr ⟨nofun, nofun, rfl, selects_arrive kv op' h⟩)
  | check h' =>
      obtain ⟨hd, -, -, hfree, -⟩ := check_cases hs
      exact htaken hfree
  | start h' i =>
      refine Or.inr (Or.inr ⟨nofun, nofun, ?_⟩)
      obtain ⟨hd, hhd, hstart, hcases⟩ := start_cases hs
      obtain ⟨pc, hnot, rfl⟩ : ∃ pc, (∀ i, pc ≠ .selecting i) ∧ kv' = kv.setPc h' hd pc := by
        rcases hcases with ⟨-, rfl⟩ | ⟨i, -, rfl⟩
        · exact ⟨.done wrongLeader, nofun, rfl⟩
        · exact ⟨.registering i, nofun, rfl⟩
      refine ⟨rfl, ?_⟩
      by_cases hh : h' = h
      · subst hh
        rw [selects_setPc_self hhd hnot, eq_comm, ← Bool.not_eq_true, selects_iff]
        rintro ⟨hd', i, hhd', hi⟩
        obtain rfl := Option.some.inj (hhd.symm.trans hhd')
        cases hstart.symm.trans hi
      · exact selects_setPc_of_ne hh hd pc
  | register h' =>
      obtain ⟨hd, i, -, -, hfree, -⟩ := register_cases hs
      exact htaken hfree
  | timeout h' =>
      obtain ⟨hd, i, hhd, -, rfl⟩ := timeout_cases hs
      by_cases hh : h' = h
      · subst hh
        exact Or.inr (Or.inl ⟨rfl, rfl, selects_setPc_self hhd nofun⟩)
      · refine Or.inr (Or.inr ⟨?_, nofun, rfl, selects_setPc_of_ne hh hd _⟩)
        rintro h'' he rfl
        exact hh (Act.timeout.inj he)
  | read h' =>
      obtain ⟨hd, i, -, -, hfree, -⟩ := read_cases hs
      exact htaken hfree
  | clean h' =>
      obtain ⟨hd, i, reply, -, -, hfree, -⟩ := clean_cases hs
      exact htaken hfree
  | recv msg => cases hpc.symm.trans (recv_cases hs).1
  | applyMsg =>
      obtain ⟨msg, hmsg, -⟩ := applyMsg_cases hs
      cases hpc.symm.trans hmsg
  | lookup =>
      obtain ⟨op', i, hlook, -⟩ := lookup_cases hs
      cases hpc.symm.trans hlook
  | send =>
      obtain ⟨op', i, h', hd, j, -, -, -, rfl⟩ := send_cases hs
      exact Or.inl ⟨rfl, i, rfl⟩
  | finish full =>
      obtain ⟨i, hfin, -⟩ := finish_cases hs
      cases hpc.symm.trans hfin
  | kill =>
      obtain rfl := Option.some.inj hs
      exact Or.inr (Or.inr ⟨nofun, nofun, rfl, rfl⟩)

/-- Only a look-up makes `apply` send. -/
theorem not_sending_step (hnot : ∀ op index h, kv.applyPc ≠ .sending op index h) {a : Act}
    (ha : a ≠ .lookup) (hs : kv.step a = some kv') (op : Op) (index h : ℕ) :
    kv'.applyPc ≠ .sending op index h := by
  cases a with
  | arrive op' =>
      obtain rfl := Option.some.inj hs
      exact hnot op index h
  | check h' =>
      obtain ⟨hd, -, -, -, ⟨seq, -, -, rfl⟩ | rfl⟩ := check_cases hs
      · exact hnot op index h
      · exact hnot op index h
  | start h' i =>
      obtain ⟨hd, -, -, ⟨-, rfl⟩ | ⟨i, -, rfl⟩⟩ := start_cases hs
      · exact hnot op index h
      · exact hnot op index h
  | register h' =>
      obtain ⟨hd, i, -, -, -, rfl⟩ := register_cases hs
      exact hnot op index h
  | timeout h' =>
      obtain ⟨hd, i, -, -, rfl⟩ := timeout_cases hs
      exact hnot op index h
  | read h' =>
      obtain ⟨hd, i, -, -, -, rfl⟩ := read_cases hs
      exact hnot op index h
  | clean h' =>
      obtain ⟨hd, i, reply, -, -, -, rfl⟩ := clean_cases hs
      exact hnot op index h
  | recv msg =>
      obtain ⟨-, rfl | rfl⟩ := recv_cases hs
      · exact nofun
      · exact nofun
  | applyMsg =>
      obtain ⟨msg, -, ⟨op', i, -, -, rfl⟩ | ⟨op', i, -, -, rfl⟩ | ⟨i, -, rfl⟩ |
        ⟨status, i, -, rfl⟩⟩ := applyMsg_cases hs
      · exact nofun
      · exact nofun
      · exact nofun
      · exact nofun
  | lookup => exact absurd rfl ha
  | send =>
      obtain ⟨op', i, h', hd, j, -, -, -, rfl⟩ := send_cases hs
      exact nofun
  | finish full =>
      obtain ⟨i, -, rfl⟩ := finish_cases hs
      exact nofun
  | kill =>
      obtain rfl := Option.some.inj hs
      exact hnot op index h

/-- A blocked server stays blocked. -/
theorem blocked_step (hb : kv.blocked = true) {a : Act} (hs : kv.step a = some kv') :
    kv'.blocked = true := by
  unfold blocked at hb
  split at hb
  · rename_i op index h hpc
    have hnot : kv.selects h = false := by simpa using hb
    rcases sending_step hpc hs with ⟨rfl, -⟩ | ⟨-, hpc', hsel⟩ | ⟨-, -, hpc', hsel⟩
    · obtain ⟨op', i, h', hd, j, hpc', hhd, hj, -⟩ := send_cases hs
      cases hpc.symm.trans hpc'
      rw [selects_iff.mpr ⟨hd, j, hhd, hj⟩] at hnot
      cases hnot
    · rw [blocked_of_sending (hpc'.trans hpc), hsel]
      rfl
    · rw [blocked_of_sending (hpc'.trans hpc), hsel, hnot]
      rfl
  · cases hb

theorem blocked_exec (hb : kv.blocked = true) {acts : List Act}
    (h : exec step kv acts = some kv') : kv'.blocked = true :=
  exec_preserves (fun _ _ _ hb hs => blocked_step hb hs) hb h

theorem not_blocked_of_not_sending (h : ∀ op index h, kv.applyPc ≠ .sending op index h) :
    kv.blocked = false := by
  unfold blocked
  split
  · rename_i op index h' hpc
    exact absurd hpc (h op index h')
  · rfl

/-- A step of a server that is not blocked blocks it exactly when it is a look-up
or a timeout that the condition excludes. -/
theorem not_blocked_step_iff (hb : kv.blocked = false) {a : Act} (hs : kv.step a = some kv') :
    kv'.blocked = false ↔ kv.listening a = true := by
  by_cases hsend : ∃ op index h, kv.applyPc = .sending op index h
  · obtain ⟨op, index, h, hpc⟩ := hsend
    rw [blocked_of_sending hpc, Bool.not_eq_false'] at hb
    rcases sending_step hpc hs with ⟨rfl, i, hpc'⟩ | ⟨rfl, hpc', hsel⟩ | ⟨hne, hlook, hpc', hsel⟩
    · simp [blocked, hpc', listening]
    · rw [blocked_of_sending (hpc'.trans hpc), hsel]
      simp [listening, hpc]
    · rw [blocked_of_sending (hpc'.trans hpc), hsel, hb]
      cases a with
      | timeout h' => simp [listening, hpc, hne h' rfl]
      | lookup => exact absurd rfl hlook
      | _ => simp [listening]
  · have hnot : ∀ op index h, kv.applyPc ≠ .sending op index h := fun op index h hpc =>
      hsend ⟨op, index, h, hpc⟩
    by_cases ha : a = .lookup
    · subst ha
      obtain ⟨op, index, hpc, ⟨h, hh, rfl⟩ | ⟨hh, rfl⟩⟩ := lookup_cases hs
      · rw [listening, hpc]
        simp only [hh, Option.all_some]
        exact (Bool.not_eq_false' _).to_iff
      · rw [listening, hpc]
        simp [hh, blocked]
    · rw [not_blocked_of_not_sending (not_sending_step hnot ha hs)]
      cases a with
      | timeout h =>
          have hready : kv.listening (.timeout h) = true := by
            simp only [listening]
          simp [hready]
      | lookup => exact absurd rfl ha
      | _ => simp [listening]

/-- A run of a server, with any requests and any messages, never blocks the server
exactly when `apply` finds only channels of handlers in their `select` and no
handler times out while `apply` sends to it. -/
theorem not_blocked_throughout_iff (snapshot : Option SnapshotStatus) {acts : List Act}
    (h : exec step (startKVServer snapshot) acts = some kv) :
    meets step (fun kv a => kv.listening a = true) (startKVServer snapshot) acts ↔
      ∀ q, passes step (startKVServer snapshot) acts q → q.blocked = false :=
  meets_iff_forall_passes (fun _ _ _ hb hs => not_blocked_step_iff hb hs) rfl h

/-- A `Put` that has been started and registered at index 1, and the command of
index 1 that `apply` has brought to the tables. -/
def putApplied : List Act :=
  [.arrive { type := .put, key := "x", value := "1", clientId := 0, sequenceId := 0 }, .check 0,
    .start 0 (some 1), .register 0,
    .recv (.command
      { type := .put, key := "x", value := "1", clientId := 0, sequenceId := 0 } 1),
    .applyMsg]

theorem not_blocked_throughout_iff_putApplied :
    (exec step (startKVServer none) (putApplied ++ [.lookup, .send])).isSome ∧
      ∀ q, passes step (startKVServer none) (putApplied ++ [.lookup, .send]) q →
        q.blocked = false := by
  refine ⟨by decide, ?_⟩
  exact (not_blocked_throughout_iff none (Option.some_get (by decide)).symm).mp (by decide)

/-- If the handler times out just before the look-up, `apply` is blocked for
ever. -/
theorem putApplied_blocked :
    ∃ kv, exec step (startKVServer none) (putApplied ++ [.timeout 0, .lookup]) = some kv ∧
      kv.blocked = true ∧
      ∀ acts kv', exec step kv acts = some kv' → kv'.blocked = true :=
  ⟨_, rfl, rfl, fun _ _ h => blocked_exec rfl h⟩

end Server

end KvRaft

end DistributedLabs
