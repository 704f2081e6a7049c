import DistributedLabs.Raft.Spec
import DistributedLabs.Consensus.Ledger

/-!
# The full log behind a compacted one

`Logs.Holds logs inc l` says that the slice `logs`, compacted up to the index
`inc`, is what remains of the log `l` of everything a peer has ever kept: slot 0
carries the term of the entry at `inc`, and the other slots are the entries
above it. The index arithmetic, the copy loop of `AppendEntries` and the two
compactions are restated here over the full log.
-/

namespace DistributedLabs

namespace Raft

open Consensus

variable {n : ℕ} {Cmd : Type*}

/-- The slice `logs`, compacted up to `inc`, is what remains of the log `l`. -/
structure Logs.Holds (logs : Logs Cmd) (inc : ℕ) (l : List (LogEntry Cmd)) : Prop where
  included : inc ≤ l.length
  zero : logs.zero = { term := tipTerm LogEntry.term (l.take inc), cmd := none }
  rest : logs.rest = l.drop inc

/-- Two logs that agree on the term of an entry agree up to it. -/
def Agree (l m : List (LogEntry Cmd)) : Prop :=
  ∀ ⦃i e e'⦄, l[i]? = some e → m[i]? = some e' → e.term = e'.term →
    l.take (i + 1) = m.take (i + 1)

namespace Logs.Holds

variable {logs : Logs Cmd} {inc prev : ℕ} {l m : List (LogEntry Cmd)}

theorem get?_succ_sub (h : logs.Holds inc l) {i : ℕ} (hi : inc ≤ i) :
    logs.get? (i + 1 - inc) = l[i]? := by
  rw [Nat.sub_add_comm hi, Logs.get?_succ, h.rest, List.getElem?_drop, Nat.add_sub_cancel' hi]

/-- The term of a slot is the term at its real index. -/
theorem get?_term (h : logs.Holds inc l) {i : ℕ} {e : LogEntry Cmd} (hi : inc ≤ i)
    (he : logs.get? (i - inc) = some e) : e.term = tipTerm LogEntry.term (l.take i) := by
  rcases hi.lt_or_eq with hlt | rfl
  · obtain ⟨j, rfl⟩ : ∃ j, i = j + 1 := ⟨i - 1, by omega⟩
    rw [h.get?_succ_sub (Nat.lt_succ_iff.mp hlt)] at he
    rw [tipTerm_take_succ _ he]
  · rw [Nat.sub_self, Logs.get?_zero] at he
    rw [← Option.some.inj he, h.zero]

theorem length_rest (h : logs.Holds inc l) : inc + logs.rest.length = l.length := by
  rw [h.rest, List.length_drop, Nat.add_sub_cancel' h.included]

theorem tipTerm_eq (h : logs.Holds inc l) :
    (logs.rest.getLastD logs.zero).term = tipTerm LogEntry.term l := by
  rcases h.included.lt_or_eq with hlt | heq
  · have hne : l.drop inc ≠ [] := by
      rw [Ne, List.drop_eq_nil_iff]
      omega
    have hl : l ≠ [] := fun hl => hne (by rw [hl, List.drop_nil])
    rw [h.rest, List.getLastD_eq_getLast?, List.getLast?_eq_some_getLast hne, Option.getD_some,
      List.getLast_drop, tipTerm, List.getLast?_eq_some_getLast hl]
    rfl
  · rw [h.rest, heq, List.drop_length, List.getLastD_nil, h.zero, heq, List.take_length]

theorem push (h : logs.Holds inc l) (e : LogEntry Cmd) : (logs.push e).Holds inc (l ++ [e]) where
  included := h.included.trans (by simp)
  zero := by
    rw [List.take_append_of_le_length h.included]
    exact h.zero
  rest := by
    rw [List.drop_append_of_le_length h.included, ← h.rest]
    rfl

/-- Cutting at a real index above the snapshot point. -/
theorem cutPush (h : logs.Holds inc l) (hinc : inc ≤ prev) (hprev : prev ≤ l.length)
    (e : LogEntry Cmd) : (logs.cutPush (prev + 1 - inc) e).Holds inc (l.take prev ++ [e]) := by
  have hlen : (l.take prev).length = prev := List.length_take_of_le hprev
  rw [Nat.sub_add_comm hinc]
  refine ⟨?_, ?_, ?_⟩
  · rw [List.length_append, hlen]
    omega
  · rw [List.take_append_of_le_length (by omega), List.take_take, Nat.min_eq_left hinc]
    exact h.zero
  · rw [List.drop_append_of_le_length (by omega), List.drop_take, ← h.rest]
    rfl

/-- One round of the copy loop adopts the log of the leader up to the entry. -/
theorem copyEntry (h : logs.Holds inc l) (hinc : inc ≤ prev) (hprev : prev ≤ l.length)
    (hstart : m.take prev = l.take prev) (hagree : Agree l m) {e : LogEntry Cmd}
    (he : m[prev]? = some e) :
    (copyEntry logs (prev + 1 - inc) e).Holds inc (adopt l (m.take (prev + 1))) := by
  have hcut : m.take (prev + 1) = l.take prev ++ [e] := by
    rw [take_succ_of_getElem? he, hstart]
  unfold Raft.copyEntry
  rw [h.get?_succ_sub hinc]
  cases hold : l[prev]? with
  | some old =>
      by_cases hterm : old.term = e.term
      · have hsame := hagree hold he hterm
        have hadopt : adopt l (m.take (prev + 1)) = l :=
          adopt_eq_self (hsame ▸ List.take_prefix _ _)
        rw [hadopt]
        simpa [hterm] using h
      · have hnot : ¬ m.take (prev + 1) <+: l := by
          intro hpre
          rw [hcut] at hpre
          have hget := hpre.getElem (i := prev) (by simp; omega)
          obtain ⟨hlt, hval⟩ := List.getElem?_eq_some_iff.mp hold
          rw [List.getElem_append_right (by simp)] at hget
          simp [hval] at hget
          exact hterm (by rw [hget])
        rw [adopt_eq_of_not hnot, hcut]
        simpa [hterm] using h.cutPush hinc hprev e
  | none =>
      have hlen : prev = l.length := le_antisymm hprev (List.getElem?_eq_none_iff.mp hold)
      have hnot : ¬ m.take (prev + 1) <+: l := by
        intro hpre
        have := hpre.length_le
        rw [hcut, List.length_append, List.length_take_of_le hprev, List.length_singleton] at this
        omega
      have hslot : prev + 1 - inc = logs.length := by
        have := h.length_rest
        rw [Logs.length_eq]
        omega
      rw [adopt_eq_of_not hnot, hcut, hlen, List.take_length]
      simpa [← hlen, hslot] using h.push e

/-- The copy loop adopts the log of the leader up to the last entry it copies. -/
theorem copyEntries (h : logs.Holds inc l) (hinc : inc ≤ prev) (hprev : prev ≤ l.length)
    (hstart : m.take prev = l.take prev) (hagree : Agree l m) {entries : List (LogEntry Cmd)}
    (hm : prev ≤ m.length) (hentries : m.take prev ++ entries <+: m) :
    (copyEntries logs (prev + 1 - inc) entries).Holds inc
      (adopt l (m.take (prev + entries.length))) := by
  induction entries generalizing logs prev l with
  | nil =>
      rw [List.length_nil, Nat.add_zero, adopt_eq_self (hstart ▸ List.take_prefix _ _)]
      exact h
  | cons e entries ih =>
      have hlen : (m.take prev).length = prev := List.length_take_of_le hm
      have he : m[prev]? = some e := by
        obtain ⟨rest, hrest⟩ := hentries
        rw [← hrest, List.append_assoc, List.getElem?_append_right (by omega), hlen, Nat.sub_self]
        rfl
      have hlt : prev < m.length := (List.getElem?_eq_some_iff.mp he).1
      have hnext := h.copyEntry hinc hprev hstart hagree he
      have hstart' := starts_adopt l (m.take (prev + 1))
      have hlen' : (m.take (prev + 1)).length = prev + 1 := List.length_take_of_le hlt
      have hprev' : prev + 1 ≤ (adopt l (m.take (prev + 1))).length := by
        have := hstart'.length_le
        rwa [hlen'] at this
      have htake : m.take (prev + 1) = (adopt l (m.take (prev + 1))).take (prev + 1) := by
        conv_lhs => rw [List.prefix_iff_eq_take.mp hstart', hlen']
      have hagree' : Agree (adopt l (m.take (prev + 1))) m := by
        rcases adopt_cases l (m.take (prev + 1)) with ⟨-, hc⟩ | ⟨-, hc⟩
        · rwa [hc]
        · rw [hc]
          intro i x x' hx _ _
          have hi := (List.getElem?_eq_some_iff.mp hx).1
          rw [hlen'] at hi
          rw [List.take_take, Nat.min_eq_left hi]
      have hrest : m.take (prev + 1) ++ entries <+: m := by
        rw [take_succ_of_getElem? he, List.append_assoc]
        exact hentries
      have hindex : prev + 1 - inc + 1 = prev + 1 + 1 - inc := by omega
      have hloop := ih hnext (by omega) hprev' htake hagree' hlt hrest
      rw [adopt_adopt (List.take_prefix_take_left (by omega))] at hloop
      rw [Raft.copyEntries, hindex, List.length_cons, Nat.add_comm entries.length 1,
        ← Nat.add_assoc]
      exact hloop

end Logs.Holds

/-! ## The log of a peer -/

/-- The log of the peer is what remains of `l`. -/
def Keeps (rf : Raft n Cmd) (l : List (LogEntry Cmd)) : Prop :=
  rf.logs.Holds rf.lastIncludedIndex l

namespace Keeps

variable {rf : Raft n Cmd} {l m : List (LogEntry Cmd)}

theorem lastLogIndex (h : rf.Keeps l) : rf.lastLogIndex = l.length := by
  rw [lastLogIndex_eq]
  exact h.length_rest

theorem lastLogTerm (h : rf.Keeps l) : rf.lastLogTerm = tipTerm LogEntry.term l :=
  h.tipTerm_eq

theorem entryAt?_succ (h : rf.Keeps l) {i : ℕ} (hi : rf.lastIncludedIndex ≤ i) :
    rf.entryAt? (i + 1) = l[i]? := by
  rw [entryAt?_of_le rf (hi.trans (Nat.le_succ i))]
  exact h.get?_succ_sub hi

theorem entryAt?_term (h : rf.Keeps l) {i : ℕ} {e : LogEntry Cmd} (hi : rf.lastIncludedIndex ≤ i)
    (he : rf.entryAt? i = some e) : e.term = tipTerm LogEntry.term (l.take i) := by
  rw [entryAt?_of_le rf hi] at he
  exact h.get?_term hi he

/-- The entries that an accepted `InstallSnapshot` keeps are those of the full log
above the snapshot point, if slot 0 passes the test exactly when the entry at the
snapshot point does. -/
theorem takeOver (h : rf.Keeps l) {args : InstallSnapshotArgs n}
    (hinc : rf.lastIncludedIndex < args.lastIncludedIndex)
    (hm : args.lastIncludedIndex ≤ m.length)
    (hterm : args.lastIncludedTerm = tipTerm LogEntry.term (m.take args.lastIncludedIndex))
    (hagree : Agree l m)
    (htest : ∀ e, rf.entryAt? args.lastIncludedIndex = some e →
      (rf.logs.zero.term = args.lastIncludedTerm ↔ e.term = args.lastIncludedTerm)) :
    (rf.takeOver args (rf.keptEntries args)).Keeps
      (adopt l (m.take args.lastIncludedIndex)) := by
  obtain ⟨i, hi⟩ : ∃ i, args.lastIncludedIndex = i + 1 :=
    ⟨args.lastIncludedIndex - 1, by omega⟩
  have hmlen : (m.take args.lastIncludedIndex).length = args.lastIncludedIndex :=
    List.length_take_of_le hm
  obtain ⟨e', he'⟩ : ∃ e', m[i]? = some e' := ⟨_, List.getElem?_eq_getElem (by omega)⟩
  have hentry : rf.entryAt? args.lastIncludedIndex = l[i]? := by
    rw [hi]
    exact h.entryAt?_succ (by omega)
  have hterm' : args.lastIncludedTerm = e'.term := by
    rw [hterm, hi, tipTerm_take_succ _ he']
  -- the snapshot replaces the log unless the log has the entry at the snapshot point
  have hreplace : ¬ m.take args.lastIncludedIndex <+: l → rf.keptEntries args = [] →
      (rf.takeOver args (rf.keptEntries args)).Keeps
        (adopt l (m.take args.lastIncludedIndex)) := by
    intro hnot hkept
    rw [adopt_eq_of_not hnot, hkept]
    refine ⟨hmlen.ge, ?_, ?_⟩
    · rw [List.take_take, show (rf.takeOver args []).lastIncludedIndex =
        args.lastIncludedIndex from rfl, Nat.min_self, ← hterm]
      rfl
    · exact (List.drop_eq_nil_iff.mpr hmlen.le).symm
  cases hold : l[i]? with
  | none =>
      have hlen : l.length ≤ i := List.getElem?_eq_none_iff.mp hold
      refine hreplace (fun hpre => ?_) ?_
      · have := hpre.length_le
        omega
      · rcases keptEntries_cases rf hinc with ⟨-, hle, -⟩ | ⟨-, hkept⟩
        · rw [h.lastLogIndex] at hle
          omega
        · exact hkept
  | some e =>
      obtain ⟨hlt, -⟩ := List.getElem?_eq_some_iff.mp hold
      have htest' := htest e (hentry.trans hold)
      by_cases hsame : e.term = args.lastIncludedTerm
      · have htake : l.take args.lastIncludedIndex = m.take args.lastIncludedIndex := by
          rw [hi]
          exact hagree hold he' (hsame.trans hterm')
        rw [adopt_eq_self (htake ▸ List.take_prefix _ _)]
        rcases keptEntries_cases rf hinc with ⟨-, -, hkept⟩ | ⟨hnot, -⟩
        · refine ⟨?_, ?_, ?_⟩
          · exact hi.trans_le hlt
          · exact congrArg (fun t => LogEntry.mk t none) (hterm.trans (congrArg _ htake.symm))
          · rw [hkept, h.rest, List.drop_drop, Nat.add_sub_cancel' hinc.le]
            rfl
        · rcases hnot with hnot | hnot
          · exact absurd (htest'.mpr hsame) hnot
          · rw [h.lastLogIndex] at hnot
            omega
      · refine hreplace (fun hpre => hsame ?_) ?_
        · have htake := List.prefix_iff_eq_take.mp hpre
          rw [hmlen] at htake
          rw [hterm, htake, hi, tipTerm_take_succ _ hold]
        · rcases keptEntries_cases rf hinc with ⟨hzero, -⟩ | ⟨-, hkept⟩
          · exact absurd (htest'.mp hzero) hsame
          · exact hkept

/-- `Snapshot` compacts the same full log further. -/
theorem compact (h : rf.Keeps l) {index : ℕ} {entry : LogEntry Cmd}
    (hinc : rf.lastIncludedIndex < index) (hlen : index ≤ l.length)
    (hentry : rf.logs.get? (rf.logIndex index) = some entry) :
    Logs.Holds { zero := { term := entry.term, cmd := none },
                 rest := rf.logs.slots.drop (rf.logIndex index + 1) } index l where
  included := hlen
  zero := by
    rw [h.get?_term hinc.le hentry]
  rest := by
    rw [show rf.logs.slots.drop (rf.logIndex index + 1) = rf.logs.rest.drop (rf.logIndex index)
      from rfl, h.rest, List.drop_drop, logIndex, Nat.add_sub_cancel' hinc.le]

end Keeps

end Raft

end DistributedLabs
