import DistributedLabs.Raft.Peer
import DistributedLabs.Raft.Indices

/-!
# What an accepted snapshot leaves of the log

An accepted `InstallSnapshot` is to keep the entries above its snapshot point if the
log has the entry of that point, and to discard the log otherwise. The loop of the
handler looks for the entry by its index but compares the term of slot 0. This file
says exactly when the outcome is the intended one.
-/

namespace DistributedLabs

namespace Raft

variable {n : ℕ} {Cmd : Type*}

/-- The handler gets beyond its three early returns. -/
structure AcceptsSnapshot (rf : Raft n Cmd) (args : InstallSnapshotArgs n) : Prop where
  term : rf.currentTerm ≤ args.term
  included : rf.lastIncludedIndex < args.lastIncludedIndex
  commit : rf.commitIndex < args.lastIncludedIndex

/-- The log has the entry of the snapshot point. -/
def HasSnapshotPoint (rf : Raft n Cmd) (args : InstallSnapshotArgs n) : Prop :=
  ∃ e, rf.entryAt? args.lastIncludedIndex = some e ∧ e.term = args.lastIncludedTerm

/-- The intended outcome: what is above the snapshot point stays if the log has the
entry of that point, and the whole log is discarded if not. -/
structure RightSuffix (rf rf' : Raft n Cmd) (args : InstallSnapshotArgs n) : Prop where
  kept : rf.HasSnapshotPoint args →
    (∀ i, args.lastIncludedIndex < i → rf'.entryAt? i = rf.entryAt? i) ∧
      rf'.lastLogIndex = rf.lastLogIndex
  discarded : ¬ rf.HasSnapshotPoint args →
    rf'.logs.rest = [] ∧ rf'.lastLogIndex = args.lastIncludedIndex

/-- The handler tells by slot 0 whether the log has the entry of the snapshot point.
This is right if slot 0 and the entry pass or fail the test together, or if there is
nothing above the entry. -/
def SlotZeroDecides (rf : Raft n Cmd) (args : InstallSnapshotArgs n) : Prop :=
  ∀ e, rf.entryAt? args.lastIncludedIndex = some e → args.lastIncludedIndex < rf.lastLogIndex →
    (rf.logs.zero.term = args.lastIncludedTerm ↔ e.term = args.lastIncludedTerm)

section

variable {rf rf' : Raft n Cmd} {args : InstallSnapshotArgs n}

theorem entryAt?_eq_none {i : ℕ} (h : rf.lastLogIndex < i) : rf.entryAt? i = none := by
  rw [lastLogIndex_eq] at h
  rw [entryAt?_of_le rf (by omega), Logs.get?, List.getElem?_eq_none]
  rw [Logs.slots, List.length_cons]
  omega

/-- The entries above the snapshot point, and nothing else, are left. -/
theorem entryAt?_takeOver_kept (h : rf.lastIncludedIndex < args.lastIncludedIndex)
    (hlogs : rf'.logs.rest = rf.logs.rest.drop (args.lastIncludedIndex - rf.lastIncludedIndex))
    (hinc : rf'.lastIncludedIndex = args.lastIncludedIndex) {i : ℕ}
    (hi : args.lastIncludedIndex < i) : rf'.entryAt? i = rf.entryAt? i := by
  obtain ⟨k, rfl⟩ := Nat.exists_eq_add_of_lt hi
  have hslot : args.lastIncludedIndex + k + 1 - rf.lastIncludedIndex =
      args.lastIncludedIndex - rf.lastIncludedIndex + k + 1 := by omega
  rw [entryAt?_of_le rf' (by omega), entryAt?_of_le rf (by omega), hinc, hslot,
    Nat.add_assoc, Nat.add_sub_cancel_left, Logs.get?_succ, Logs.get?_succ, hlogs,
    List.getElem?_drop]

theorem rightSuffix_of_kept (h : rf.AcceptsSnapshot args)
    (hle : args.lastIncludedIndex ≤ rf.lastLogIndex)
    (hlogs : rf'.logs.rest = rf.logs.rest.drop (args.lastIncludedIndex - rf.lastIncludedIndex))
    (hinc : rf'.lastIncludedIndex = args.lastIncludedIndex) :
    RightSuffix rf rf' args ↔
      (args.lastIncludedIndex < rf.lastLogIndex → rf.HasSnapshotPoint args) := by
  have hincluded := h.included
  have hlast : rf'.lastLogIndex = rf.lastLogIndex := by
    rw [lastLogIndex_eq] at hle
    rw [lastLogIndex_eq, lastLogIndex_eq, hinc, hlogs, List.length_drop]
    omega
  constructor
  · intro hright hlt
    by_contra hpoint
    have := (hright.discarded hpoint).2
    omega
  · intro hpoint
    refine ⟨fun _ => ⟨fun i hi => entryAt?_takeOver_kept hincluded hlogs hinc hi, hlast⟩, ?_⟩
    intro hnot
    have heq : rf.lastLogIndex = args.lastIncludedIndex :=
      le_antisymm (Nat.not_lt.mp fun hlt => hnot (hpoint hlt)) hle
    rw [lastLogIndex_eq, hinc] at hlast
    exact ⟨List.eq_nil_of_length_eq_zero (by omega), by rw [lastLogIndex_eq, hinc]; omega⟩

theorem rightSuffix_of_discarded (hlogs : rf'.logs.rest = [])
    (hinc : rf'.lastIncludedIndex = args.lastIncludedIndex) :
    RightSuffix rf rf' args ↔
      (args.lastIncludedIndex < rf.lastLogIndex → ¬ rf.HasSnapshotPoint args) := by
  have hlast : rf'.lastLogIndex = args.lastIncludedIndex := by
    rw [lastLogIndex_eq, hinc, hlogs, List.length_nil, Nat.add_zero]
  constructor
  · intro hright hlt hpoint
    have := (hright.kept hpoint).2
    omega
  · intro hnot
    refine ⟨fun hpoint => ?_, fun _ => ⟨hlogs, hlast⟩⟩
    have hge : rf.lastLogIndex ≤ args.lastIncludedIndex :=
      Nat.not_lt.mp fun hlt => hnot hlt hpoint
    obtain ⟨e, he, -⟩ := hpoint
    have hle : args.lastIncludedIndex ≤ rf.lastLogIndex := by
      by_contra hlt
      rw [entryAt?_eq_none (Nat.not_le.mp hlt)] at he
      cases he
    refine ⟨fun i hi => ?_, by omega⟩
    rw [entryAt?_eq_none (by omega), entryAt?_eq_none (by omega)]

/-- An accepted `InstallSnapshot` keeps the right suffix exactly if slot 0 decides
rightly whether the log has the entry of the snapshot point. -/
theorem installSnapshot_rightSuffix_iff (h : rf.AcceptsSnapshot args) :
    RightSuffix rf (rf.installSnapshot args).1 args ↔ rf.SlotZeroDecides args := by
  have hinstall : (rf.installSnapshot args).1 =
      ((rf.adoptTerm args.term).toFollower.takeOver args (rf.keptEntries args)).persist := by
    rcases installSnapshot_cases rf args with ⟨hlt, -⟩ | ⟨-, hle, -⟩ | ⟨-, -, -, he⟩
    · exact absurd h.term (Nat.not_le.mpr hlt)
    · have := h.included
      have := h.commit
      omega
    · rw [he]
  rw [hinstall]
  rcases keptEntries_cases rf h.included with ⟨hzero, hle, hkept⟩ | ⟨hzero, hkept⟩
  · rw [rightSuffix_of_kept h hle hkept rfl]
    obtain ⟨e, he⟩ := Option.isSome_iff_exists.mp (rf.entryAt?_isSome h.included.le hle)
    constructor
    · intro hpoint e' he' hlt
      obtain ⟨e'', he'', hterm⟩ := hpoint hlt
      obtain rfl := Option.some.inj (he'.symm.trans he'')
      exact ⟨fun _ => hterm, fun _ => hzero⟩
    · intro hdecides hlt
      exact ⟨e, he, (hdecides e he hlt).mp hzero⟩
  · rw [rightSuffix_of_discarded hkept rfl]
    constructor
    · intro hnot e he hlt
      refine ⟨fun hz => ?_, fun hterm => absurd ⟨e, he, hterm⟩ (hnot hlt)⟩
      rcases hzero with hzero | hshort
      · exact absurd hz hzero
      · omega
    · rintro hdecides hlt ⟨e, he, hterm⟩
      rcases hzero with hzero | hshort
      · exact hzero ((hdecides e he hlt).mpr hterm)
      · omega

end

/-- A follower with two entries of term 1 above the index `inc`, which has the term
`term`. It has committed nothing else. -/
def twoEntries (inc term : ℕ) : Raft 3 ℕ :=
  { make 1 {} with
    currentTerm := 1
    logs :=
      { zero := { term := term, cmd := none }
        rest := [{ term := 1, cmd := some 7 }, { term := 1, cmd := some 8 }] }
    commitIndex := inc
    lastApplied := inc
    lastIncludedIndex := inc }

/-- A snapshot of the leader of term 1. -/
def snapshotAt (index term : ℕ) : InstallSnapshotArgs 3 :=
  { term := 1, leaderId := 0, lastIncludedIndex := index, lastIncludedTerm := term, data := [0] }

theorem installSnapshot_rightSuffix_iff_twoEntries :
    (twoEntries 1 1).HasSnapshotPoint (snapshotAt 2 1) ∧
      RightSuffix (twoEntries 1 1) ((twoEntries 1 1).installSnapshot (snapshotAt 2 1)).1
        (snapshotAt 2 1) := by
  refine ⟨⟨_, rfl, rfl⟩, ?_⟩
  refine (installSnapshot_rightSuffix_iff ⟨by decide, by decide, by decide⟩).mpr ?_
  intro e he _
  obtain rfl := Option.some.inj he
  exact Iff.rfl

/-- The follower has the entry of the snapshot point, and its last entry is lost. -/
theorem twoEntries_not_rightSuffix :
    (twoEntries 0 0).AcceptsSnapshot (snapshotAt 1 1) ∧
      (twoEntries 0 0).HasSnapshotPoint (snapshotAt 1 1) ∧
      (twoEntries 0 0).entryAt? 2 = some { term := 1, cmd := some 8 } ∧
      ((twoEntries 0 0).installSnapshot (snapshotAt 1 1)).1.entryAt? 2 = none ∧
      ¬ RightSuffix (twoEntries 0 0) ((twoEntries 0 0).installSnapshot (snapshotAt 1 1)).1
        (snapshotAt 1 1) := by
  have hpoint : (twoEntries 0 0).HasSnapshotPoint (snapshotAt 1 1) := ⟨_, rfl, rfl⟩
  refine ⟨⟨by decide, by decide, by decide⟩, hpoint, rfl, rfl, fun hright => ?_⟩
  have hlast := (hright.kept hpoint).2
  revert hlast
  decide

end Raft

end DistributedLabs
