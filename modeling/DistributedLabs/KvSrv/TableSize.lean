import Mathlib.Data.Set.Card
import DistributedLabs.KvSrv.Linearizability
import DistributedLabs.KvSrv.Stragglers

/-!
# The duplicate table is freed

The first run of a `Modify` leaves a record in `MessageMap`, under the request id of
its call. `PutAppend` does not return before a `Report` has deleted the record, so
that every record belongs to a call in progress. If no handler outlives its `Call`,
the table is therefore bounded by the number of these calls, however many calls
there have been.
-/

namespace DistributedLabs

namespace KvSrv

open SharedLog

variable {m : ℕ}

/-- The keys of `MessageMap`. -/
def Server.recorded (kv : Server) : Set ℕ := {id | kv.messageMap id ≠ none}

/-- The calls of `PutAppend` that have started and not yet returned. -/
def System.inProgress (s : System m) : Set ℕ :=
  {k | (∃ input, .inv k input ∈ s.history ∧ input.isWrite = true) ∧ ∀ r, .ret k r ∉ s.history}

/-! ## Where records come from -/

/-- A handler touches the record of its own request only. -/
theorem Outcome.messageMap_of_notMem {kv kv' : Server} {tag : Option (RequestType × ℕ)}
    (h : Outcome kv tag kv') {i : ℕ} (hi : i ∉ tag.map Prod.snd) :
    kv'.messageMap i = kv.messageMap i := by
  cases h with
  | read => rfl
  | report id => exact Function.update_of_ne (fun hid => hi (congrArg some hid.symm)) _ _
  | repeated id _ => rfl
  | assign id data value _ =>
      exact Function.update_of_ne (fun hid => hi (congrArg some hid.symm)) _ _

section

variable {ids : ℕ → ℕ} {s s' : System m} {L : List (Call ℕ Input String)}

theorem Op.input_isWrite (op : Op) (args : PutAppendArgs) : (op.input args).isWrite = true := by
  cases op with
  | put => rfl
  | append => rfl

/-- A request with a tag is one of `PutAppend`, and carries the id of the call. -/
theorem ClerkOk.of_tag {table : ℕ → Option String} {H : List (Event ℕ Input String)}
    {ck : Clerk} (h : ClerkOk ids table H L ck) {tag : RequestType × ℕ}
    (htag : ck.pc.tag? = some tag) :
    tag.2 = ids ck.call ∧ ∃ input, .inv ck.call input ∈ H ∧ input.isWrite = true := by
  unfold ClerkOk at h
  cases hpc : ck.pc with
  | idle =>
      rw [hpc] at htag
      cases htag
  | get key =>
      rw [hpc] at htag
      cases htag
  | modify op args =>
      rw [hpc] at h htag
      cases htag
      exact ⟨h.2.2.1, _, h.1, op.input_isWrite args⟩
  | report op args value =>
      rw [hpc] at h htag
      cases htag
      exact ⟨h.2.2.1, _, h.1, op.input_isWrite args⟩

/-- A call without a tag has no record. -/
theorem ClerkOk.table_of_no_tag {table : ℕ → Option String} {H : List (Event ℕ Input String)}
    {ck : Clerk} (h : ClerkOk ids table H L ck) (htag : ck.pc.tag? = none) {k : ℕ}
    (hk : ck.current = some k) : table (ids k) = none := by
  unfold ClerkOk at h
  unfold Clerk.current at hk
  cases hpc : ck.pc with
  | idle =>
      rw [hpc] at hk
      cases hk
  | get key =>
      rw [hpc] at h hk
      cases hk
      exact h.2.1
  | modify op args =>
      rw [hpc] at htag
      cases htag
  | report op args value =>
      rw [hpc] at htag
      cases htag

/-- A step adds no record but under the id of a call. -/
theorem Inv.recorded_step (h : Inv ids s L) {a : System.Act m} (hs : s.step ids a = some s') :
    s'.server.recorded ⊆ s.server.recorded ∪ Set.range ids := by
  cases a with
  | invoke c input =>
      obtain ⟨-, rfl⟩ := System.invoke_cases hs
      exact Set.subset_union_left
  | handle c =>
      obtain ⟨-, r, hr, rfl⟩ := System.handle_cases hs
      intro i hi
      by_cases htag : i ∈ (s.clerks c).pc.tag?.map Prod.snd
      · obtain ⟨tag, hpc, rfl⟩ := Option.map_eq_some_iff.mp htag
        exact Or.inr ⟨_, ((h.clerks c).of_tag hpc).1.symm⟩
      · exact Or.inl (((handle_outcome hr).messageMap_of_notMem htag).symm.trans_ne hi)
  | fail c =>
      obtain ⟨-, rfl⟩ := System.fail_cases hs
      exact Set.subset_union_left
  | succeed c =>
      obtain ⟨-, -, ⟨-, -, rfl⟩ | ⟨-, -, -, rfl⟩ | ⟨-, -, -, -, rfl⟩⟩ := System.succeed_cases hs
      · exact Set.subset_union_left
      · exact Set.subset_union_left
      · exact Set.subset_union_left

theorem recorded_subset_range (hids : Function.Injective ids) {acts : List (System.Act m)}
    (h : exec (System.step ids) {} acts = some s) : s.server.recorded ⊆ Set.range ids := by
  refine (exec_preserves (I := fun s => (∃ L, Inv ids s L) ∧ s.server.recorded ⊆ Set.range ids)
    ?_ ⟨⟨[], Inv.init ids⟩, fun id hid => absurd rfl hid⟩ h).2
  rintro s a s' ⟨⟨L, hL⟩, hrange⟩ hs
  exact ⟨hL.step hids hs, (hL.recorded_step hs).trans (Set.union_subset hrange subset_rfl)⟩

/-! ## Whose records they are -/

/-- A call with a record is in progress. -/
theorem Inv.mem_inProgress (h : Inv ids s L) {k : ℕ} (hk : ids k ∈ s.server.recorded) :
    k ∈ s.inProgress := by
  obtain ⟨record, hrecord⟩ := Option.ne_none_iff_exists'.mp hk
  obtain ⟨c, hc⟩ := h.table k record hrecord
  refine ⟨?_, h.numbered.pending c k hc⟩
  cases htag : (s.clerks c).pc.tag? with
  | none => exact absurd ((h.clerks c).table_of_no_tag htag hc) hk
  | some tag =>
      have hlive : (s.clerks c).pc ≠ .idle := by
        intro hpc
        rw [hpc] at htag
        cases htag
      obtain rfl := Option.some.inj ((Clerk.current_of_ne_idle hlive).symm.trans hc)
      exact ((h.clerks c).of_tag htag).2

theorem Inv.inProgress_finite (h : Inv ids s L) : s.inProgress.Finite := by
  refine (Set.finite_lt_nat s.calls).subset ?_
  rintro k ⟨⟨input, hinv, -⟩, -⟩
  exact h.numbered.invoked k input hinv

/-- Every record of `MessageMap` belongs to a call of `PutAppend` that is in progress.
There are no more records than such calls, and none when there is no such call. -/
theorem messageMap_freed (hids : Function.Injective ids) {acts : List (System.Act m)}
    (h : exec (System.step ids) {} acts = some s) :
    s.server.recorded ⊆ ids '' s.inProgress ∧ s.inProgress.Finite ∧
      s.server.recorded.encard ≤ s.inProgress.encard ∧
      (s.inProgress = ∅ → ∀ id, s.server.messageMap id = none) := by
  obtain ⟨L, hinv⟩ := Inv.exec hids h
  have hsubset : s.server.recorded ⊆ ids '' s.inProgress := by
    intro id hid
    obtain ⟨k, rfl⟩ := recorded_subset_range hids h hid
    exact ⟨k, hinv.mem_inProgress hid, rfl⟩
  refine ⟨hsubset, hinv.inProgress_finite, ?_, fun hempty id => ?_⟩
  · exact (Set.encard_le_encard hsubset).trans (Set.encard_image_le _ _)
  · rw [hempty, Set.image_empty] at hsubset
    exact not_not.mp fun hid => hsubset hid

end

/-- Half of `lostReply`: the `Append` has a record and its reply is lost, while the
`Put` has reported and is about to return. -/
def halfway : List (System.Act 2) := lostReply.take 7

theorem messageMap_freed_halfway :
    ∃ s, exec (System.step id) {} halfway = some s ∧ s.server.messageMap 0 = some "" ∧
      s.server.messageMap 1 = none ∧ s.server.recorded ⊆ id '' s.inProgress ∧
      s.server.recorded.encard ≤ s.inProgress.encard := by
  obtain ⟨hsubset, -, hcard, -⟩ := messageMap_freed Function.injective_id
    (show exec (System.step id) {} halfway = some _ from rfl)
  exact ⟨_, rfl, by decide, by decide, hsubset, hcard⟩

end KvSrv

end DistributedLabs
