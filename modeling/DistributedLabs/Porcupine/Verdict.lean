import Mathlib.Data.List.FinRange
import DistributedLabs.Porcupine.KvModel
import DistributedLabs.Porcupine.Single

/-!
# What `checkSingle` finds

A round of the loop goes on with the search or returns an answer. The answer is true only
if there is a linearization. If the loop was not killed, the answer is false only if there
is none, and what it gives for an operation is a longest partial linearization with that
operation. The number of the rounds is bounded.
-/

namespace DistributedLabs

namespace Porcupine

variable {S I O : Type}

/-! ## Answers -/

section

variable (model : FullModel S I O) (ops : List (I × O)) (marks : List Mark)
  (computePartial : Bool)

/-- What an answer tells about a history, if the loop was killed or not. -/
structure Answer (killed ok : Bool) (longest : Longest) : Prop where
  sound : ok = true →
    HasLinearization (takeId model ops) (Precedes marks) model.init (List.range ops.length)
  complete : killed = false → ok = false →
    ¬ HasLinearization (takeId model ops) (Precedes marks) model.init (List.range ops.length)
  genuine : ∀ i l, longest[i]? = some (some l) → PartialLinearization model ops marks l ∧ i ∈ l
  longest : killed = false → computePartial = true →
    ∀ l, PartialLinearization model ops marks l → ∀ i ∈ l,
      ∃ l', longest[i]? = some (some l') ∧ l.length ≤ l'.length

/-- The invariant of the search, which ends when all operations have been linearized. -/
abbrev SearchInv (B : Backtrack (Finset ℕ × S) ℕ) : Prop :=
  Backtrack.Inv (space model ops marks) (Like model)
    (fun c => (Finset.range ops.length \ c.1).card) (fun c => c.1 = Finset.range ops.length)
    (∅, model.init) B

/-- The loop is somewhere in its search, and does at most so many rounds. -/
def Searching (rounds : ℕ) (c : Checking S I O) : Prop :=
  ∃ node head ps B, Layout ops marks node head ps ∧
    Sim ops.length node head ps computePartial c B ∧ SearchInv model ops marks B ∧
    B.measure marks.length (fun c => (Finset.range ops.length \ c.1).card) ≤ rounds

end

section

variable {model : FullModel S I O} {ops : List (I × O)} {marks : List Mark}
  {computePartial : Bool}

theorem PartialLinearization.mem_lt {l : List ℕ} (h : PartialLinearization model ops marks l) :
    ∀ i ∈ l, i < ops.length := by
  intro i hi
  obtain ⟨xs, ys, rfl⟩ := List.append_of_mem hi
  obtain ⟨s, hs⟩ := Option.isSome_iff_exists.mp h.legal
  obtain ⟨s₁, -, hrest⟩ := exec_append_eq_some.mp hs
  obtain ⟨s₂, htake, -⟩ := exec_cons_eq_some.mp hrest
  exact lt_of_takeId htake

/-- A linearization is the longest partial linearization with any of its operations. -/
theorem answer_of_linearizes (hwf : WellFormed ops.length marks) {l : List ℕ}
    (h : PartialLinearization model ops marks l) (hset : l.toFinset = Finset.range ops.length)
    (killed : Bool) :
    Answer model ops marks computePartial killed true
      (List.replicate ops.length (some l)) where
  sound _ := ⟨l, (partialLinearization_iff hwf).mp ⟨h, hset⟩⟩
  complete _ hok := absurd hok.symm Bool.false_ne_true
  genuine := by
    intro i l' hl'
    rw [List.getElem?_replicate] at hl'
    split at hl'
    · rename_i hi
      obtain rfl := Option.some.inj (Option.some.inj hl')
      refine ⟨h, ?_⟩
      rwa [← List.mem_toFinset, hset, Finset.mem_range]
    · cases hl'
  longest := by
    intro _ _ l' hl' i hi
    refine ⟨l, ?_, ?_⟩
    · rw [List.getElem?_replicate, if_pos (hl'.mem_lt i hi)]
    · refine (hl'.nodup.subperm fun j hj => ?_).length_le
      rw [← List.mem_toFinset, hset, Finset.mem_range]
      exact hl'.mem_lt j hj

variable {node : ℕ → Node I O} {head : ℕ} {ps : List ℕ} {c : Checking S I O}
  {B : Backtrack (Finset ℕ × S) ℕ}

theorem Sim.genuine (hlayout : Layout ops marks node head ps)
    (hsim : Sim ops.length node head ps computePartial c B)
    (hinv : SearchInv model ops marks B) {i : ℕ} {l : List ℕ}
    (hl : c.longest[i]? = some (some l)) :
    PartialLinearization model ops marks l ∧ i ∈ l := by
  obtain ⟨hgiven, hi⟩ := hsim.longest.genuine i l hl
  obtain ⟨-, d, hwalk⟩ := hinv.givenUp l hgiven
  exact ⟨((walk_iff hlayout.wellFormed).mp hwalk).1, hi⟩

/-- When the search is over, every partial linearization has been taken back, or one of
the same operations. -/
theorem exists_givenUp (hlayout : Layout ops marks node head ps)
    (hinv : SearchInv model ops marks B)
    (hnone : B.step (space model ops marks) (seen model) = none) {l : List ℕ}
    (hl : PartialLinearization model ops marks l) (hne : l ≠ []) :
    ∃ path ∈ B.givenUp, path.toFinset = l.toFinset ∧ path.length = l.length ∧
      l.toFinset ≠ Finset.range ops.length := by
  obtain ⟨s, hs⟩ := Option.isSome_iff_exists.mp hl.legal
  have hwalk := (walk_iff (c := (l.toFinset, s)) hlayout.wellFormed).mpr ⟨hl, rfl, hs⟩
  obtain ⟨d, ⟨hset, -⟩, hgoal, path, hpath, hwalk'⟩ :=
    hinv.known_of_walk space_alike hnone hwalk hne
  obtain ⟨hpart, hset', -⟩ := (walk_iff hlayout.wellFormed).mp hwalk'
  have hsame : path.toFinset = l.toFinset := by rw [← hset', ← hset]
  refine ⟨path, hpath, hsame, ?_, fun hall => hgoal (hset ▸ hall)⟩
  rw [← List.toFinset_card_of_nodup hpart.nodup, hsame, List.toFinset_card_of_nodup hl.nodup]

/-- The search is over and has found nothing. -/
theorem answer_of_step_none (hlayout : Layout ops marks node head ps)
    (hsim : Sim ops.length node head ps computePartial c B)
    (hinv : SearchInv model ops marks B) (hgoal : B.config.1 ≠ Finset.range ops.length)
    (hnone : B.step (space model ops marks) (seen model) = none) :
    Answer model ops marks computePartial false false c.longest where
  sound hok := absurd hok Bool.false_ne_true
  complete := by
    rintro - - ⟨l, hl⟩
    obtain ⟨hpart, hset⟩ := (partialLinearization_iff hlayout.wellFormed).mpr hl
    have hstart : B.config = (∅, model.init) := by
      have hleads := hinv.leads
      rwa [(Backtrack.step_eq_none hnone).2] at hleads
    have hne : l ≠ [] := by
      rintro rfl
      refine hgoal ?_
      rw [hstart, ← hset]
      rfl
    obtain ⟨path, -, -, -, hnot⟩ := exists_givenUp hlayout hinv hnone hpart hne
    exact hnot hset
  genuine i l hl := hsim.genuine hlayout hinv hl
  longest := by
    intro _ hpartially l hl i hi
    obtain ⟨path, hpath, hset, hlength, -⟩ :=
      exists_givenUp hlayout hinv hnone hl (List.ne_nil_of_mem hi)
    have hmem : i ∈ path := by
      rw [← List.mem_toFinset, hset, List.mem_toFinset]
      exact hi
    obtain ⟨l', hl', hle⟩ := hsim.longest.longest hpartially path hpath i hmem
    exact ⟨l', hl', hlength ▸ hle⟩

theorem known_of_seen (hsound : model.EqualSound) (cache : List (Finset ℕ × S))
    (d : Finset ℕ × S) (h : seen model cache d = true) :
    Backtrack.Known (Like model) cache d := by
  obtain ⟨e, he, hequal⟩ := List.any_eq_true.mp h
  obtain ⟨hset, hstate⟩ := Bool.and_eq_true_iff.mp hequal
  exact ⟨e, he, of_decide_eq_true hset, hsound _ _ hstate⟩

/-- A round of the loop returns an answer or goes on with the search. -/
theorem Searching.step (hsound : model.EqualSound) {rounds : ℕ}
    (h : Searching model ops marks computePartial rounds c) (kill : Bool) :
    (∃ ok longest, c.step model computePartial kill = some (.returned ok longest) ∧
      Answer model ops marks computePartial kill ok longest) ∨
    kill = false ∧ ∃ c' rounds', rounds' < rounds ∧
      c.step model computePartial kill = some (.running c') ∧
      Searching model ops marks computePartial rounds' c' := by
  obtain ⟨node, head, ps, B, hlayout, hsim, hinv, hmeasure⟩ := h
  have hempty := hlayout.live_eq_nil_iff (hsim.stack.subset_range hlayout)
  by_cases hgoal : B.config.1 = Finset.range ops.length
  · have hwalk := (walk_iff hlayout.wellFormed).mp hinv.leads.walk
    refine Or.inl ⟨true, _, hsim.step_of_goal (hempty.mpr hgoal) kill, ?_⟩
    rw [List.map_const', hsim.longest.length]
    exact answer_of_linearizes hlayout.wellFormed hwalk.1 (hwalk.2.1 ▸ hgoal) kill
  · have hne : live node ps B.config.1 ≠ [] := fun hnil => hgoal (hempty.mp hnil)
    cases kill with
    | true =>
        refine Or.inl ⟨false, c.longest, hsim.step_of_kill hne, ?_, ?_, ?_, ?_⟩
        · exact fun hok => absurd hok Bool.false_ne_true
        · exact fun hkill => absurd hkill.symm Bool.false_ne_true
        · exact fun i l hl => hsim.genuine hlayout hinv hl
        · exact fun hkill => absurd hkill.symm Bool.false_ne_true
    | false =>
        rcases hsim.step model hlayout hne with
          ⟨hnone, hstep⟩ | ⟨c', B', hB, hstep, hsim'⟩
        · exact Or.inl ⟨false, c.longest, hstep,
            answer_of_step_none hlayout hsim hinv hgoal hnone⟩
        · have hinv' := hinv.step space_ranked space_alike (known_of_seen hsound) hgoal hB
          have hlt := Backtrack.measure_step space_ranked hB
          exact Or.inr ⟨rfl, c', _, hlt.trans_le hmeasure, hstep, node, head, ps, B', hlayout,
            hsim', hinv', le_rfl⟩

/-! ## The whole loop -/

/-- A bound on the number of the rounds for `n` operations. -/
def maxRounds (n : ℕ) : ℕ := 2 * n * Backtrack.cost (2 * n) n + 1

theorem searching_start (model : FullModel S I O) {entries : List (Entry I O)}
    (hrep : Represents ops entries) (computePartial : Bool) :
    Searching model ops (entries.map Entry.mark) computePartial (maxRounds ops.length)
      (.start model entries) := by
  obtain ⟨hlayout, hchain, hentry, hbits, hlongest⟩ := layout_start model hrep rfl
  generalize hc : Checking.start model entries = c at hlayout hchain hentry hbits hlongest ⊢
  have hlive : live c.heap.node (nodes entries.length) ∅ = nodes entries.length := by
    simp [live]
  refine ⟨_, _, _, Backtrack.init (space model ops (entries.map Entry.mark)) (∅, model.init),
    hlayout, ⟨rfl, rfl, ?_, ?_, ?_, ?_, ?_, ?_, ?_⟩, Backtrack.inv_init _, ?_⟩
  · rw [← hc]
    rfl
  · exact hbits ▸ Bitset.holds_newBitset ops.length
  · exact hlive.symm ▸ hchain
  · have hcursor := hlayout.cursor model ∅ model.init
    rw [hlive, ← hentry] at hcursor
    exact hcursor
  · rw [← hc]
    exact .nil
  · rw [← hc]
    exact cached_nil
  · exact hlongest ▸ recorded_replicate ops.length computePartial
  · have hranked : (space model ops (entries.map Entry.mark)).Ranked _ _ := space_ranked
    have hoptions := hranked.options (∅, model.init)
    rw [hrep.wellFormed.length_eq] at hoptions ⊢
    simp only [Backtrack.measure, Backtrack.init, Backtrack.left, List.map_nil, List.sum_nil,
      Nat.add_zero, Finset.sdiff_empty, Finset.card_range, maxRounds]
    exact Nat.succ_le_succ (Nat.mul_le_mul_right _ hoptions)

theorem Searching.run (hsound : model.EqualSound) {rounds fuel : ℕ}
    (h : Searching model ops marks computePartial rounds c) (hfuel : rounds < fuel) :
    ∃ ok longest, c.run model computePartial fuel = some (ok, longest) ∧
      Answer model ops marks computePartial false ok longest := by
  induction fuel generalizing rounds c with
  | zero => exact absurd hfuel (Nat.not_lt_zero rounds)
  | succ fuel ih =>
      rw [Checking.run]
      rcases h.step hsound false with ⟨ok, longest, hstep, hanswer⟩ |
        ⟨-, c', rounds', hlt, hstep, hsearch⟩
      · exact ⟨ok, longest, by rw [hstep], hanswer⟩
      · rw [hstep]
        exact ih hsearch (by omega)

end

/-! ## Histories of operations -/

/-- The operations of a history without their times. -/
def inputsOutputs (history : List (Operation I O)) : List (I × O) :=
  history.map fun op => (op.input, op.output)

/-- A history is linearizable if the model can take its operations one after the other, and
none before one that had returned when it was called. -/
def FullModel.Linearizable (model : FullModel S I O) (history : List (Operation I O)) : Prop :=
  HasLinearization (fun s op => model.take s (op.input, op.output))
    (fun a b : Operation I O => a.ret < b.call) model.init history

/-- The operations with the ids in `l` can be taken first, in this order: none of the others
had returned when one of them was called. -/
structure FullModel.PartiallyLinearizes (model : FullModel S I O)
    (history : List (Operation I O)) (l : List ℕ) : Prop where
  nodup : l.Nodup
  order : ∀ xs i ys, l = xs ++ i :: ys → ∀ j, j ∉ xs → ∀ a b : Operation I O,
    history[j]? = some a → history[i]? = some b → b.call ≤ a.ret
  legal : (exec (takeId model (inputsOutputs history)) model.init l).isSome

section

variable {history : List (Operation I O)} {entries : List (Entry I O)}

/-- The entries of a history are the calls and the returns of its operations. -/
theorem mem_rawEntries {id : ℕ} {e : Entry I O} :
    e ∈ rawEntries id history ↔ ∃ (i : ℕ) (op : Operation I O), history[i]? = some op ∧
      (e = op.callEntry (id + i) ∨ e = op.returnEntry (id + i)) := by
  induction history generalizing id with
  | nil => simp [rawEntries]
  | cons op history ih =>
      rw [rawEntries, List.mem_cons, List.mem_cons, ih]
      constructor
      · rintro (rfl | rfl | ⟨i, op', hget, he⟩)
        · exact ⟨0, op, rfl, Or.inl rfl⟩
        · exact ⟨0, op, rfl, Or.inr rfl⟩
        · rw [Nat.add_right_comm id 1 i] at he
          exact ⟨i + 1, op', hget, he⟩
      · rintro ⟨i, op', hget, he⟩
        cases i with
        | zero =>
            obtain rfl := Option.some.inj hget
            exact he.imp_right Or.inl
        | succ i =>
            refine Or.inr (Or.inr ⟨i, op', hget, ?_⟩)
            rwa [Nat.add_right_comm id 1 i]

theorem rawEntries_marks_nodup (id : ℕ) (history : List (Operation I O)) :
    ((rawEntries id history).map Entry.mark).Nodup := by
  induction history generalizing id with
  | nil => exact List.nodup_nil
  | cons op history ih =>
      have hlater : ∀ b, (b, id) ∉ (rawEntries (id + 1) history).map Entry.mark := by
        intro b hmem
        obtain ⟨e, he, hmark⟩ := List.mem_map.mp hmem
        have hid : e.id = id := (Prod.mk.inj hmark).2
        obtain ⟨i, op', -, rfl | rfl⟩ := mem_rawEntries.mp he
        · simp only [Operation.callEntry] at hid
          omega
        · simp only [Operation.returnEntry] at hid
          omega
      have hcall : (op.callEntry id).mark = (true, id) := rfl
      have hreturn : (op.returnEntry id).mark = (false, id) := rfl
      rw [rawEntries, List.map_cons, List.map_cons, hcall, hreturn, List.nodup_cons,
        List.nodup_cons, List.mem_cons]
      refine ⟨?_, hlater false, ih (id + 1)⟩
      rintro (heq | hmem)
      · cases heq
      · exact hlater true hmem

/-- A call and a return at the same time: the call comes first. -/
theorem callEntry_less_returnEntry (a b : Operation I O) (i j : ℕ) :
    (a.callEntry i).less (b.returnEntry j) = true ↔ a.call ≤ b.ret := by
  dsimp only [Entry.less, Operation.callEntry, Operation.returnEntry]
  by_cases h : a.call = b.ret
  · simp [h]
  · simp [h, le_iff_lt_or_eq]

theorem returnEntry_less_callEntry (a b : Operation I O) (i j : ℕ) :
    (a.returnEntry i).less (b.callEntry j) = true ↔ a.ret < b.call := by
  dsimp only [Entry.less, Operation.callEntry, Operation.returnEntry]
  by_cases h : a.ret = b.call
  · simp [h]
  · simp [h]

namespace MakesEntries

variable {i j : ℕ} {e : Entry I O}

theorem mem_iff (h : MakesEntries history entries) :
    e ∈ entries ↔ ∃ (i : ℕ) (op : Operation I O), history[i]? = some op ∧
      (e = op.callEntry i ∨ e = op.returnEntry i) := by
  rw [h.1.mem_iff, mem_rawEntries]
  simp only [Nat.zero_add]

theorem eq_callEntry (h : MakesEntries history entries) (he : e ∈ entries)
    (hmark : e.mark = (true, i)) : ∃ op, history[i]? = some op ∧ e = op.callEntry i := by
  obtain ⟨i', op, hop, rfl | rfl⟩ := h.mem_iff.mp he
  · obtain rfl : i' = i := (Prod.mk.inj hmark).2
    exact ⟨op, hop, rfl⟩
  · cases hmark

theorem eq_returnEntry (h : MakesEntries history entries) (he : e ∈ entries)
    (hmark : e.mark = (false, i)) : ∃ op, history[i]? = some op ∧ e = op.returnEntry i := by
  obtain ⟨i', op, hop, rfl | rfl⟩ := h.mem_iff.mp he
  · cases hmark
  · obtain rfl : i' = i := (Prod.mk.inj hmark).2
    exact ⟨op, hop, rfl⟩

/-- The order of the entries is that of time: a return stands before a call if and only
if it was earlier. -/
theorem precedes_iff (h : MakesEntries history entries) :
    Precedes (entries.map Entry.mark) i j ↔
      ∃ a b, history[i]? = some a ∧ history[j]? = some b ∧ a.ret < b.call := by
  constructor
  · intro hprecedes
    obtain ⟨l, hsub, hmarks⟩ := List.sublist_map_iff.mp hprecedes
    obtain ⟨r, l, rfl, hr, hl⟩ := List.map_eq_cons_iff.mp hmarks.symm
    obtain ⟨c, l, rfl, hc, hnil⟩ := List.map_eq_cons_iff.mp hl
    obtain rfl := List.map_eq_nil_iff.mp hnil
    obtain ⟨a, ha, rfl⟩ := h.eq_returnEntry (hsub.subset (by simp)) hr
    obtain ⟨b, hb, rfl⟩ := h.eq_callEntry (hsub.subset (by simp)) hc
    refine ⟨a, b, ha, hb, ?_⟩
    have hless := List.pairwise_iff_forall_sublist.mp h.2 hsub
    rw [← Bool.not_eq_true, callEntry_less_returnEntry] at hless
    exact not_le.mp hless
  · rintro ⟨a, b, ha, hb, hlt⟩
    have hr : a.returnEntry i ∈ entries := h.mem_iff.mpr ⟨i, a, ha, Or.inr rfl⟩
    have hc : b.callEntry j ∈ entries := h.mem_iff.mpr ⟨j, b, hb, Or.inl rfl⟩
    obtain ⟨xs, ys, hsplit⟩ := List.append_of_mem hr
    rw [hsplit, List.mem_append, List.mem_cons] at hc
    rcases hc with hc | hc | hc
    · have hsub : [b.callEntry j, a.returnEntry i].Sublist entries := by
        rw [hsplit]
        exact (List.singleton_sublist.mpr hc).append
          (List.singleton_sublist.mpr List.mem_cons_self)
      have hless := List.pairwise_iff_forall_sublist.mp h.2 hsub
      rw [← Bool.not_eq_true, returnEntry_less_callEntry] at hless
      exact absurd hlt hless
    · cases hc
    · have hsub : [a.returnEntry i, b.callEntry j].Sublist entries := by
        rw [hsplit]
        exact ((List.singleton_sublist.mpr hc).cons_cons _).trans (List.sublist_append_right _ _)
      exact hsub.map Entry.mark

theorem represents (h : MakesEntries history entries)
    (hvalid : ∀ op ∈ history, op.call ≤ op.ret) :
    Represents (inputsOutputs history) entries := by
  refine ⟨⟨?_, fun b i => ?_, fun i hprecedes => ?_⟩, fun e he hkind => ?_, fun e he hkind => ?_⟩
  · exact (h.1.map Entry.mark).nodup_iff.mpr (rawEntries_marks_nodup 0 history)
  · rw [inputsOutputs, List.length_map]
    constructor
    · intro hmem
      obtain ⟨e, he, hmark⟩ := List.mem_map.mp hmem
      obtain ⟨i', op, hop, rfl | rfl⟩ := h.mem_iff.mp he
      · exact (Prod.mk.inj hmark).2 ▸ (List.getElem?_eq_some_iff.mp hop).1
      · exact (Prod.mk.inj hmark).2 ▸ (List.getElem?_eq_some_iff.mp hop).1
    · intro hlt
      have hop := List.getElem?_eq_getElem hlt
      cases b with
      | true => exact List.mem_map.mpr ⟨_, h.mem_iff.mpr ⟨i, _, hop, Or.inl rfl⟩, rfl⟩
      | false => exact List.mem_map.mpr ⟨_, h.mem_iff.mpr ⟨i, _, hop, Or.inr rfl⟩, rfl⟩
  · obtain ⟨a, b, ha, hb, hlt⟩ := h.precedes_iff.mp hprecedes
    obtain rfl := Option.some.inj (ha.symm.trans hb)
    exact absurd hlt (not_lt.mpr (hvalid a (List.mem_of_getElem? ha)))
  · obtain ⟨i, op, hop, rfl | rfl⟩ := h.mem_iff.mp he
    · exact ⟨(op.input, op.output), by simp [inputsOutputs, Operation.callEntry, hop], rfl⟩
    · cases hkind
  · obtain ⟨i, op, hop, rfl | rfl⟩ := h.mem_iff.mp he
    · cases hkind
    · exact ⟨(op.input, op.output), by simp [inputsOutputs, Operation.returnEntry, hop], rfl⟩

/-- The search by ids looks for the linearizations of the history. -/
theorem hasLinearization_iff (h : MakesEntries history entries) (model : FullModel S I O) :
    HasLinearization (takeId model (inputsOutputs history)) (Precedes (entries.map Entry.mark))
      model.init (List.range (inputsOutputs history).length) ↔ model.Linearizable history := by
  have hlength : (inputsOutputs history).length = history.length := List.length_map _
  have hhistory : model.Linearizable history ↔
      HasLinearization (fun s (op : Operation I O) => model.take s (op.input, op.output))
        (fun a b => a.ret < b.call) model.init
        ((List.finRange history.length).map history.get) := by
    rw [List.map_get_finRange]
    rfl
  rw [hhistory, hasLinearization_map_iff, hlength, ← List.map_coe_finRange_eq_range,
    hasLinearization_map_iff]
  have htake : (fun s (a : Fin history.length) => takeId model (inputsOutputs history) s a) =
      fun s a => model.take s ((history.get a).input, (history.get a).output) := by
    funext s a
    simp [takeId, inputsOutputs]
  have hbefore : (fun a b : Fin history.length => Precedes (entries.map Entry.mark) a b) =
      fun a b => (history.get a).ret < (history.get b).call := by
    funext a b
    rw [h.precedes_iff]
    simp
  rw [htake, hbefore]

theorem partialLinearization_iff (h : MakesEntries history entries) (model : FullModel S I O)
    {l : List ℕ} :
    PartialLinearization model (inputsOutputs history) (entries.map Entry.mark) l ↔
      model.PartiallyLinearizes history l := by
  constructor
  · rintro ⟨hnodup, horder, hlegal⟩
    refine ⟨hnodup, fun xs i ys hsplit j hj a b ha hb => ?_, hlegal⟩
    exact not_lt.mp fun hlt => horder xs i ys hsplit j hj (h.precedes_iff.mpr ⟨a, b, ha, hb, hlt⟩)
  · rintro ⟨hnodup, horder, hlegal⟩
    refine ⟨hnodup, fun xs i ys hsplit j hj hprecedes => ?_, hlegal⟩
    obtain ⟨a, b, ha, hb, hlt⟩ := h.precedes_iff.mp hprecedes
    exact absurd (horder xs i ys hsplit j hj a b ha hb) (not_le.mpr hlt)

end MakesEntries

/-- What `checkSingle` returns, after a bounded number of rounds. -/
theorem checkSingle_answer {model : FullModel S I O} (hsound : model.EqualSound)
    (hmake : MakesEntries history entries) (hvalid : ∀ op ∈ history, op.call ≤ op.ret)
    (computePartial : Bool) {fuel : ℕ} (hfuel : maxRounds history.length < fuel) :
    ∃ ok longest, checkSingle model entries computePartial fuel = some (ok, longest) ∧
      Answer model (inputsOutputs history) (entries.map Entry.mark) computePartial false ok
        longest := by
  refine (searching_start model (hmake.represents hvalid) computePartial).run hsound ?_
  rwa [inputsOutputs, List.length_map]

/-- `checkSingle` does not panic, it returns after a bounded number of rounds, and its
answer is whether the history is linearizable. -/
theorem checkSingle_iff_linearizable {model : FullModel S I O} (hsound : model.EqualSound)
    (hmake : MakesEntries history entries) (hvalid : ∀ op ∈ history, op.call ≤ op.ret)
    (computePartial : Bool) {fuel : ℕ} (hfuel : maxRounds history.length < fuel) :
    ∃ ok longest, checkSingle model entries computePartial fuel = some (ok, longest) ∧
      (ok = true ↔ model.Linearizable history) := by
  obtain ⟨ok, longest, hrun, hanswer⟩ :=
    checkSingle_answer hsound hmake hvalid computePartial hfuel
  refine ⟨ok, longest, hrun, ?_⟩
  rw [← hmake.hasLinearization_iff]
  refine ⟨hanswer.sound, fun hlin => ?_⟩
  cases ok with
  | true => rfl
  | false => exact absurd hlin (hanswer.complete rfl rfl)

/-- What `checkSingle` gives for an operation is a partial linearization with it, and none
is longer; if it gives nothing, there is none. -/
theorem checkSingle_longest {model : FullModel S I O} (hsound : model.EqualSound)
    (hmake : MakesEntries history entries) (hvalid : ∀ op ∈ history, op.call ≤ op.ret)
    {fuel : ℕ} (hfuel : maxRounds history.length < fuel) :
    ∃ ok longest, checkSingle model entries true fuel = some (ok, longest) ∧
      ∀ i, (∀ l, longest[i]? = some (some l) → model.PartiallyLinearizes history l ∧ i ∈ l) ∧
        ∀ l, model.PartiallyLinearizes history l → i ∈ l →
          ∃ l', longest[i]? = some (some l') ∧ l.length ≤ l'.length := by
  obtain ⟨ok, longest, hrun, hanswer⟩ := checkSingle_answer hsound hmake hvalid true hfuel
  refine ⟨ok, longest, hrun, fun i => ⟨fun l hl => ?_, fun l hl hi => ?_⟩⟩
  · obtain ⟨hpart, hi⟩ := hanswer.genuine i l hl
    exact ⟨(hmake.partialLinearization_iff model).mp hpart, hi⟩
  · exact hanswer.longest rfl rfl l ((hmake.partialLinearization_iff model).mpr hl) i hi

end

theorem equalSound_fillDefault [DecidableEq S] {model : Model S I O} (h : model.equal = none) :
    (fillDefault model).EqualSound := by
  intro s t hequal
  obtain rfl : s = t := by simpa [fillDefault, h, shallowEqual] using hequal
  exact FullModel.same_equivalence.refl s

/-! A put and a get that overlap. -/

def putOfA : KvOperation :=
  { clientId := 0
    input := { op := 1, key := "x", value := "a" }
    call := 0
    output := {}
    ret := 2 }

def getOfA : KvOperation :=
  { clientId := 1
    input := { op := 0, key := "x" }
    call := 1
    output := { value := "a" }
    ret := 3 }

def overlapping : List KvOperation := [putOfA, getOfA]

def overlappingEntries : List (Entry KvInput KvOutput) :=
  [putOfA.callEntry 0, getOfA.callEntry 1, putOfA.returnEntry 0, getOfA.returnEntry 1]

theorem makesEntries_overlapping : MakesEntries overlapping overlappingEntries :=
  ⟨by decide, by decide⟩

theorem checkSingle_iff_linearizable_overlapping :
    ∃ ok longest,
      checkSingle (fillDefault kvModel) overlappingEntries false 190 = some (ok, longest) ∧
        (ok = true ↔ (fillDefault kvModel).Linearizable overlapping) :=
  checkSingle_iff_linearizable (equalSound_fillDefault rfl) makesEntries_overlapping (by decide)
    false (by decide)

theorem checkSingle_longest_overlapping :
    ∃ ok longest,
      checkSingle (fillDefault kvModel) overlappingEntries true 190 = some (ok, longest) ∧
        ∀ i, (∀ l, longest[i]? = some (some l) →
            (fillDefault kvModel).PartiallyLinearizes overlapping l ∧ i ∈ l) ∧
          ∀ l, (fillDefault kvModel).PartiallyLinearizes overlapping l → i ∈ l →
            ∃ l', longest[i]? = some (some l') ∧ l.length ≤ l'.length :=
  checkSingle_longest (equalSound_fillDefault rfl) makesEntries_overlapping (by decide) (by decide)

end Porcupine

end DistributedLabs
