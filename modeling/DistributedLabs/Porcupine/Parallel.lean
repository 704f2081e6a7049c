import Mathlib.Algebra.BigOperators.Group.Finset.Basic
import Mathlib.Algebra.Order.BigOperators.Group.Finset
import Mathlib.Data.List.ReduceOption
import DistributedLabs.Porcupine.Verdict

/-!
# Checking the parts of a history in parallel

`checkParallel` starts a goroutine for each part and collects their answers from a
channel, until it knows the result or the time is over. Then it sets the flag `kill`, at
which a goroutine that is still checking returns false. This false is no answer; the
result must not be made from it, in any interleaving.
-/

namespace DistributedLabs

namespace Porcupine

/-- A goroutine of `checkParallel`. -/
inductive Worker (S I O : Type) where
  | checking (c : Checking S I O)
  /-- `checkSingle` has returned. -/
  | returned (ok : Bool) (longest : Longest)
  /-- `longest[i]` is stored. -/
  | sending (ok : Bool)
  /-- `ok` has been sent. -/
  | finished (ok : Bool)

inductive CheckResult where
  | unknown
  | ok
  | illegal
deriving DecidableEq, Repr

/-- The partial linearizations of one part. -/
abbrev Partials := List (List ℕ)

/-- Where `checkParallel` itself is. -/
inductive Phase where
  /-- At the `select`. -/
  | collecting
  /-- Before `kill` is set. -/
  | killing
  /-- After the loop. -/
  | waiting
  | returned (result : CheckResult) (info : List Partials)
deriving DecidableEq, Repr

structure Parallel (S I O : Type) where
  workers : List (Worker S I O)
  longest : List Longest
  /-- What is in the channel. -/
  results : List Bool := []
  kill : Bool := false
  ok : Bool := true
  timedOut : Bool := false
  count : ℕ := 0
  phase : Phase := .collecting

/-- The sequences of `longest` without repetitions. The source has a set of pointers, whose
order is arbitrary. -/
def partials (longest : Longest) : Partials := longest.reduceOption.dedup

def Outcome.worker {S I O : Type} : Outcome S I O → Worker S I O
  | .running c => .checking c
  | .returned ok longest => .returned ok longest

def Worker.isFinished {S I O : Type} : Worker S I O → Bool
  | .finished _ => true
  | _ => false

namespace Parallel

variable {S I O : Type}

def start (model : FullModel S I O) (history : List (List (Entry I O))) : Parallel S I O :=
  { workers := history.map fun subhistory => .checking (.start model subhistory)
    longest := history.map fun _ => [] }

variable (model : FullModel S I O) (computeInfo hasTimeout : Bool) (s : Parallel S I O)

/-- A step of the goroutine `i`. The channel has room for one result of each. -/
def run (i : ℕ) : Option (Parallel S I O) :=
  match s.workers[i]? with
  | none => none
  | some (.checking c) =>
      (c.step model computeInfo s.kill).map fun o =>
        { s with workers := s.workers.set i o.worker }
  | some (.returned ok longest) =>
      some
        { s with longest := s.longest.set i longest, workers := s.workers.set i (.sending ok) }
  | some (.sending ok) =>
      if s.results.length < s.workers.length then
        some { s with results := s.results ++ [ok], workers := s.workers.set i (.finished ok) }
      else none
  | some (.finished _) => none

/-- `case result := <-results` -/
def collect (result : Bool) (results : List Bool) : Parallel S I O :=
  let count := s.count + 1
  let ok := s.ok && result
  { s with
    results := results
    count := count
    ok := ok
    phase :=
      if !ok && !computeInfo then .killing
      else if count ≥ s.workers.length then .waiting
      else .collecting }

/-- A result is received, in the loop or, to wait for all goroutines, after it. -/
def receive : Option (Parallel S I O) :=
  match s.results with
  | [] => none
  | result :: results =>
    match s.phase with
    | .collecting => some (s.collect computeInfo result results)
    | .waiting =>
        if computeInfo ∧ s.count < s.workers.length then
          some { s with results := results, count := s.count + 1 }
        else none
    | _ => none

/-- `case <-timeoutChan`; without a timeout the channel is `nil`. -/
def timeout : Option (Parallel S I O) :=
  match s.phase with
  | .collecting => if hasTimeout then some { s with timedOut := true, phase := .killing } else none
  | _ => none

def result : CheckResult := if !s.ok then .illegal else if s.timedOut then .unknown else .ok

def info : List Partials := if computeInfo then s.longest.map partials else []

/-- `checkParallel` sets `kill`, or returns. -/
def next : Option (Parallel S I O) :=
  match s.phase with
  | .killing => some { s with kill := true, phase := .waiting }
  | .waiting =>
      if computeInfo ∧ s.count < s.workers.length then none
      else some { s with phase := .returned s.result (s.info computeInfo) }
  | _ => none

inductive Act where
  | run (i : ℕ)
  | receive
  | timeout
  | next
deriving DecidableEq, Repr

def step (s : Parallel S I O) (a : Act) : Option (Parallel S I O) :=
  match a with
  | .run i => s.run model computeInfo i
  | .receive => s.receive computeInfo
  | .timeout => s.timeout hasTimeout
  | .next => s.next computeInfo

end Parallel

/-! ## What holds in every interleaving -/

/-- A part of a history: its operations and the marks of its entries. -/
abbrev Part (I O : Type) := List (I × O) × List Mark

section

variable {S I O : Type} (model : FullModel S I O) (computeInfo hasTimeout : Bool)

def Part.Linearizable (part : Part I O) : Prop :=
  HasLinearization (takeId model part.1) (Precedes part.2) model.init
    (List.range part.1.length)

/-- What a goroutine has found out, where `longest` is stored for it, and a bound on its
steps that are left. -/
def Worker.Fine (part : Part I O) (kill : Bool) (longest : Longest) (steps : ℕ) :
    Worker S I O → Prop
  | .checking c =>
      ∃ rounds, Searching model part.1 part.2 computeInfo rounds c ∧ rounds + 3 ≤ steps
  | .returned ok l => Answer model part.1 part.2 computeInfo kill ok l ∧ 2 ≤ steps
  | .sending ok => Answer model part.1 part.2 computeInfo kill ok longest ∧ 1 ≤ steps
  | .finished ok => Answer model part.1 part.2 computeInfo kill ok longest

/-- What the result and the partial linearizations tell about the parts. -/
structure Parallel.Verdict {α : Type} (linearizable : α → Prop)
    (partiallyLinearizes : α → List ℕ → Prop) (parts : List α) (result : CheckResult)
    (info : List Partials) : Prop where
  ok : result = .ok → ∀ part ∈ parts, linearizable part
  illegal : result = .illegal → ∃ part ∈ parts, ¬ linearizable part
  unknown : result = .unknown → hasTimeout = true
  genuine : computeInfo = true → ∀ (i : ℕ) (part : α), parts[i]? = some part →
    ∃ partials : Partials, info[i]? = some partials ∧ ∀ l ∈ partials, partiallyLinearizes part l
  longest : computeInfo = true → hasTimeout = false →
    ∀ (i : ℕ) (part : α), parts[i]? = some part →
      ∃ partials : Partials, info[i]? = some partials ∧ ∀ l, partiallyLinearizes part l →
        ∀ j ∈ l, ∃ l' ∈ partials, j ∈ l' ∧ l.length ≤ l'.length

/-- All goroutines are fine. -/
structure Parallel.Workers (parts : List (Part I O)) (steps : ℕ → ℕ) (s : Parallel S I O) :
    Prop where
  length : s.workers.length = parts.length
  fine : ∀ (i : ℕ) (part : Part I O), parts[i]? = some part → ∃ (w : Worker S I O) (l : Longest),
    s.workers[i]? = some w ∧ s.longest[i]? = some l ∧
      w.Fine model computeInfo part s.kill l (steps i)

/-- The invariant of `checkParallel`. -/
structure Parallel.Inv (parts : List (Part I O)) (steps : ℕ → ℕ) (s : Parallel S I O) : Prop where
  workers : Workers model computeInfo parts steps s
  sent : s.workers.countP Worker.isFinished = s.count + s.results.length
  /-- As long as nothing is killed, a false in the channel is an answer. -/
  pending : s.kill = false → false ∈ s.results → ∃ part ∈ parts, ¬ part.Linearizable model
  failed : s.ok = false → ∃ part ∈ parts, ¬ part.Linearizable model
  unseen : s.ok = true → s.timedOut = false → .finished false ∈ s.workers → false ∈ s.results
  collecting : s.phase = .collecting →
    s.kill = false ∧ s.timedOut = false ∧ (parts ≠ [] → s.count < parts.length)
  killing : s.phase = .killing → s.timedOut = true ∨ s.ok = false ∧ computeInfo = false
  ended : s.phase ≠ .collecting →
    s.timedOut = true ∨ s.ok = false ∧ computeInfo = false ∨ parts.length ≤ s.count
  killed : s.kill = true → s.timedOut = true ∨ computeInfo = false
  timed : s.timedOut = true → hasTimeout = true
  /-- With `computeInfo` all results have been received at the end. -/
  waited : ∀ result info, s.phase = .returned result info → computeInfo = true →
    parts.length ≤ s.count
  verdict : ∀ result info, s.phase = .returned result info →
    Verdict computeInfo hasTimeout (Part.Linearizable model)
      (fun part => PartialLinearization model part.1 part.2) parts result info

end

section

variable {S I O : Type} {model : FullModel S I O} {computeInfo hasTimeout : Bool}
  {parts : List (Part I O)} {steps : ℕ → ℕ} {s : Parallel S I O}

theorem Answer.kill {ops : List (I × O)} {marks : List Mark} {killed ok : Bool}
    {longest : Longest} (h : Answer model ops marks computeInfo killed ok longest) :
    Answer model ops marks computeInfo true ok longest where
  sound := h.sound
  complete hkill := absurd hkill.symm Bool.false_ne_true
  genuine := h.genuine
  longest hkill := absurd hkill.symm Bool.false_ne_true

theorem Worker.Fine.kill {part : Part I O} {kill : Bool} {longest : Longest} {k : ℕ}
    {w : Worker S I O} (h : w.Fine model computeInfo part kill longest k) :
    w.Fine model computeInfo part true longest k := by
  cases w with
  | checking c => exact h
  | returned ok l => exact ⟨h.1.kill, h.2⟩
  | sending ok => exact ⟨h.1.kill, h.2⟩
  | finished ok => exact Answer.kill h

namespace Parallel

/-- A bound on the steps that are left to all goroutines and to `checkParallel`. -/
def total (parts : List (Part I O)) (steps : ℕ → ℕ) (s : Parallel S I O) : ℕ :=
  ∑ i ∈ Finset.range parts.length, steps i + (parts.length - s.count) +
    match s.phase with
    | .collecting => 3
    | .killing => 2
    | .waiting => 1
    | .returned _ _ => 0

/-- One goroutine does a step. -/
theorem Workers.set (h : Workers model computeInfo parts steps s) {i k : ℕ} {part : Part I O}
    (hpart : parts[i]? = some part) {w : Worker S I O} {l : Longest} {s' : Parallel S I O}
    (hworkers : s'.workers = s.workers.set i w) (hlongest : s'.longest[i]? = some l)
    (hother : ∀ j, j ≠ i → s'.longest[j]? = s.longest[j]?) (hkill : s'.kill = s.kill)
    (hw : w.Fine model computeInfo part s.kill l k) :
    Workers model computeInfo parts (Function.update steps i k) s' := by
  have hi : i < s.workers.length := h.length ▸ (List.getElem?_eq_some_iff.mp hpart).1
  refine ⟨by rw [hworkers, List.length_set, h.length], fun j part' hpart' => ?_⟩
  rw [hworkers, hkill]
  by_cases hj : j = i
  · subst hj
    obtain rfl := Option.some.inj (hpart.symm.trans hpart')
    exact ⟨w, l, List.getElem?_set_self hi, hlongest, by rwa [Function.update_self]⟩
  · rw [List.getElem?_set_ne (Ne.symm hj), hother j hj, Function.update_of_ne hj]
    exact h.fine j part' hpart'

theorem total_update_lt {i k : ℕ} (hi : i < parts.length) (hk : k < steps i)
    {s' : Parallel S I O} (hcount : s'.count = s.count) (hphase : s'.phase = s.phase) :
    total parts (Function.update steps i k) s' < total parts steps s := by
  have hsum : ∑ j ∈ Finset.range parts.length, Function.update steps i k j <
      ∑ j ∈ Finset.range parts.length, steps j := by
    refine Finset.sum_lt_sum (fun j _ => ?_) ⟨i, Finset.mem_range.mpr hi, ?_⟩
    · by_cases hj : j = i
      · rw [hj, Function.update_self]
        exact hk.le
      · rw [Function.update_of_ne hj]
    · rwa [Function.update_self]
  unfold total
  rw [hcount, hphase]
  exact Nat.add_lt_add_right (Nat.add_lt_add_right hsum _) _

theorem countP_set_eq {i : ℕ} {w w' : Worker S I O} {workers : List (Worker S I O)}
    (hw : workers[i]? = some w) (hunfinished : w.isFinished = false) :
    (workers.set i w').countP Worker.isFinished =
      workers.countP Worker.isFinished + if w'.isFinished then 1 else 0 := by
  obtain ⟨hi, hget⟩ := List.getElem?_eq_some_iff.mp hw
  rw [List.countP_set hi, hget, hunfinished]
  simp

/-- A goroutine gets on, but does not send. -/
theorem Inv.advance (h : Inv model computeInfo hasTimeout parts steps s) {i k : ℕ}
    {part : Part I O} (hpart : parts[i]? = some part) {w w' : Worker S I O}
    (hw : s.workers[i]? = some w) (hunfinished : w.isFinished = false)
    (hunfinished' : w'.isFinished = false) {longest : List Longest} {l : Longest}
    (hlongest : longest[i]? = some l) (hother : ∀ j, j ≠ i → longest[j]? = s.longest[j]?)
    (hfine : w'.Fine model computeInfo part s.kill l k) :
    Inv model computeInfo hasTimeout parts (Function.update steps i k)
      { s with workers := s.workers.set i w', longest := longest } where
  workers := h.workers.set hpart rfl hlongest hother rfl hfine
  sent := by
    rw [countP_set_eq hw hunfinished, hunfinished']
    exact h.sent
  pending := h.pending
  failed := h.failed
  unseen := by
    intro hok htimed hmem
    rcases List.mem_or_eq_of_mem_set hmem with hmem | rfl
    · exact h.unseen hok htimed hmem
    · cases hunfinished'
  collecting := h.collecting
  killing := h.killing
  ended := h.ended
  killed := h.killed
  timed := h.timed
  waited := h.waited
  verdict := h.verdict

/-- A goroutine sends what it has found. -/
theorem Inv.send (h : Inv model computeInfo hasTimeout parts steps s) {i k : ℕ}
    {part : Part I O} (hpart : parts[i]? = some part) {ok : Bool}
    (hw : s.workers[i]? = some (.sending ok)) {l : Longest} (hl : s.longest[i]? = some l)
    (hanswer : Answer model part.1 part.2 computeInfo s.kill ok l) :
    Inv model computeInfo hasTimeout parts (Function.update steps i k)
      { s with results := s.results ++ [ok], workers := s.workers.set i (.finished ok) } where
  workers := h.workers.set hpart rfl hl (fun _ _ => rfl) rfl hanswer
  sent := by
    rw [countP_set_eq hw rfl, h.sent, List.length_append]
    rfl
  pending := by
    intro hkill hmem
    rcases List.mem_append.mp hmem with hmem | hmem
    · exact h.pending hkill hmem
    · exact ⟨part, List.mem_of_getElem? hpart,
        hanswer.complete hkill (List.mem_singleton.mp hmem).symm⟩
  failed := h.failed
  unseen := by
    intro hok htimed hmem
    rcases List.mem_or_eq_of_mem_set hmem with hmem | heq
    · exact List.mem_append_left _ (h.unseen hok htimed hmem)
    · obtain rfl := Worker.finished.inj heq
      exact List.mem_append_right _ (List.mem_singleton_self _)
  collecting := h.collecting
  killing := h.killing
  ended := h.ended
  killed := h.killed
  timed := h.timed
  waited := h.waited
  verdict := h.verdict

/-- A goroutine that has not finished can do its next step. -/
theorem Inv.exists_run (hsound : model.EqualSound)
    (h : Inv model computeInfo hasTimeout parts steps s) {i : ℕ} {w : Worker S I O}
    (hw : s.workers[i]? = some w) (hunfinished : w.isFinished = false) :
    ∃ s' steps', s.run model computeInfo i = some s' ∧
      Inv model computeInfo hasTimeout parts steps' s' ∧
      total parts steps' s' < total parts steps s := by
  have hi : i < parts.length := h.workers.length ▸ (List.getElem?_eq_some_iff.mp hw).1
  have hpart := List.getElem?_eq_getElem hi
  obtain ⟨w', l, hw', hl, hfine⟩ := h.workers.fine i _ hpart
  obtain rfl := Option.some.inj (hw.symm.trans hw')
  unfold run
  rw [hw]
  cases w with
  | checking c =>
      dsimp only
      obtain ⟨rounds, hsearch, hle⟩ := hfine
      rcases hsearch.step hsound s.kill with ⟨ok, longest, hstep, hanswer⟩ |
        ⟨-, c', rounds', hlt, hstep, hsearch'⟩
      · refine ⟨_, Function.update steps i 2, by rw [hstep]; rfl, ?_, ?_⟩
        · exact h.advance hpart hw rfl rfl hl (fun _ _ => rfl) ⟨hanswer, le_rfl⟩
        · exact total_update_lt hi (by omega) rfl rfl
      · refine ⟨_, Function.update steps i (rounds' + 3), by rw [hstep]; rfl, ?_, ?_⟩
        · exact h.advance hpart hw rfl rfl hl (fun _ _ => rfl) ⟨rounds', hsearch', le_rfl⟩
        · exact total_update_lt hi (by omega) rfl rfl
  | returned ok longest =>
      obtain ⟨hanswer, hle⟩ := hfine
      have hset : (s.longest.set i longest)[i]? = some longest :=
        List.getElem?_set_self (List.getElem?_eq_some_iff.mp hl).1
      refine ⟨_, Function.update steps i 1, rfl, ?_, total_update_lt hi (by omega) rfl rfl⟩
      exact h.advance hpart hw rfl rfl hset (fun j hj => List.getElem?_set_ne (Ne.symm hj))
        ⟨hanswer, le_rfl⟩
  | sending ok =>
      obtain ⟨hanswer, hle⟩ := hfine
      have hroom : s.results.length < s.workers.length := by
        have hcount : s.workers.countP Worker.isFinished < s.workers.length := by
          refine lt_of_le_of_ne List.countP_le_length fun hall => ?_
          exact Bool.false_ne_true (List.countP_eq_length.mp hall _ (List.mem_of_getElem? hw))
        have hsent := h.sent
        omega
      refine ⟨_, Function.update steps i 0, if_pos hroom, h.send hpart hw hl hanswer, ?_⟩
      exact total_update_lt hi (by omega) rfl rfl
  | finished ok => cases hunfinished

/-- A result is received in the loop. -/
theorem Inv.collect (h : Inv model computeInfo hasTimeout parts steps s) {result : Bool}
    {results : List Bool} (hresults : s.results = result :: results)
    (hphase : s.phase = .collecting) :
    Inv model computeInfo hasTimeout parts steps (s.collect computeInfo result results) ∧
      total parts steps (s.collect computeInfo result results) < total parts steps s := by
  obtain ⟨hkill, htimed, -⟩ := h.collecting hphase
  have hlength := h.workers.length
  have hsent := h.sent
  rw [hresults, List.length_cons] at hsent
  have hle : s.count + 1 ≤ parts.length := by
    have hcount : s.workers.countP Worker.isFinished ≤ s.workers.length := List.countP_le_length
    omega
  have hmem : false ∈ results → false ∈ s.results := fun hfalse =>
    hresults ▸ List.mem_cons_of_mem result hfalse
  have hgoes : ∀ r info, (s.collect computeInfo result results).phase ≠ .returned r info := by
    intro r info hreturned
    simp only [Parallel.collect] at hreturned
    split at hreturned
    · cases hreturned
    · split at hreturned
      · cases hreturned
      · cases hreturned
  refine ⟨⟨⟨h.workers.length, h.workers.fine⟩, ?_, fun hk hfalse => h.pending hk (hmem hfalse),
    ?_, ?_, ?_, ?_, ?_, h.killed, h.timed, fun r info hno => absurd hno (hgoes r info),
    fun r info hno => absurd hno (hgoes r info)⟩, ?_⟩
  · simp only [Parallel.collect]
    omega
  · intro hok
    rcases Bool.and_eq_false_iff.mp hok with hok | rfl
    · exact h.failed hok
    · exact h.pending hkill (hresults ▸ List.mem_cons_self)
  · intro hok _ hfinished
    obtain ⟨hold, hresult⟩ := Bool.and_eq_true_iff.mp hok
    have hfalse := h.unseen hold htimed hfinished
    rw [hresults, hresult, List.mem_cons] at hfalse
    exact hfalse.resolve_left Bool.false_ne_true
  · intro hcollecting
    refine ⟨hkill, htimed, fun _ => ?_⟩
    simp only [Parallel.collect] at hcollecting ⊢
    split at hcollecting
    · cases hcollecting
    · split at hcollecting
      · cases hcollecting
      · omega
  · intro hkilling
    simp only [Parallel.collect] at hkilling ⊢
    split at hkilling
    · rename_i hstop
      rw [Bool.and_eq_true, Bool.not_eq_true', Bool.not_eq_true'] at hstop
      exact Or.inr hstop
    · split at hkilling
      · cases hkilling
      · cases hkilling
  · intro hover
    simp only [Parallel.collect] at hover ⊢
    split at hover
    · rename_i hstop
      rw [Bool.and_eq_true, Bool.not_eq_true', Bool.not_eq_true'] at hstop
      exact Or.inr (Or.inl hstop)
    · split at hover
      · rename_i hall
        exact Or.inr (Or.inr (hlength ▸ hall))
      · exact absurd rfl hover
  · simp only [total, Parallel.collect, hphase]
    split <;> omega

theorem Inv.receive (h : Inv model computeInfo hasTimeout parts steps s) {s' : Parallel S I O}
    (hs : s.receive computeInfo = some s') :
    Inv model computeInfo hasTimeout parts steps s' ∧
      total parts steps s' < total parts steps s := by
  cases hresults : s.results with
  | nil =>
      rw [Parallel.receive, hresults] at hs
      cases hs
  | cons result results =>
      cases hphase : s.phase with
      | collecting =>
          rw [Parallel.receive, hresults, hphase] at hs
          obtain rfl := Option.some.inj hs
          exact h.collect hresults hphase
      | killing =>
          rw [Parallel.receive, hresults, hphase] at hs
          cases hs
      | waiting =>
          rw [Parallel.receive, hresults, hphase] at hs
          obtain ⟨⟨hinfo, hcount⟩, hs⟩ := Option.ite_none_right_eq_some.mp hs
          obtain rfl := Option.some.inj hs
          rw [h.workers.length] at hcount
          -- results are left to be received only if the time was over
          have htimed : s.timedOut = true := by
            rcases h.ended (by rw [hphase]; exact Phase.noConfusion) with
              htimed | ⟨-, hno⟩ | hall
            · exact htimed
            · exact absurd (hinfo.symm.trans hno).symm Bool.false_ne_true
            · omega
          have hsent := h.sent
          rw [hresults, List.length_cons] at hsent
          refine ⟨⟨⟨h.workers.length, h.workers.fine⟩, ?_, fun hk hfalse => h.pending hk ?_,
            h.failed, fun _ hno => ?_, fun hno => ?_, fun hno => ?_, fun _ => Or.inl htimed,
            h.killed, h.timed, fun r info hno => ?_, fun r info hno => ?_⟩, ?_⟩
          · dsimp only
            omega
          · exact hresults ▸ List.mem_cons_of_mem result hfalse
          · exact absurd (htimed.symm.trans hno).symm Bool.false_ne_true
          · cases hno
          · cases hno
          · cases hno
          · cases hno
          · simp only [total, hphase]
            omega
      | returned r info =>
          rw [Parallel.receive, hresults, hphase] at hs
          cases hs

theorem Inv.timeout (h : Inv model computeInfo hasTimeout parts steps s) {s' : Parallel S I O}
    (hs : s.timeout hasTimeout = some s') :
    Inv model computeInfo hasTimeout parts steps s' ∧
      total parts steps s' < total parts steps s := by
  unfold Parallel.timeout at hs
  split at hs
  · rename_i hphase
    obtain ⟨htimeout, hs⟩ := Option.ite_none_right_eq_some.mp hs
    obtain rfl := Option.some.inj hs
    obtain ⟨hkill, -, -⟩ := h.collecting hphase
    refine ⟨⟨⟨h.workers.length, h.workers.fine⟩, h.sent, h.pending, h.failed, fun _ hno => ?_,
      fun hno => ?_, fun _ => Or.inl rfl, fun _ => Or.inl rfl, fun _ => Or.inl rfl,
      fun _ => htimeout, fun r info hno => ?_, fun r info hno => ?_⟩, ?_⟩
    · cases hno
    · cases hno
    · cases hno
    · cases hno
    · simp only [total, hphase]
      omega
  · cases hs

theorem mem_partials {longest : Longest} {l : List ℕ} :
    l ∈ partials longest ↔ ∃ i : ℕ, longest[i]? = some (some l) := by
  rw [partials, List.mem_dedup, List.reduceOption_mem_iff, List.mem_iff_getElem?]

theorem result_eq_ok : s.result = .ok ↔ s.ok = true ∧ s.timedOut = false := by
  unfold result
  cases s.ok <;> cases s.timedOut <;> simp

theorem result_eq_illegal : s.result = .illegal ↔ s.ok = false := by
  unfold result
  cases s.ok <;> cases s.timedOut <;> simp

theorem result_eq_unknown : s.result = .unknown ↔ s.ok = true ∧ s.timedOut = true := by
  unfold result
  cases s.ok <;> cases s.timedOut <;> simp

/-- When all results have been received, all goroutines have finished. -/
theorem Inv.finished (h : Inv model computeInfo hasTimeout parts steps s)
    (hcount : parts.length ≤ s.count) :
    s.results = [] ∧ ∀ (i : ℕ) (part : Part I O), parts[i]? = some part → ∃ ok l,
      s.workers[i]? = some (.finished ok) ∧ s.longest[i]? = some l ∧
        Answer model part.1 part.2 computeInfo s.kill ok l := by
  have hsent := h.sent
  have hlength := h.workers.length
  have hle : s.workers.countP Worker.isFinished ≤ s.workers.length := List.countP_le_length
  have hall : s.workers.countP Worker.isFinished = s.workers.length := by omega
  refine ⟨List.eq_nil_of_length_eq_zero (by omega), fun i part hpart => ?_⟩
  obtain ⟨w, l, hw, hl, hfine⟩ := h.workers.fine i part hpart
  have hfinished := List.countP_eq_length.mp hall w (List.mem_of_getElem? hw)
  cases w with
  | finished ok => exact ⟨ok, l, hw, hl, hfine⟩
  | checking c => cases hfinished
  | returned ok l => cases hfinished
  | sending ok => cases hfinished

/-- What `checkParallel` returns is right. -/
theorem Inv.verdict_of_waiting (h : Inv model computeInfo hasTimeout parts steps s)
    (hphase : s.phase = .waiting) (hwaited : computeInfo = true → parts.length ≤ s.count) :
    Verdict computeInfo hasTimeout (Part.Linearizable model)
      (fun part => PartialLinearization model part.1 part.2) parts s.result
      (s.info computeInfo) where
  ok := by
    intro hresult part hpart
    obtain ⟨hok, htimed⟩ := result_eq_ok.mp hresult
    have hcount : parts.length ≤ s.count := by
      rcases h.ended (by rw [hphase]; exact Phase.noConfusion) with hno | ⟨hno, -⟩ | hall
      · exact absurd (htimed.symm.trans hno) Bool.false_ne_true
      · exact absurd (hno.symm.trans hok) Bool.false_ne_true
      · exact hall
    obtain ⟨hempty, hall⟩ := h.finished hcount
    obtain ⟨i, hi⟩ := List.mem_iff_getElem?.mp hpart
    obtain ⟨ok, l, hw, -, hanswer⟩ := hall i part hi
    refine hanswer.sound ?_
    cases ok with
    | true => rfl
    | false =>
        have hfalse := h.unseen hok htimed (List.mem_of_getElem? hw)
        rw [hempty] at hfalse
        exact absurd hfalse List.not_mem_nil
  illegal hresult := h.failed (result_eq_illegal.mp hresult)
  unknown hresult := h.timed (result_eq_unknown.mp hresult).2
  genuine := by
    intro hinfo i part hpart
    obtain ⟨ok, l, -, hl, hanswer⟩ := (h.finished (hwaited hinfo)).2 i part hpart
    refine ⟨partials l, by simp [info, hinfo, hl], fun l' hl' => ?_⟩
    obtain ⟨j, hj⟩ := mem_partials.mp hl'
    exact (hanswer.genuine j l' hj).1
  longest := by
    intro hinfo htimeout i part hpart
    have hkill : s.kill = false := by
      cases hkill : s.kill with
      | false => rfl
      | true =>
          rcases h.killed hkill with htimed | hno
          · exact absurd (htimeout.symm.trans (h.timed htimed)) Bool.false_ne_true
          · exact absurd (hno.symm.trans hinfo) Bool.false_ne_true
    obtain ⟨ok, l, -, hl, hanswer⟩ := (h.finished (hwaited hinfo)).2 i part hpart
    refine ⟨partials l, by simp [info, hinfo, hl], fun l' hl' j hj => ?_⟩
    obtain ⟨l'', hl'', hle⟩ := hanswer.longest hkill hinfo l' hl' j hj
    exact ⟨l'', mem_partials.mpr ⟨j, hl''⟩, (hanswer.genuine j l'' hl'').2, hle⟩

theorem Inv.next (h : Inv model computeInfo hasTimeout parts steps s) {s' : Parallel S I O}
    (hs : s.next computeInfo = some s') :
    Inv model computeInfo hasTimeout parts steps s' ∧
      total parts steps s' < total parts steps s := by
  unfold Parallel.next at hs
  split at hs
  · rename_i hphase
    obtain rfl := Option.some.inj hs
    refine ⟨⟨⟨h.workers.length, fun i part hpart => ?_⟩, h.sent, fun hno => ?_, h.failed, h.unseen,
      fun hno => ?_, fun hno => ?_, fun _ => ?_, fun _ => ?_, h.timed, fun r info hno => ?_,
      fun r info hno => ?_⟩, ?_⟩
    · obtain ⟨w, l, hw, hl, hfine⟩ := h.workers.fine i part hpart
      exact ⟨w, l, hw, hl, hfine.kill⟩
    · cases hno
    · cases hno
    · cases hno
    · exact h.ended (by rw [hphase]; exact Phase.noConfusion)
    · exact (h.killing hphase).imp_right And.right
    · cases hno
    · cases hno
    · simp only [total, hphase]
      omega
  · rename_i hphase
    obtain ⟨hnot, hs⟩ := Option.ite_none_left_eq_some.mp hs
    obtain rfl := Option.some.inj hs
    have hwaited : computeInfo = true → parts.length ≤ s.count := fun hinfo =>
      not_lt.mp fun hlt => hnot ⟨hinfo, h.workers.length ▸ hlt⟩
    refine ⟨⟨⟨h.workers.length, h.workers.fine⟩, h.sent, h.pending, h.failed, h.unseen,
      fun hno => ?_, fun hno => ?_, fun _ => ?_, h.killed, h.timed, fun _ _ _ => hwaited,
      fun r info hreturned => ?_⟩, ?_⟩
    · cases hno
    · cases hno
    · exact h.ended (by rw [hphase]; exact Phase.noConfusion)
    · obtain ⟨rfl, rfl⟩ := Phase.returned.inj hreturned
      exact h.verdict_of_waiting hphase hwaited
    · simp only [total, hphase]
      omega
  · cases hs

theorem Inv.step (hsound : model.EqualSound)
    (h : Inv model computeInfo hasTimeout parts steps s) {a : Act} {s' : Parallel S I O}
    (hs : s.step model computeInfo hasTimeout a = some s') :
    ∃ steps', Inv model computeInfo hasTimeout parts steps' s' ∧
      total parts steps' s' < total parts steps s := by
  cases a with
  | run i =>
      have hrun : s.run model computeInfo i = some s' := hs
      obtain ⟨w, hw, hunfinished⟩ : ∃ w, s.workers[i]? = some w ∧ w.isFinished = false := by
        cases hw : s.workers[i]? with
        | none =>
            rw [Parallel.run, hw] at hrun
            cases hrun
        | some w =>
            cases w with
            | finished ok =>
                rw [Parallel.run, hw] at hrun
                cases hrun
            | checking c => exact ⟨_, rfl, rfl⟩
            | returned ok l => exact ⟨_, rfl, rfl⟩
            | sending ok => exact ⟨_, rfl, rfl⟩
      obtain ⟨s'', steps', hs'', hinv, hlt⟩ := h.exists_run hsound hw hunfinished
      obtain rfl := Option.some.inj (hrun.symm.trans hs'')
      exact ⟨steps', hinv, hlt⟩
  | receive => exact ⟨steps, h.receive hs⟩
  | timeout => exact ⟨steps, h.timeout hs⟩
  | next => exact ⟨steps, h.next hs⟩

/-- While results are missing, there is one to be received, or a goroutine that can get
on. -/
theorem Inv.exists_step_of_missing (hsound : model.EqualSound)
    (h : Inv model computeInfo hasTimeout parts steps s) (hmissing : s.count < parts.length)
    (hreceive : s.results ≠ [] → (s.receive computeInfo).isSome) :
    ∃ a, (s.step model computeInfo hasTimeout a).isSome := by
  by_cases hresults : s.results = []
  · have hsent := h.sent
    rw [hresults, List.length_nil, Nat.add_zero] at hsent
    obtain ⟨w, hmem, hunfinished⟩ : ∃ w ∈ s.workers, w.isFinished = false := by
      by_contra! hall
      have hlength := List.countP_eq_length.mpr fun w hw => (Bool.not_eq_false _).mp (hall w hw)
      rw [hsent, h.workers.length] at hlength
      omega
    obtain ⟨i, hi⟩ := List.mem_iff_getElem?.mp hmem
    obtain ⟨s', -, hrun, -⟩ := h.exists_run hsound hi hunfinished
    exact ⟨.run i, Option.isSome_iff_exists.mpr ⟨s', hrun⟩⟩
  · exact ⟨.receive, hreceive hresults⟩

/-- `checkParallel` does not block before it returns, unless there is nothing to be
checked and no timeout. -/
theorem Inv.exists_step (hsound : model.EqualSound)
    (h : Inv model computeInfo hasTimeout parts steps s)
    (hparts : parts ≠ [] ∨ hasTimeout = true) :
    (∃ result info, s.phase = .returned result info) ∨
      ∃ a, (s.step model computeInfo hasTimeout a).isSome := by
  cases hphase : s.phase with
  | collecting =>
      refine Or.inr ?_
      cases htimeout : hasTimeout with
      | true => exact ⟨.timeout, by simp [Parallel.step, Parallel.timeout, hphase]⟩
      | false =>
          subst htimeout
          have hne := hparts.resolve_right Bool.false_ne_true
          refine h.exists_step_of_missing hsound ((h.collecting hphase).2.2 hne) fun hresults => ?_
          obtain ⟨result, results, hcons⟩ := List.exists_cons_of_ne_nil hresults
          rw [Parallel.receive, hcons, hphase]
          rfl
  | killing =>
      refine Or.inr ⟨.next, ?_⟩
      simp only [Parallel.step, Parallel.next, hphase, Option.isSome_some]
  | waiting =>
      refine Or.inr ?_
      by_cases hwait : computeInfo = true ∧ s.count < s.workers.length
      · refine h.exists_step_of_missing hsound (h.workers.length ▸ hwait.2) fun hresults => ?_
        obtain ⟨result, results, hcons⟩ := List.exists_cons_of_ne_nil hresults
        simp only [Parallel.receive, hcons, hphase, if_pos hwait, Option.isSome_some]
      · refine ⟨.next, ?_⟩
        simp only [Parallel.step, Parallel.next, hphase, if_neg hwait, Option.isSome_some]
  | returned result info => exact Or.inl ⟨result, info, rfl⟩

/-! ## Whole runs -/

/-- A bound on the steps of `checkParallel` and its goroutines, for parts of these lengths. -/
def maxSteps (lengths : List ℕ) : ℕ :=
  ∑ i ∈ Finset.range lengths.length, (maxRounds (lengths.getD i 0) + 3) + lengths.length + 3

theorem inv_start (hasTimeout computeInfo : Bool) {history : List (List (Entry I O))}
    (h : List.Forall₂ (fun (part : Part I O) entries =>
      Represents part.1 entries ∧ part.2 = entries.map Entry.mark) parts history) :
    Inv model computeInfo hasTimeout parts
      (fun i => maxRounds ((parts.map fun part => part.1.length).getD i 0) + 3)
      (start model history) where
  workers := by
    refine ⟨by simp [start, h.length_eq], fun i part hpart => ?_⟩
    obtain ⟨entries, hentries, hrep, hmarks⟩ := forall₂_getElem? h hpart
    refine ⟨.checking (.start model entries), [], ?_, ?_, maxRounds part.1.length,
      hmarks ▸ searching_start model hrep computeInfo, ?_⟩
    · rw [start, List.getElem?_map, hentries]
      rfl
    · rw [start, List.getElem?_map, hentries]
      rfl
    · rw [List.getD_eq_getElem?_getD, List.getElem?_map, hpart, Option.map_some, Option.getD_some]
  sent := by
    have hnone : ∀ w ∈ (start model history).workers, w.isFinished = false := by
      simp [start, Worker.isFinished]
    rw [List.countP_eq_zero.mpr fun w hw => by simp [hnone w hw]]
    rfl
  pending _ hmem := absurd hmem List.not_mem_nil
  failed hno := absurd hno.symm Bool.false_ne_true
  unseen := by
    intro _ _ hmem
    simp [start] at hmem
  collecting _ := ⟨rfl, rfl, List.length_pos_iff.mpr⟩
  killing hno := by cases hno
  ended hno := absurd rfl hno
  killed hno := absurd hno Bool.false_ne_true
  timed hno := absurd hno Bool.false_ne_true
  waited _ _ hno := by cases hno
  verdict _ _ hno := by cases hno

/-- The invariant holds after every run, and no run is longer than `maxSteps`. -/
theorem inv_exec (hsound : model.EqualSound) {history : List (List (Entry I O))}
    (h : List.Forall₂ (fun (part : Part I O) entries =>
      Represents part.1 entries ∧ part.2 = entries.map Entry.mark) parts history)
    {acts : List Act}
    (hs : exec (step model computeInfo hasTimeout) (start model history) acts = some s) :
    ∃ steps, Inv model computeInfo hasTimeout parts steps s ∧
      acts.length + total parts steps s ≤ maxSteps (parts.map fun part => part.1.length) := by
  refine exec_history (I := fun acts s => ∃ steps,
    Inv model computeInfo hasTimeout parts steps s ∧
      acts.length + total parts steps s ≤ maxSteps (parts.map fun part => part.1.length)) ?_ ?_ hs
  · refine ⟨_, inv_start hasTimeout computeInfo h, ?_⟩
    simp [total, maxSteps, start]
  · rintro acts t a t' - ⟨steps, hinv, hle⟩ ht
    obtain ⟨steps', hinv', hlt⟩ := hinv.step hsound ht
    refine ⟨steps', hinv', ?_⟩
    rw [List.length_append, List.length_singleton]
    omega

/-- The parts of a history of operations. -/
theorem exists_parts (model : FullModel S I O) {subs : List (List (Operation I O))}
    {history : List (List (Entry I O))} (h : List.Forall₂ MakesEntries subs history)
    (hvalid : ∀ sub ∈ subs, ∀ op ∈ sub, op.call ≤ op.ret) :
    ∃ parts : List (Part I O),
      List.Forall₂ (fun (part : Part I O) entries =>
        Represents part.1 entries ∧ part.2 = entries.map Entry.mark) parts history ∧
      List.Forall₂ (fun sub (part : Part I O) => part.1.length = sub.length ∧
        (part.Linearizable model ↔ model.Linearizable sub) ∧
        ∀ l, PartialLinearization model part.1 part.2 l ↔ model.PartiallyLinearizes sub l)
        subs parts := by
  induction h with
  | nil => exact ⟨[], .nil, .nil⟩
  | @cons sub entries subs history hmake _ ih =>
      obtain ⟨hsub, hvalid⟩ := List.forall_mem_cons.mp hvalid
      obtain ⟨parts, hparts, hsubs⟩ := ih hvalid
      refine ⟨(inputsOutputs sub, entries.map Entry.mark) :: parts,
        .cons ⟨hmake.represents hsub, rfl⟩ hparts, .cons ⟨?_, ?_, fun l => ?_⟩ hsubs⟩
      · exact List.length_map _
      · exact hmake.hasLinearization_iff model
      · exact hmake.partialLinearization_iff model

/-- A verdict about the parts is one about what they stand for. -/
theorem Verdict.of_forall₂ {α β : Type} {lin : α → Prop} {partially : α → List ℕ → Prop}
    {lin' : β → Prop} {partially' : β → List ℕ → Prop} {as : List α} {bs : List β}
    {result : CheckResult} {info : List Partials}
    (h : Verdict computeInfo hasTimeout lin partially as result info)
    (hrel : List.Forall₂ (fun b a => (lin a ↔ lin' b) ∧ ∀ l, partially a l ↔ partially' b l)
      bs as) : Verdict computeInfo hasTimeout lin' partially' bs result info where
  ok hok b hb := by
    obtain ⟨i, hi⟩ := List.mem_iff_getElem?.mp hb
    obtain ⟨a, ha, hlin, -⟩ := forall₂_getElem? hrel hi
    exact hlin.mp (h.ok hok a (List.mem_of_getElem? ha))
  illegal hillegal := by
    obtain ⟨a, ha, hnot⟩ := h.illegal hillegal
    obtain ⟨i, hi⟩ := List.mem_iff_getElem?.mp ha
    obtain ⟨b, hb, hlin, -⟩ := forall₂_getElem? hrel.flip hi
    exact ⟨b, List.mem_of_getElem? hb, fun hlin' => hnot (hlin.mpr hlin')⟩
  unknown := h.unknown
  genuine hinfo i b hb := by
    obtain ⟨a, ha, -, hpartially⟩ := forall₂_getElem? hrel hb
    obtain ⟨partials, hpartials, hall⟩ := h.genuine hinfo i a ha
    exact ⟨partials, hpartials, fun l hl => (hpartially l).mp (hall l hl)⟩
  longest hinfo htimeout i b hb := by
    obtain ⟨a, ha, -, hpartially⟩ := forall₂_getElem? hrel hb
    obtain ⟨partials, hpartials, hall⟩ := h.longest hinfo htimeout i a ha
    exact ⟨partials, hpartials, fun l hl => hall l ((hpartially l).mpr hl)⟩

/-- A schedule for one part: the goroutine finishes, then its result is received. -/
def checkOverlapping : List Act :=
  [.run 0, .run 0, .run 0, .run 0, .run 0, .receive, .next]

section

variable {subs : List (List (Operation I O))} {history : List (List (Entry I O))}
  {acts : List Act} {result : CheckResult} {info : List Partials}

/-- What holds of a run on a history of operations. -/
theorem exists_inv (hsound : model.EqualSound) (h : List.Forall₂ MakesEntries subs history)
    (hvalid : ∀ sub ∈ subs, ∀ op ∈ sub, op.call ≤ op.ret)
    (hs : exec (step model computeInfo hasTimeout) (start model history) acts = some s) :
    ∃ parts steps, Inv model computeInfo hasTimeout parts steps s ∧
      List.Forall₂ (fun sub (part : Part I O) =>
        (part.Linearizable model ↔ model.Linearizable sub) ∧
        ∀ l, PartialLinearization model part.1 part.2 l ↔ model.PartiallyLinearizes sub l)
        subs parts ∧
      acts.length ≤ maxSteps (subs.map List.length) := by
  obtain ⟨parts, hparts, hsubs⟩ := exists_parts model h hvalid
  obtain ⟨steps, hinv, hle⟩ := inv_exec hsound hparts hs
  have hlengths : List.Forall₂ (· = ·) (parts.map fun part => part.1.length)
      (subs.map List.length) := by
    rw [List.forall₂_map_left_iff, List.forall₂_map_right_iff]
    exact hsubs.flip.imp fun _ _ hsub => hsub.1
  rw [List.forall₂_eq_eq_eq] at hlengths
  rw [hlengths] at hle
  exact ⟨parts, steps, hinv, hsubs.imp fun _ _ hsub => hsub.2, by omega⟩

/-- What `checkParallel` returns about a history of operations. -/
theorem verdict_exec (hsound : model.EqualSound) (h : List.Forall₂ MakesEntries subs history)
    (hvalid : ∀ sub ∈ subs, ∀ op ∈ sub, op.call ≤ op.ret)
    (hs : exec (step model computeInfo hasTimeout) (start model history) acts = some s)
    (hreturned : s.phase = .returned result info) :
    Verdict computeInfo hasTimeout model.Linearizable model.PartiallyLinearizes subs result
      info := by
  obtain ⟨parts, steps, hinv, hsubs, -⟩ := exists_inv hsound h hvalid hs
  exact (hinv.verdict result info hreturned).of_forall₂ hsubs

theorem length_le_maxSteps (hsound : model.EqualSound)
    (h : List.Forall₂ MakesEntries subs history)
    (hvalid : ∀ sub ∈ subs, ∀ op ∈ sub, op.call ≤ op.ret)
    (hs : exec (step model computeInfo hasTimeout) (start model history) acts = some s) :
    acts.length ≤ maxSteps (subs.map List.length) := by
  obtain ⟨parts, steps, -, -, hle⟩ := exists_inv hsound h hvalid hs
  exact hle

theorem returned_or_exists_step (hsound : model.EqualSound)
    (h : List.Forall₂ MakesEntries subs history)
    (hvalid : ∀ sub ∈ subs, ∀ op ∈ sub, op.call ≤ op.ret)
    (hs : exec (step model computeInfo hasTimeout) (start model history) acts = some s)
    (hne : subs ≠ [] ∨ hasTimeout = true) :
    (∃ result info, s.phase = .returned result info) ∨
      ∃ a, (s.step model computeInfo hasTimeout a).isSome := by
  obtain ⟨parts, steps, hinv, hsubs, -⟩ := exists_inv hsound h hvalid hs
  refine hinv.exists_step hsound (hne.imp_left fun hsubs' hnil => hsubs' ?_)
  rw [hnil] at hsubs
  exact List.forall₂_nil_right_iff.mp hsubs

/-- In every interleaving: the result is `Ok` only if all parts are linearizable, and
`Illegal` only if one is not; it is `Unknown` only with a timeout. -/
theorem checkParallel_result (hsound : model.EqualSound)
    (h : List.Forall₂ MakesEntries subs history)
    (hvalid : ∀ sub ∈ subs, ∀ op ∈ sub, op.call ≤ op.ret)
    (hs : exec (step model computeInfo hasTimeout) (start model history) acts = some s)
    (hreturned : s.phase = .returned result info) :
    (result = .ok → ∀ sub ∈ subs, model.Linearizable sub) ∧
      (result = .illegal → ∃ sub ∈ subs, ¬ model.Linearizable sub) ∧
      (result = .unknown → hasTimeout = true) :=
  have hverdict := verdict_exec hsound h hvalid hs hreturned
  ⟨hverdict.ok, hverdict.illegal, hverdict.unknown⟩

theorem checkParallel_result_overlapping :
    ∃ s, exec (step (fillDefault kvModel) false false)
        (start (fillDefault kvModel) [overlappingEntries]) checkOverlapping = some s ∧
      s.phase = .returned .ok [] ∧ ∀ sub ∈ [overlapping], (fillDefault kvModel).Linearizable sub :=
  ⟨_, rfl, rfl, (checkParallel_result (equalSound_fillDefault rfl)
    (.cons makesEntries_overlapping .nil) (by decide)
    (show exec (step (fillDefault kvModel) false false)
      (start (fillDefault kvModel) [overlappingEntries]) checkOverlapping = some _ from rfl)
    rfl).1 rfl⟩

/-- In every interleaving: when `checkParallel` returns with the partial linearizations,
all goroutines have finished. What it gives for a part are partial linearizations; without
a timeout there is, for each operation, a longest one among them. -/
theorem checkParallel_partials (hsound : model.EqualSound)
    (h : List.Forall₂ MakesEntries subs history)
    (hvalid : ∀ sub ∈ subs, ∀ op ∈ sub, op.call ≤ op.ret)
    (hs : exec (step model true hasTimeout) (start model history) acts = some s)
    (hreturned : s.phase = .returned result info) {i : ℕ} {sub : List (Operation I O)}
    (hsub : subs[i]? = some sub) :
    (∃ ok, s.workers[i]? = some (.finished ok)) ∧
      ∃ partials : Partials, info[i]? = some partials ∧
        (∀ l ∈ partials, model.PartiallyLinearizes sub l) ∧
        (hasTimeout = false → ∀ l, model.PartiallyLinearizes sub l → ∀ j ∈ l,
          ∃ l' ∈ partials, j ∈ l' ∧ l.length ≤ l'.length) := by
  constructor
  · obtain ⟨parts, steps, hinv, hsubs, -⟩ := exists_inv hsound h hvalid hs
    obtain ⟨part, hpart, -⟩ := forall₂_getElem? hsubs hsub
    obtain ⟨-, hall⟩ := hinv.finished (hinv.waited result info hreturned rfl)
    obtain ⟨ok, -, hw, -⟩ := hall i part hpart
    exact ⟨ok, hw⟩
  · have hverdict := verdict_exec hsound h hvalid hs hreturned
    obtain ⟨partials, hpartials, hgenuine⟩ := hverdict.genuine rfl i sub hsub
    refine ⟨partials, hpartials, hgenuine, fun htimeout => ?_⟩
    obtain ⟨partials', hpartials', hlongest⟩ := hverdict.longest rfl htimeout i sub hsub
    obtain rfl := Option.some.inj (hpartials.symm.trans hpartials')
    exact hlongest

theorem checkParallel_partials_overlapping :
    ∃ s info, exec (step (fillDefault kvModel) true false)
        (start (fillDefault kvModel) [overlappingEntries]) checkOverlapping = some s ∧
      s.phase = .returned .ok info ∧ (∃ ok, s.workers[0]? = some (.finished ok)) ∧
        ∃ partials : Partials, info[0]? = some partials ∧
          (∀ l ∈ partials, (fillDefault kvModel).PartiallyLinearizes overlapping l) ∧
          (false = false → ∀ l, (fillDefault kvModel).PartiallyLinearizes overlapping l →
            ∀ j ∈ l, ∃ l' ∈ partials, j ∈ l' ∧ l.length ≤ l'.length) :=
  ⟨_, _, rfl, rfl, checkParallel_partials (equalSound_fillDefault rfl)
    (.cons makesEntries_overlapping .nil) (by decide)
    (show exec (step (fillDefault kvModel) true false)
      (start (fillDefault kvModel) [overlappingEntries]) checkOverlapping = some _ from rfl)
    rfl rfl⟩

/-- In every interleaving: the number of the steps is bounded, no goroutine panics or
blocks, and until `checkParallel` returns there is a step to be done, unless there is
nothing to be checked and no timeout. -/
theorem checkParallel_returns (hsound : model.EqualSound)
    (h : List.Forall₂ MakesEntries subs history)
    (hvalid : ∀ sub ∈ subs, ∀ op ∈ sub, op.call ≤ op.ret)
    (hs : exec (step model computeInfo hasTimeout) (start model history) acts = some s) :
    acts.length ≤ maxSteps (subs.map List.length) ∧
      (∀ (i : ℕ) (w : Worker S I O), s.workers[i]? = some w → w.isFinished = false →
        (s.step model computeInfo hasTimeout (.run i)).isSome) ∧
      (subs ≠ [] ∨ hasTimeout = true → (∃ result info, s.phase = .returned result info) ∨
        ∃ a, (s.step model computeInfo hasTimeout a).isSome) := by
  refine ⟨length_le_maxSteps hsound h hvalid hs, fun i w hw hunfinished => ?_,
    returned_or_exists_step hsound h hvalid hs⟩
  obtain ⟨parts, steps, hinv, -⟩ := exists_inv hsound h hvalid hs
  obtain ⟨s', -, hrun, -⟩ := hinv.exists_run hsound hw hunfinished
  exact Option.isSome_iff_exists.mpr ⟨s', hrun⟩

theorem checkParallel_returns_overlapping :
    ∃ s, exec (step (fillDefault kvModel) true false)
        (start (fillDefault kvModel) [overlappingEntries]) [.run 0] = some s ∧
      ([Act.run 0].length ≤ maxSteps ([overlapping].map List.length) ∧
        (∀ (i : ℕ) (w : Worker String KvInput KvOutput), s.workers[i]? = some w →
          w.isFinished = false → (s.step (fillDefault kvModel) true false (.run i)).isSome) ∧
        ([overlapping] ≠ [] ∨ false = true → (∃ result info, s.phase = .returned result info) ∨
          ∃ a, (s.step (fillDefault kvModel) true false a).isSome)) :=
  ⟨_, rfl, checkParallel_returns (equalSound_fillDefault rfl)
    (.cons makesEntries_overlapping .nil) (by decide)
    (show exec (step (fillDefault kvModel) true false)
      (start (fillDefault kvModel) [overlappingEntries]) [.run 0] = some _ from rfl)⟩

/-- Without parts and without a timeout, `checkParallel` waits for ever. -/
theorem step_start_nil (model : FullModel S I O) (computeInfo : Bool) (a : Act) :
    (start model []).step model computeInfo false a = none := by
  cases a with
  | run i => rfl
  | receive => rfl
  | timeout => rfl
  | next => rfl

end

end Parallel

end

end Porcupine

end DistributedLabs
