import DistributedLabs.Logic.Links
import DistributedLabs.Porcupine.Bitset

/-!
# The linearizability checker

`checkSingle` looks for a linearization of a history by backtracking. The calls and the
returns of the history stand in a doubly linked list. The loop goes through the list from
its head; a call that the model accepts in the present state is linearized, which lifts
the call and its return out of the list, and a return means that the last call that was
linearized has to be taken back. A cache tells which sets of calls have been linearized
before, with which state.

A node is a number, and the heap has one function for each field of the nodes; `nil` is
`none`. `none` is also the result of a function that would panic, because it goes through
`nil`, has an index out of range, or hands the model a value of the wrong type.
-/

namespace DistributedLabs

namespace Porcupine

/-! ## Models and histories -/

structure Operation (I O : Type) where
  clientId : ℕ := 0
  input : I
  /-- The time of the invocation. -/
  call : ℤ
  output : O
  /-- The time of the response. -/
  ret : ℤ
deriving DecidableEq, Repr

/-- A model as it is given to the checker; `Partition` and `Equal` may be missing. -/
structure Model (S I O : Type) where
  partition : Option (List (Operation I O) → List (List (Operation I O))) := none
  init : S
  /-- Whether a step is possible with the input and the output, and the new state. -/
  step : S → I → O → Bool × S
  equal : Option (S → S → Bool) := none

/-- A model in which nothing is missing. -/
structure FullModel (S I O : Type) where
  partition : List (Operation I O) → List (List (Operation I O))
  init : S
  step : S → I → O → Bool × S
  equal : S → S → Bool

def noPartition {I O : Type} (history : List (Operation I O)) : List (List (Operation I O)) :=
  [history]

def shallowEqual {S : Type} [DecidableEq S] (state1 state2 : S) : Bool := decide (state1 = state2)

def fillDefault {S I O : Type} [DecidableEq S] (model : Model S I O) : FullModel S I O :=
  { partition := model.partition.getD noPartition
    init := model.init
    step := model.step
    equal := model.equal.getD shallowEqual }

inductive EntryKind where
  | callEntry
  | returnEntry
deriving DecidableEq, Repr

/-- The value of an entry is an input or an output. -/
inductive Value (I O : Type) where
  | input (i : I)
  | output (o : O)
deriving DecidableEq, Repr

structure Entry (I O : Type) where
  kind : EntryKind
  value : Value I O
  id : ℕ
  time : ℤ
  clientId : ℕ := 0
deriving DecidableEq, Repr

section

variable {I O : Type}

/-- The order `byTime`: of a call and a return at the same time, the call comes
first. -/
def Entry.less (a b : Entry I O) : Bool :=
  if a.time ≠ b.time then decide (a.time < b.time)
  else decide (a.kind = .callEntry) && decide (b.kind = .returnEntry)

def Operation.callEntry (elem : Operation I O) (id : ℕ) : Entry I O :=
  { kind := .callEntry, value := .input elem.input, id := id, time := elem.call
    clientId := elem.clientId }

def Operation.returnEntry (elem : Operation I O) (id : ℕ) : Entry I O :=
  { kind := .returnEntry, value := .output elem.output, id := id, time := elem.ret
    clientId := elem.clientId }

/-- The entries of a history before they are sorted, from a given id on. -/
def rawEntries : ℕ → List (Operation I O) → List (Entry I O)
  | _, [] => []
  | id, elem :: history =>
      elem.callEntry id :: elem.returnEntry id :: rawEntries (id + 1) history

/-- `makeEntries`, where `sort.Sort` may leave any permutation in which no entry stands
behind one that it is less than. -/
def MakesEntries (history : List (Operation I O)) (entries : List (Entry I O)) : Prop :=
  entries.Perm (rawEntries 0 history) ∧ entries.Pairwise fun a b => b.less a = false

end

/-! ## The linked list -/

/-- The fields of a node that do not change. The value of the head is `nil`; its id, which
is -1 in the source, is never read. -/
structure Node (I O : Type) where
  value : Option (Value I O)
  /-- The return of a call; `nil` for a return. -/
  matching : Option ℕ
  id : ℕ

/-- The nodes up to `size`, with their pointers `next` and `prev`. -/
structure Heap (I O : Type) where
  node : ℕ → Node I O
  links : Links ℕ
  size : ℕ

namespace Heap

variable {I O : Type}

def empty : Heap I O :=
  { node := fun _ => { value := none, matching := none, id := 0 }
    links := { next := fun _ => none, prev := fun _ => none }
    size := 0 }

/-- `&node{..}`; the new node is the number `size`. -/
def alloc (h : Heap I O) (node : Node I O) : Heap I O :=
  { node := Function.update h.node h.size node
    links := (h.links.setNext h.size none).setPrev h.size none
    size := h.size + 1 }

def insertBefore (h : Heap I O) (n : ℕ) (mark : Option ℕ) : Heap I O :=
  match mark with
  | none => h
  | some mark =>
      let beforeMark := h.links.prev mark
      let links := (h.links.setPrev mark (some n)).setNext n (some mark)
      match beforeMark with
      | none => { h with links := links }
      | some beforeMark =>
          { h with links := (links.setPrev n (some beforeMark)).setNext beforeMark (some n) }

/-- `length`; a list has at most as many nodes as the heap. -/
def length (h : Heap I O) : ℕ → Option ℕ → ℕ
  | _, none => 0
  | 0, some _ => 0
  | fuel + 1, some n => h.length fuel (h.links.next n) + 1

def lift (h : Heap I O) (entry : ℕ) : Option (Heap I O) := do
  -- entry.prev.next = entry.next
  let prev ← h.links.prev entry
  let l := h.links.setNext prev (h.links.next entry)
  -- entry.next.prev = entry.prev
  let next ← l.next entry
  let l := l.setPrev next (l.prev entry)
  let matching ← (h.node entry).matching
  -- match.prev.next = match.next, and match.next.prev = match.prev if there is a next one
  let l ← l.unlink matching
  some { h with links := l }

def unlift (h : Heap I O) (entry : ℕ) : Option (Heap I O) := do
  let matching ← (h.node entry).matching
  -- match.prev.next = match, and match.next.prev = match if there is a next one
  let l ← h.links.relink matching
  -- entry.prev.next = entry
  let prev ← l.prev entry
  let l := l.setNext prev (some entry)
  -- entry.next.prev = entry
  let next ← l.next entry
  some { h with links := l.setPrev next (some entry) }

end Heap

/-- The loop of `makeLinkedEntries`, which begins with the last entry. -/
structure Linking (I O : Type) where
  heap : Heap I O
  root : Option ℕ
  /-- The returns by their ids. -/
  matching : ℕ → Option ℕ

section

variable {I O : Type}

def linkEntry (elem : Entry I O) (s : Linking I O) : Linking I O :=
  let entry := s.heap.size
  match elem.kind with
  | .returnEntry =>
      { heap :=
          (s.heap.alloc { value := some elem.value, matching := none, id := elem.id }).insertBefore
            entry s.root
        root := some entry
        matching := Function.update s.matching elem.id (some entry) }
  | .callEntry =>
      { heap :=
          (s.heap.alloc
            { value := some elem.value
              matching := s.matching elem.id
              id := elem.id }).insertBefore entry s.root
        root := some entry
        matching := s.matching }

def makeLinkedEntries (entries : List (Entry I O)) : Linking I O :=
  entries.foldr linkEntry { heap := .empty, root := none, matching := fun _ => none }

end

/-! ## The search -/

structure CacheEntry (S : Type) where
  linearized : Bitset
  state : S

abbrev Cache (S : Type) := BitVec 64 → List (CacheEntry S)

/-- A call that has been linearized, and the state before. -/
structure CallsEntry (S : Type) where
  entry : ℕ
  state : S

/-- For each id a sequence of ids that contains it, or `nil`. -/
abbrev Longest := List (Option (List ℕ))

section

variable {S I O : Type} (model : FullModel S I O)

def cacheContains (cache : Cache S) (entry : CacheEntry S) : Bool :=
  (cache entry.linearized.hash).any fun elem =>
    entry.linearized.equals elem.linearized && model.equal entry.state elem.state

/-- `checkSingle` at the head of its loop. The last of the `calls` comes first. -/
structure Checking (S I O : Type) where
  heap : Heap I O
  headEntry : ℕ
  entry : Option ℕ
  state : S
  linearized : Bitset
  cache : Cache S := fun _ => []
  calls : List (CallsEntry S) := []
  longest : Longest

inductive Outcome (S I O : Type) where
  | running (c : Checking S I O)
  | returned (ok : Bool) (longest : Longest)

namespace Checking

/-- Everything before the loop. -/
def start (history : List (Entry I O)) : Checking S I O :=
  let linking := makeLinkedEntries history
  let n := linking.heap.length linking.heap.size linking.root / 2
  let headEntry := linking.heap.size
  { heap :=
      (linking.heap.alloc { value := none, matching := none, id := 0 }).insertBefore headEntry
        linking.root
    headEntry := headEntry
    entry := linking.root
    state := model.init
    linearized := newBitset n
    longest := List.replicate n none }

variable (c : Checking S I O)

/-- The ids of the calls, in the order in which they were linearized. -/
def seq : List ℕ := (c.calls.map fun v => (c.heap.node v.entry).id).reverse

/-- `longest[id] = &seq`, if there is none yet or a shorter one. -/
def recordAt (seq : List ℕ) (longest : Longest) (id : ℕ) : Option Longest :=
  (longest[id]?).map fun old =>
    match old with
    | none => longest.set id (some seq)
    | some old => if seq.length > old.length then longest.set id (some seq) else longest

/-- The loop that updates `longest` before a call is taken back. -/
def record (computePartial : Bool) : Option Longest :=
  if computePartial then c.seq.foldlM (recordAt c.seq) c.longest else some c.longest

/-- The loop passes over an entry. -/
def skip (entry : ℕ) : Outcome S I O := .running { c with entry := c.heap.links.next entry }

/-- A call is linearized. -/
def push (entry : ℕ) (newState : S) (newLinearized : Bitset) : Option (Outcome S I O) := do
  let hash := newLinearized.hash
  let linearized ← c.linearized.set (c.heap.node entry).id
  let heap ← c.heap.lift entry
  some (.running
    { c with
      heap := heap
      entry := heap.links.next c.headEntry
      state := newState
      linearized := linearized
      cache := Function.update c.cache hash
        (c.cache hash ++ [{ linearized := newLinearized, state := newState }])
      calls := { entry := entry, state := c.state } :: c.calls })

/-- The last call is taken back. -/
def pop (computePartial : Bool) (callsTop : CallsEntry S) (calls : List (CallsEntry S)) :
    Option (Outcome S I O) := do
  let longest ← c.record computePartial
  let entry := callsTop.entry
  let linearized ← c.linearized.clear (c.heap.node entry).id
  let heap ← c.heap.unlift entry
  some (.running
    { c with
      heap := heap
      entry := heap.links.next entry
      state := callsTop.state
      linearized := linearized
      calls := calls
      longest := longest })

/-- The loop is at a call. -/
def tryCall (entry matching : ℕ) : Option (Outcome S I O) :=
  match (c.heap.node entry).value, (c.heap.node matching).value with
  | some (.input input), some (.output output) =>
    let (ok, newState) := model.step c.state input output
    if ok then
      (c.linearized.set (c.heap.node entry).id).bind fun newLinearized =>
        if !cacheContains model c.cache { linearized := newLinearized, state := newState } then
          c.push entry newState newLinearized
        else some (c.skip entry)
    else some (c.skip entry)
  | _, _ => none

/-- The loop is at a return. -/
def goBack (computePartial : Bool) : Option (Outcome S I O) :=
  match c.calls with
  | [] => some (.returned false c.longest)
  | callsTop :: calls => c.pop computePartial callsTop calls

/-- One round of the loop, in which `kill` is what is loaded from the flag. -/
def step (computePartial kill : Bool) : Option (Outcome S I O) :=
  match c.heap.links.next c.headEntry with
  | none => some (.returned true (c.longest.map fun _ => some c.seq))
  | some _ =>
    if kill then some (.returned false c.longest)
    else
      c.entry.bind fun entry =>
        match (c.heap.node entry).matching with
        | some matching => c.tryCall model entry matching
        | none => c.goBack computePartial

/-- At most so many rounds of the loop, while nothing is killed. -/
def run (computePartial : Bool) : ℕ → Checking S I O → Option (Bool × Longest)
  | 0, _ => none
  | fuel + 1, c =>
    match c.step model computePartial false with
    | none => none
    | some (.returned ok longest) => some (ok, longest)
    | some (.running c) => run computePartial fuel c

end Checking

/-- `checkSingle` with so many rounds of the loop. -/
def checkSingle (history : List (Entry I O)) (computePartial : Bool) (fuel : ℕ) :
    Option (Bool × Longest) :=
  (Checking.start model history).run model computePartial fuel

end

end Porcupine

end DistributedLabs
