import Mathlib.Data.Fintype.Prod
import DistributedLabs.Porcupine.Search

/-!
# The linked list of a history

`makeLinkedEntries` allocates a node for each entry, from the last one on, and puts it in
front of the list. A call finds its return in a map, since the return has been met before.
So the nodes form a list in the order of the entries, and every call points to its return.
-/

namespace DistributedLabs

namespace Porcupine

variable {S I O : Type}

/-- The entries are those of the operations `ops`, with the indices as ids. -/
structure Represents (ops : List (I × O)) (entries : List (Entry I O)) : Prop where
  wellFormed : WellFormed ops.length (entries.map Entry.mark)
  calls : ∀ e ∈ entries, e.kind = .callEntry →
    ∃ io, ops[e.id]? = some io ∧ e.value = .input io.1
  returns : ∀ e ∈ entries, e.kind = .returnEntry →
    ∃ io, ops[e.id]? = some io ∧ e.value = .output io.2

/-- The return of every call comes later. -/
def Answered : List (Entry I O) → Prop
  | [] => True
  | e :: entries =>
      (e.kind = .callEntry → ∃ r ∈ entries, r.kind = .returnEntry ∧ r.id = e.id) ∧
        Answered entries

theorem WellFormed.answered {n : ℕ} {entries : List (Entry I O)}
    (h : WellFormed n (entries.map Entry.mark)) : Answered entries := by
  have hsuffix : ∀ front rest : List (Entry I O), front ++ rest = entries → Answered rest := by
    intro front rest
    induction rest generalizing front with
    | nil => exact fun _ => trivial
    | cons e rest ih =>
        intro hentries
        refine ⟨fun hcall => ?_, ih (front ++ [e]) (by simpa using hentries)⟩
        have hmark : e.mark = (true, e.id) := by simp [Entry.mark, hcall]
        have hlt : e.id < n := (h.mem_iff true e.id).mp
          (hmark ▸ List.mem_map_of_mem (hentries ▸ List.mem_append_right _ List.mem_cons_self))
        obtain ⟨r, hr, hrmark⟩ := List.mem_map.mp ((h.mem_iff false e.id).mpr hlt)
        obtain ⟨hkind, hid⟩ := Prod.mk.inj hrmark
        have hreturn : r.kind = .returnEntry := by
          cases hk : r.kind with
          | callEntry => simp [hk] at hkind
          | returnEntry => rfl
        rw [← hentries, List.mem_append, List.mem_cons] at hr
        rcases hr with hr | rfl | hr
        · -- the return does not come before the call
          refine absurd ?_ (h.order e.id)
          have hsub : [r, e].Sublist entries := by
            rw [← hentries]
            exact (List.singleton_sublist.mpr hr).append
              (List.singleton_sublist.mpr List.mem_cons_self)
          have hmap := hsub.map Entry.mark
          rw [List.map_cons, List.map_singleton, hrmark, hmark] at hmap
          exact hmap
        · rw [hcall] at hreturn
          cases hreturn
        · exact ⟨r, hr, hreturn, hid⟩
  exact hsuffix [] entries rfl

/-! ## Making the list -/

/-- The nodes of a list of `n` entries, from the first one on. -/
def nodes (n : ℕ) : List ℕ := (List.range n).reverse

theorem nodes_succ (n : ℕ) : nodes (n + 1) = n :: nodes n := by
  rw [nodes, List.range_succ, List.reverse_append]
  rfl

theorem mem_nodes {n p : ℕ} : p ∈ nodes n ↔ p < n := by simp [nodes]

/-- The node of a return. -/
def Entry.returnNode (r : Entry I O) : Node I O :=
  { value := some r.value, matching := none, id := r.id }

/-- The node `p` is that of the entry `e`; the node of a call points to the return. -/
def Describes (node : ℕ → Node I O) (entries : List (Entry I O)) (p : ℕ) (e : Entry I O) :
    Prop :=
  match e.kind with
  | .returnEntry => node p = e.returnNode
  | .callEntry => ∃ q r, r ∈ entries ∧ r.kind = .returnEntry ∧ r.id = e.id ∧
      q < entries.length ∧ node q = r.returnNode ∧
      node p = { value := some e.value, matching := some q, id := e.id }

/-- The invariant of the loop of `makeLinkedEntries`. -/
structure Linked (entries : List (Entry I O)) (s : Linking I O) : Prop where
  size : s.heap.size = entries.length
  root : s.root = (nodes entries.length).head?
  chain : s.heap.links.Chain (nodes entries.length)
  describes : ∀ p e, entries.reverse[p]? = some e → Describes s.heap.node entries p e
  sound : ∀ i q, s.matching i = some q → q < entries.length ∧
    ∃ r ∈ entries, r.kind = .returnEntry ∧ r.id = i ∧ s.heap.node q = r.returnNode
  complete : ∀ r ∈ entries, r.kind = .returnEntry → (s.matching r.id).isSome

namespace Heap

/-- A node is put in front of a list. -/
theorem alloc_insertBefore_chain {h : Heap I O} {xs : List ℕ} (hchain : h.links.Chain xs)
    (hsize : ∀ x ∈ xs, x < h.size) (node : Node I O) :
    ((h.alloc node).insertBefore h.size xs.head?).links.Chain (h.size :: xs) := by
  have hne : ∀ x ∈ xs, x ≠ h.size := fun x hx => (hsize x hx).ne
  cases xs with
  | nil =>
      refine Links.chain_singleton ?_ ?_
      · simp [insertBefore, alloc, Links.setNext, Links.setPrev]
      · simp [insertBefore, alloc, Links.setNext, Links.setPrev]
  | cons mark xs =>
      have hfirst : h.links.prev mark = none := (hchain.2 [] mark xs rfl).1
      have hmark := hne mark List.mem_cons_self
      have halloc : (h.alloc node).links.Chain (mark :: xs) := by
        refine hchain.congr fun x hx => ?_
        simp [alloc, Links.setNext, Links.setPrev, Function.update_of_ne (hne x hx)]
      have hprev : (h.alloc node).links.prev mark = none := by
        simp [alloc, Links.setNext, Links.setPrev, Function.update_of_ne hmark, hfirst]
      have hlinks : ((h.alloc node).insertBefore h.size (some mark)).links =
          ((h.alloc node).links.setPrev mark (some h.size)).setNext h.size (some mark) := by
        simp only [insertBefore, hprev]
      rw [List.head?_cons, hlinks]
      refine halloc.cons (fun hmem => hne _ hmem rfl) ?_
      simp [alloc, Links.setPrev]

theorem insertBefore_node (h : Heap I O) (n : ℕ) (mark : Option ℕ) :
    (h.insertBefore n mark).node = h.node ∧ (h.insertBefore n mark).size = h.size := by
  unfold insertBefore
  split
  · exact ⟨rfl, rfl⟩
  · dsimp only
    split
    · exact ⟨rfl, rfl⟩
    · exact ⟨rfl, rfl⟩

/-- `length` counts the nodes of a list. -/
theorem length_of_chain {h : Heap I O} {xs : List ℕ} (ys : List ℕ)
    (hchain : h.links.Chain (ys ++ xs)) {fuel : ℕ} (hfuel : xs.length ≤ fuel) :
    h.length fuel xs.head? = xs.length := by
  induction xs generalizing ys fuel with
  | nil => cases fuel <;> rfl
  | cons x xs ih =>
      cases fuel with
      | zero => simp at hfuel
      | succ fuel =>
          rw [List.head?_cons, Heap.length, hchain.next_eq]
          rw [List.append_cons] at hchain
          rw [ih (ys ++ [x]) hchain (Nat.le_of_succ_le_succ hfuel), List.length_cons]

end Heap

theorem Describes.mono {node node' : ℕ → Node I O} {entries : List (Entry I O)} {p : ℕ}
    {e e' : Entry I O} (hp : p < entries.length) (h : Describes node entries p e)
    (hnode : ∀ q < entries.length, node' q = node q) :
    Describes node' (e' :: entries) p e := by
  unfold Describes at h ⊢
  split at h
  · rw [hnode p hp]
    exact h
  · obtain ⟨q, r, hr, hkind, hid, hq, hnodeq, hnodep⟩ := h
    exact ⟨q, r, List.mem_cons_of_mem _ hr, hkind, hid, Nat.lt_succ_of_lt hq,
      (hnode q hq).trans hnodeq, (hnode p hp).trans hnodep⟩

/-- A node is put in front of the others. -/
theorem Linked.front {entries : List (Entry I O)} {s : Linking I O} (h : Linked entries s)
    {node : Node I O} {heap : Heap I O}
    (hheap : (s.heap.alloc node).insertBefore s.heap.size s.root = heap) :
    heap.size = entries.length + 1 ∧ heap.links.Chain (nodes (entries.length + 1)) ∧
      heap.node entries.length = node ∧
      ∀ q < entries.length, heap.node q = s.heap.node q := by
  obtain ⟨hnode, hsize⟩ := Heap.insertBefore_node (s.heap.alloc node) s.heap.size s.root
  rw [hheap] at hnode hsize
  rw [hnode, hsize, ← hheap, h.root]
  simp only [Heap.alloc, h.size]
  refine ⟨trivial, ?_, Function.update_self _ _ _, fun q hq => Function.update_of_ne hq.ne _ _⟩
  have hchain := Heap.alloc_insertBefore_chain h.chain
    (fun x hx => h.size.symm ▸ mem_nodes.mp hx) node
  rw [nodes_succ]
  simpa only [Heap.alloc, h.size] using hchain

/-- The new node describes its entry, and the old ones describe theirs. -/
theorem Linked.describes_cons {entries : List (Entry I O)} {s : Linking I O}
    (h : Linked entries s) {node : ℕ → Node I O} {e : Entry I O}
    (hnew : Describes node (e :: entries) entries.length e)
    (hold : ∀ q < entries.length, node q = s.heap.node q) {p : ℕ} {e' : Entry I O}
    (hp : (e :: entries).reverse[p]? = some e') : Describes node (e :: entries) p e' := by
  rw [List.reverse_cons] at hp
  rcases getElem?_concat_cases hp with hp | ⟨rfl, rfl⟩
  · have hlt := (List.getElem?_eq_some_iff.mp hp).1
    rw [List.length_reverse] at hlt
    exact (h.describes p e' hp).mono hlt hold
  · rwa [List.length_reverse]

theorem Linked.sound_cons {entries : List (Entry I O)} {s : Linking I O} (h : Linked entries s)
    {node : ℕ → Node I O} (e : Entry I O) (hold : ∀ q < entries.length, node q = s.heap.node q)
    {i q : ℕ} (hq : s.matching i = some q) :
    q < (e :: entries).length ∧
      ∃ r ∈ e :: entries, r.kind = .returnEntry ∧ r.id = i ∧ node q = r.returnNode := by
  obtain ⟨hlt, r, hr, hret, hid, hnode⟩ := h.sound i q hq
  exact ⟨Nat.lt_succ_of_lt hlt, r, List.mem_cons_of_mem e hr, hret, hid,
    (hold q hlt).trans hnode⟩

/-- One more entry is put in front. -/
theorem Linked.linkEntry {entries : List (Entry I O)} {s : Linking I O} (h : Linked entries s)
    {e : Entry I O}
    (hanswered : e.kind = .callEntry → ∃ r ∈ entries, r.kind = .returnEntry ∧ r.id = e.id) :
    Linked (e :: entries) (linkEntry e s) := by
  have hroot : some s.heap.size = (nodes (e :: entries).length).head? := by
    rw [List.length_cons, nodes_succ, h.size]
    rfl
  unfold Porcupine.linkEntry
  dsimp only
  split
  · rename_i hkind
    generalize hheap : Heap.insertBefore (s.heap.alloc _) s.heap.size s.root = heap
    obtain ⟨hsize, hchain, hself, hold⟩ := h.front hheap
    refine ⟨hsize, hroot, hchain, fun p e' => h.describes_cons ?_ hold, fun i q hq => ?_,
      fun r hr hret => ?_⟩
    · rwa [Describes, hkind]
    · dsimp only at hq ⊢
      by_cases hi : i = e.id
      · rw [hi, Function.update_self, h.size] at hq
        obtain rfl := Option.some.inj hq
        exact ⟨Nat.lt_succ_self _, e, List.mem_cons_self, hkind, hi.symm, hself⟩
      · rw [Function.update_of_ne hi] at hq
        exact h.sound_cons e hold hq
    · dsimp only
      by_cases hi : r.id = e.id
      · rw [hi, Function.update_self]
        rfl
      · rw [Function.update_of_ne hi]
        rcases List.mem_cons.mp hr with rfl | hr
        · exact absurd rfl hi
        · exact h.complete r hr hret
  · rename_i hkind
    obtain ⟨r, hr, hret, hid⟩ := hanswered hkind
    obtain ⟨q, hq⟩ := Option.isSome_iff_exists.mp (h.complete r hr hret)
    rw [hid] at hq
    generalize hheap : Heap.insertBefore (s.heap.alloc _) s.heap.size s.root = heap
    obtain ⟨hsize, hchain, hself, hold⟩ := h.front hheap
    refine ⟨hsize, hroot, hchain, fun p e' => h.describes_cons ?_ hold,
      fun i q hq => h.sound_cons e hold hq, fun r hr hret => ?_⟩
    · obtain ⟨hlt, r, hr, hret, hid, hnode⟩ := h.sound_cons e hold hq
      rw [Describes, hkind]
      exact ⟨q, r, hr, hret, hid, hlt, hnode, hself.trans (by rw [hq])⟩
    · rcases List.mem_cons.mp hr with rfl | hr
      · rw [hkind] at hret
        cases hret
      · exact h.complete r hr hret

theorem linked_makeLinkedEntries {entries : List (Entry I O)} (h : Answered entries) :
    Linked entries (makeLinkedEntries entries) := by
  induction entries with
  | nil =>
      refine ⟨rfl, rfl, ⟨List.nodup_nil, fun ys x zs hsplit => ?_⟩, fun p e hp => ?_,
        fun i q hq => ?_, ?_⟩
      · simp [nodes] at hsplit
      · simp at hp
      · cases hq
      · rintro r (_ | _)
  | cons e entries ih => exact (ih h.2).linkEntry h.1

/-! ## Before the loop -/

def Node.mark (node : Node I O) : Mark := (node.matching.isSome, node.id)

/-- The nodes `ps` are those of a history of the operations `ops`, and a call points to
its return. -/
structure Layout (ops : List (I × O)) (marks : List Mark) (node : ℕ → Node I O) (head : ℕ)
    (ps : List ℕ) : Prop where
  wellFormed : WellFormed ops.length marks
  marks_eq : ps.map (fun p => (node p).mark) = marks
  matching : ∀ p ∈ ps, ∀ q, (node p).matching = some q →
    q ∈ ps ∧ (node q).mark = (false, (node p).id)
  values : ∀ p ∈ ps, ∀ q, (node p).matching = some q → ∃ io, ops[(node p).id]? = some io ∧
    (node p).value = some (.input io.1) ∧ (node q).value = some (.output io.2)
  head : head ∉ ps

theorem Describes.mark_eq {node : ℕ → Node I O} {entries : List (Entry I O)} {p : ℕ}
    {e : Entry I O} (h : Describes node entries p e) : (node p).mark = e.mark := by
  unfold Describes at h
  split at h
  · rename_i hkind
    simp [h, Node.mark, Entry.mark, Entry.returnNode, hkind]
  · rename_i hkind
    obtain ⟨q, r, -, -, -, -, -, hnode⟩ := h
    simp [hnode, Node.mark, Entry.mark, hkind]

/-- A node that points to another one is that of a call, and the other one that of its
return. -/
theorem Describes.matching {ops : List (I × O)} {node : ℕ → Node I O}
    {entries : List (Entry I O)} (hrep : Represents ops entries) {p q : ℕ} {e : Entry I O}
    (he : e ∈ entries) (h : Describes node entries p e) (hq : (node p).matching = some q) :
    q < entries.length ∧ (node q).mark = (false, (node p).id) ∧
      ∃ io, ops[(node p).id]? = some io ∧ (node p).value = some (.input io.1) ∧
        (node q).value = some (.output io.2) := by
  unfold Describes at h
  split at h
  · rw [h] at hq
    cases hq
  · rename_i hkind
    obtain ⟨q', r, hr, hret, hid, hlt, hnodeq, hnodep⟩ := h
    rw [hnodep] at hq
    obtain rfl := Option.some.inj hq
    obtain ⟨io, hio, hvalue⟩ := hrep.calls e he hkind
    obtain ⟨io', hio', hvalue'⟩ := hrep.returns r hr hret
    rw [hid] at hio'
    obtain rfl := Option.some.inj (hio.symm.trans hio')
    rw [hnodep, hnodeq]
    refine ⟨hlt, by simp [Node.mark, Entry.returnNode, hid], io, hio, ?_, ?_⟩
    · rw [hvalue]
    · rw [Entry.returnNode, hvalue']

theorem Linked.layout {ops : List (I × O)} {entries : List (Entry I O)} {s : Linking I O}
    (hrep : Represents ops entries) (h : Linked entries s) {node : ℕ → Node I O}
    (hnode : ∀ q < entries.length, node q = s.heap.node q) :
    Layout ops (entries.map Entry.mark) node entries.length (nodes entries.length) := by
  have hentry : ∀ p < entries.length, ∃ e ∈ entries, entries.reverse[p]? = some e ∧
      Describes s.heap.node entries p e := by
    intro p hp
    have hp' : p < entries.reverse.length := by rwa [List.length_reverse]
    have hget := List.getElem?_eq_getElem hp'
    exact ⟨_, List.mem_reverse.mp (List.mem_of_getElem? hget), hget, h.describes p _ hget⟩
  have hmatching : ∀ p ∈ nodes entries.length, ∀ q, (node p).matching = some q →
      q < entries.length ∧ (node q).mark = (false, (node p).id) ∧
        ∃ io, ops[(node p).id]? = some io ∧ (node p).value = some (.input io.1) ∧
          (node q).value = some (.output io.2) := by
    intro p hp q hq
    obtain ⟨e, he, -, hdescribes⟩ := hentry p (mem_nodes.mp hp)
    rw [hnode p (mem_nodes.mp hp)] at hq ⊢
    have hall := hdescribes.matching hrep he hq
    rwa [hnode q hall.1]
  refine ⟨hrep.wellFormed, ?_, fun p hp q hq => ?_, fun p hp q hq => (hmatching p hp q hq).2.2, ?_⟩
  · rw [nodes, List.map_reverse, ← List.reverse_inj, List.reverse_reverse, ← List.map_reverse]
    refine List.ext_getElem? fun p => ?_
    rw [List.getElem?_map, List.getElem?_map]
    rcases Nat.lt_or_ge p entries.length with hp | hp
    · obtain ⟨e, -, hget, hdescribes⟩ := hentry p hp
      rw [List.getElem?_range hp, hget, Option.map_some, Option.map_some, hnode p hp,
        hdescribes.mark_eq]
    · rw [List.getElem?_eq_none (by simpa using hp), List.getElem?_eq_none (by simpa using hp)]
      rfl
  · obtain ⟨hlt, hmark, -⟩ := hmatching p hp q hq
    exact ⟨mem_nodes.mpr hlt, hmark⟩
  · rw [mem_nodes]
    exact lt_irrefl _

/-- There are twice as many entries as operations. -/
theorem WellFormed.length_eq {n : ℕ} {marks : List Mark} (h : WellFormed n marks) :
    marks.length = 2 * n := by
  have hset : marks.toFinset = Finset.univ ×ˢ Finset.range n := by
    ext ⟨b, i⟩
    simp [h.mem_iff]
  rw [← List.toFinset_card_of_nodup h.nodup, hset, Finset.card_product, Finset.card_range]
  rfl

/-- What stands in the heap when the loop begins. -/
theorem layout_start (model : FullModel S I O) {ops : List (I × O)} {entries : List (Entry I O)}
    (hrep : Represents ops entries) {c : Checking S I O} (hc : c = .start model entries) :
    Layout ops (entries.map Entry.mark) c.heap.node c.headEntry (nodes entries.length) ∧
      c.heap.links.Chain (c.headEntry :: nodes entries.length) ∧
      c.entry = (nodes entries.length).head? ∧ c.linearized = newBitset ops.length ∧
      c.longest = List.replicate ops.length none := by
  have hlinked := linked_makeLinkedEntries hrep.wellFormed.answered
  have hlen : (makeLinkedEntries entries).heap.length (makeLinkedEntries entries).heap.size
      (makeLinkedEntries entries).root / 2 = ops.length := by
    have hall : (makeLinkedEntries entries).heap.links.Chain ([] ++ nodes entries.length) :=
      hlinked.chain
    rw [hlinked.root, Heap.length_of_chain [] hall]
    · have htwice := hrep.wellFormed.length_eq
      rw [List.length_map] at htwice
      simp [nodes, htwice]
    · simp [nodes, hlinked.size]
  have hhead : c.headEntry = entries.length := hc ▸ hlinked.size
  have hheap : ((makeLinkedEntries entries).heap.alloc
      { value := none, matching := none, id := 0 }).insertBefore
        (makeLinkedEntries entries).heap.size (makeLinkedEntries entries).root = c.heap := hc ▸ rfl
  obtain ⟨-, hchain, -, hold⟩ := hlinked.front hheap
  rw [hhead]
  refine ⟨hlinked.layout hrep hold, nodes_succ _ ▸ hchain, hc ▸ hlinked.root, ?_, ?_⟩
  · rw [hc, Checking.start]
    exact congrArg newBitset hlen
  · rw [hc, Checking.start]
    exact congrArg (List.replicate · none) hlen

end Porcupine

end DistributedLabs
