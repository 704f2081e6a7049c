import DistributedLabs.Porcupine.LinkedEntries

/-!
# The loop of `checkSingle` is a backtracking search

The linked list holds the entries of the operations that have not been linearized, in
their order. A round of the loop is a step of the backtracking search: the entries from
the present one up to the first return are the choices that are left. What a call lifts
out of the list is put back when the call is taken back, so that the list is again what it
was when the call was met.
-/

namespace DistributedLabs

namespace Porcupine

variable {S I O : Type}

/-! ## Lifting entries out of the list -/

/-- The nodes of the operations that have not been linearized. -/
def live (node : ℕ → Node I O) (ps : List ℕ) (L : Finset ℕ) : List ℕ :=
  ps.filter fun p => (node p).id ∉ L

theorem mem_of_live_eq {node : ℕ → Node I O} {ps pre post : List ℕ} {L : Finset ℕ} {p : ℕ}
    (h : live node ps L = pre ++ p :: post) : p ∈ ps ∧ (node p).id ∉ L := by
  have hp : p ∈ live node ps L := h ▸ List.mem_append_right _ List.mem_cons_self
  obtain ⟨hps, hL⟩ := List.mem_filter.mp hp
  exact ⟨hps, of_decide_eq_true hL⟩

/-- The choices among the nodes from the present one on. -/
def choices (node : ℕ → Node I O) (ps : List ℕ) : List ℕ :=
  firstCalls (ps.map fun p => (node p).mark)

theorem choices_cons_call {node : ℕ → Node I O} {p : ℕ} {ps : List ℕ}
    (h : (node p).matching.isSome) : choices node (p :: ps) = (node p).id :: choices node ps := by
  simp [choices, firstCalls, Node.mark, h]

theorem choices_cons_return {node : ℕ → Node I O} {p : ℕ} {ps : List ℕ}
    (h : (node p).matching = none) : choices node (p :: ps) = [] := by
  simp [choices, firstCalls, Node.mark, h]

namespace Heap

theorem lift_eq {h : Heap I O} {p q : ℕ} {l₁ l₂ : Links ℕ}
    (hq : (h.node p).matching = some q) (h₁ : h.links.unlink p = some l₁)
    (hnext : l₁.next p ≠ none) (h₂ : l₁.unlink q = some l₂) :
    h.lift p = some { h with links := l₂ } := by
  obtain ⟨prev, hprev, h₁⟩ := Option.bind_eq_some_iff.mp h₁
  dsimp only at h₁
  split at h₁
  · rename_i hnone
    obtain rfl := Option.some.inj h₁
    exact absurd hnone hnext
  · rename_i next hsome
    obtain rfl := Option.some.inj h₁
    simp only [lift, hprev, hq, hsome, h₂, Option.bind_eq_bind, Option.bind_some]

theorem unlift_eq {h : Heap I O} {p q : ℕ} {l₁ l₂ : Links ℕ}
    (hq : (h.node p).matching = some q) (h₁ : h.links.relink q = some l₁)
    (h₂ : l₁.relink p = some l₂) (hnext : l₂.next p ≠ none) :
    h.unlift p = some { h with links := l₂ } := by
  obtain ⟨prev, hprev, h₂⟩ := Option.bind_eq_some_iff.mp h₂
  dsimp only at h₂
  split at h₂
  · rename_i hnone
    obtain rfl := Option.some.inj h₂
    exact absurd hnone hnext
  · rename_i next hsome
    obtain rfl := Option.some.inj h₂
    simp only [unlift, hq, h₁, hprev, hsome, Option.bind_eq_bind, Option.bind_some]

end Heap

namespace Layout

variable {ops : List (I × O)} {marks : List Mark} {node : ℕ → Node I O} {head : ℕ}
  {ps : List ℕ} {L : Finset ℕ}

theorem live_map (h : Layout ops marks node head ps) (L : Finset ℕ) :
    (live node ps L).map (fun p => (node p).mark) = remaining marks L := by
  rw [remaining, ← h.marks_eq, List.filter_map]
  rfl

theorem eq_of_mark_eq (h : Layout ops marks node head ps) {p q : ℕ} (hp : p ∈ ps) (hq : q ∈ ps)
    (hmark : (node p).mark = (node q).mark) : p = q := by
  have hnodup := h.wellFormed.nodup
  rw [← h.marks_eq] at hnodup
  exact List.inj_on_of_nodup_map hnodup hp hq hmark

theorem nodup (h : Layout ops marks node head ps) : ps.Nodup := by
  have hnodup := h.wellFormed.nodup
  rw [← h.marks_eq] at hnodup
  exact hnodup.of_map

variable {p q : ℕ} {pre post : List ℕ}

/-- The return of a call that is left comes later in the list. -/
theorem return_later (h : Layout ops marks node head ps)
    (hsplit : live node ps L = pre ++ p :: post) (hq : (node p).matching = some q) :
    q ∈ post := by
  obtain ⟨hpps, hpL⟩ := mem_of_live_eq hsplit
  obtain ⟨hqps, hmark⟩ := h.matching p hpps q hq
  have hid : (node q).id = (node p).id := (Prod.mk.inj hmark).2
  have hqlive : q ∈ live node ps L := List.mem_filter.mpr ⟨hqps, decide_eq_true (hid ▸ hpL)⟩
  rw [hsplit, List.mem_append, List.mem_cons] at hqlive
  rcases hqlive with hpre | rfl | hpost
  · -- the return does not come before the call
    have hsub : [q, p].Sublist (live node ps L) := by
      rw [hsplit]
      exact (List.singleton_sublist.mpr hpre).append
        (List.singleton_sublist.mpr List.mem_cons_self)
    have hmarks := (hsub.trans List.filter_sublist).map fun p => (node p).mark
    have hpmark : (node p).mark = (true, (node p).id) := by simp [Node.mark, hq]
    rw [h.marks_eq, List.map_cons, List.map_singleton, hmark, hpmark] at hmarks
    exact absurd hmarks (h.wellFormed.order _)
  · simp [Node.mark, hq] at hmark
  · exact hpost

/-- What is left when the call of `p` and its return are gone. -/
theorem live_insert (h : Layout ops marks node head ps) {us vs : List ℕ}
    (hsplit : live node ps L = pre ++ p :: (us ++ q :: vs)) (hq : (node p).matching = some q) :
    live node ps (insert (node p).id L) = pre ++ (us ++ vs) := by
  have hnodup : (pre ++ p :: (us ++ q :: vs)).Nodup := hsplit ▸ h.nodup.filter _
  have hmem : ∀ x ∈ pre ++ p :: (us ++ q :: vs), x ∈ ps := fun x hx =>
    List.mem_of_mem_filter (hsplit ▸ hx : x ∈ live node ps L)
  have hp : p ∈ ps := (mem_of_live_eq hsplit).1
  obtain ⟨hqps, hmark⟩ := h.matching p hp q hq
  have hpnot := (List.nodup_cons.mp (List.nodup_middle.mp hnodup)).1
  have hqnot : q ∉ (pre ++ p :: us) ++ vs := by
    refine (List.nodup_cons.mp (List.nodup_middle.mp ?_)).1
    simpa using hnodup
  -- no other node has the same id
  have hother : ∀ x ∈ pre ++ (us ++ vs), (node x).id ≠ (node p).id := by
    intro x hx hid
    have hx₁ : x ∈ pre ++ (us ++ q :: vs) := by
      simp only [List.mem_append, List.mem_cons] at hx ⊢
      tauto
    have hx₂ : x ∈ (pre ++ p :: us) ++ vs := by
      simp only [List.mem_append, List.mem_cons] at hx ⊢
      tauto
    have hxps : x ∈ ps := hmem x (List.perm_middle.mem_iff.mpr (List.mem_cons_of_mem p hx₁))
    cases hcall : (node x).matching.isSome with
    | true =>
        have hxp := h.eq_of_mark_eq hxps hp (by simp [Node.mark, hcall, hid, hq])
        exact hpnot (hxp ▸ hx₁)
    | false =>
        have hxq := h.eq_of_mark_eq hxps hqps (by rw [hmark]; simp [Node.mark, hcall, hid])
        exact hqnot (hxq ▸ hx₂)
  have hfilter : live node ps (insert (node p).id L) =
      (live node ps L).filter fun x => (node x).id ≠ (node p).id := by
    rw [live, live, List.filter_filter]
    refine List.filter_congr fun x _ => ?_
    simp
  have hkeep := List.filter_eq_self.mpr fun x hx => decide_eq_true (hother x hx)
  have hid : (node q).id = (node p).id := (Prod.mk.inj hmark).2
  rw [List.filter_append, List.filter_append] at hkeep
  rw [hfilter, hsplit]
  simpa [List.filter_append, List.filter_cons, hid] using hkeep

/-- A call and its return are lifted out of the list, and can be put back. -/
theorem lift (h : Layout ops marks node head ps) {heap : Heap I O} (hnode : heap.node = node)
    (hchain : heap.links.Chain (head :: live node ps L))
    (hsplit : live node ps L = pre ++ p :: post) (hq : (node p).matching = some q) :
    ∃ heap', heap.lift p = some heap' ∧ heap'.unlift p = some heap ∧ heap'.node = node ∧
      heap'.links.Chain (head :: live node ps (insert (node p).id L)) := by
  obtain ⟨us, vs, rfl⟩ := List.append_of_mem (h.return_later hsplit hq)
  rw [hsplit] at hchain
  have hcall : heap.links.Chain ((head :: pre) ++ p :: (us ++ q :: vs)) := hchain
  obtain ⟨l₁, hunlink₁, hchain₁, hrelink₁, -, hnext₁⟩ := hcall.unlink (List.cons_ne_nil _ _)
  have hreturn : l₁.Chain ((head :: pre ++ us) ++ q :: vs) := by simpa using hchain₁
  obtain ⟨l₂, hunlink₂, hchain₂, hrelink₂, -, -⟩ := hreturn.unlink (by simp)
  have hnext : heap.links.next p ≠ none := by
    rw [hcall.next_eq]
    simp
  have hq' : (heap.node p).matching = some q := by rw [hnode, hq]
  refine ⟨{ heap with links := l₂ }, Heap.lift_eq hq' hunlink₁ (hnext₁ ▸ hnext) hunlink₂,
    Heap.unlift_eq (h := { heap with links := l₂ }) hq' hrelink₂ hrelink₁ hnext, hnode, ?_⟩
  rw [h.live_insert hsplit hq]
  simpa using hchain₂

end Layout

/-! ## The cache -/

/-- Whether a configuration is like one in the cache, as far as `Equal` can tell. -/
def seen (model : FullModel S I O) (cache : List (Finset ℕ × S)) (c : Finset ℕ × S) : Bool :=
  cache.any fun d => decide (c.1 = d.1) && model.equal c.2 d.2

/-- The configurations in a cache, in the order in which they were put there. -/
def Cached (n : ℕ) (cache : Cache S) (all : List (Finset ℕ × S)) : Prop :=
  ∃ entries : List (CacheEntry S),
    List.Forall₂ (fun e c => e.linearized.Holds n c.1 ∧ e.state = c.2) entries all ∧
      ∀ hash, cache hash = entries.filter fun e => e.linearized.hash = hash

section

variable {n : ℕ} {cache : Cache S} {all : List (Finset ℕ × S)}

theorem cached_nil : Cached n (fun _ => []) ([] : List (Finset ℕ × S)) := ⟨[], .nil, fun _ => rfl⟩

/-- The hash does not hide anything: what is equal has the same hash. -/
theorem Cached.contains_eq (h : Cached n cache all) (model : FullModel S I O) {b : Bitset}
    {L : Finset ℕ} (hb : b.Holds n L) (s : S) :
    cacheContains model cache { linearized := b, state := s } = seen model all (L, s) := by
  obtain ⟨entries, hrel, hcache⟩ := h
  have hfilter : cacheContains model cache { linearized := b, state := s } =
      entries.any fun e => b.equals e.linearized && model.equal s e.state := by
    rw [cacheContains, hcache, Bool.eq_iff_iff, List.any_eq_true, List.any_eq_true]
    constructor
    · rintro ⟨e, he, hequal⟩
      exact ⟨e, List.mem_of_mem_filter he, hequal⟩
    · rintro ⟨e, he, hequal⟩
      have hsame := Bitset.equals_iff.mp (Bool.and_eq_true_iff.mp hequal).1
      exact ⟨e, List.mem_filter.mpr ⟨he, by simp [hsame]⟩, hequal⟩
  rw [hfilter, seen]
  clear hfilter hcache
  induction hrel with
  | nil => rfl
  | @cons e c entries all hec _ ih =>
      have hequals : b.equals e.linearized = decide (L = c.1) := by
        rw [Bool.eq_iff_iff, Bitset.equals_iff, hb.eq_iff hec.1, decide_eq_true_iff]
      rw [List.any_cons, List.any_cons, ih, hequals, hec.2]

theorem Cached.concat (h : Cached n cache all) {b : Bitset} {L : Finset ℕ} (hb : b.Holds n L)
    (s : S) :
    Cached n (Function.update cache b.hash (cache b.hash ++ [{ linearized := b, state := s }]))
      (all ++ [(L, s)]) := by
  obtain ⟨entries, hrel, hcache⟩ := h
  refine ⟨entries ++ [{ linearized := b, state := s }],
    List.rel_append hrel (.cons ⟨hb, rfl⟩ .nil), fun hash => ?_⟩
  rw [List.filter_append]
  by_cases hhash : hash = b.hash
  · rw [hhash, Function.update_self, hcache]
    simp
  · rw [Function.update_of_ne hhash, hcache]
    simp [Ne.symm hhash]

end

/-! ## The longest sequences -/

/-- What `longest` tells about the sequences that were taken back. -/
structure Recorded (n : ℕ) (computePartial : Bool) (longest : Longest)
    (givenUp : List (List ℕ)) : Prop where
  length : longest.length = n
  genuine : ∀ i l, longest[i]? = some (some l) → l ∈ givenUp ∧ i ∈ l
  longest : computePartial = true → ∀ path ∈ givenUp, ∀ i ∈ path,
    ∃ l, longest[i]? = some (some l) ∧ path.length ≤ l.length

theorem recorded_replicate (n : ℕ) (computePartial : Bool) :
    Recorded n computePartial (List.replicate n none) [] where
  length := List.length_replicate
  genuine := by
    intro i l h
    rw [List.getElem?_replicate] at h
    split at h
    · cases Option.some.inj h
    · cases h
  longest := fun _ _ h => absurd h List.not_mem_nil

/-- `longest'` is `longest` after `seq` was recorded for the ids in `ids`. -/
structure Records (seq : List ℕ) (longest : Longest) (ids : List ℕ) (longest' : Longest) :
    Prop where
  length : longest'.length = longest.length
  genuine : ∀ i l, longest'[i]? = some (some l) → longest[i]? = some (some l) ∨ l = seq ∧ i ∈ ids
  old : ∀ (i : ℕ) (l : List ℕ), longest[i]? = some (some l) →
    ∃ l' : List ℕ, longest'[i]? = some (some l') ∧ l.length ≤ l'.length
  new : ∀ i ∈ ids, ∃ l' : List ℕ, longest'[i]? = some (some l') ∧ seq.length ≤ l'.length

theorem records_nil (seq : List ℕ) (longest : Longest) : Records seq longest [] longest where
  length := rfl
  genuine := fun _ _ h => Or.inl h
  old := fun _ l h => ⟨l, h, le_rfl⟩
  new := fun _ h => absurd h List.not_mem_nil

/-- One element of `longest` is made longer, or is long enough. -/
theorem recordAt_cases (seq : List ℕ) {longest : Longest} {id : ℕ} (hid : id < longest.length) :
    (Checking.recordAt seq longest id = some (longest.set id (some seq)) ∧
      ∀ l, longest[id]? = some (some l) → l.length ≤ seq.length) ∨
    Checking.recordAt seq longest id = some longest ∧
      ∃ l, longest[id]? = some (some l) ∧ seq.length ≤ l.length := by
  obtain ⟨old, hold⟩ : ∃ old, longest[id]? = some old := ⟨_, List.getElem?_eq_getElem hid⟩
  rw [Checking.recordAt, hold, Option.map_some]
  cases old with
  | none => exact Or.inl ⟨rfl, fun l h => by cases Option.some.inj h⟩
  | some old =>
      dsimp only
      split
      · rename_i hlt
        refine Or.inl ⟨rfl, fun l h => ?_⟩
        obtain rfl := Option.some.inj (Option.some.inj h)
        exact hlt.le
      · rename_i hle
        exact Or.inr ⟨rfl, old, rfl, not_lt.mp hle⟩

theorem Records.recordAt {seq : List ℕ} {longest longest' : Longest} {ids : List ℕ} {id : ℕ}
    (h : Records seq longest ids longest') (hid : id < longest.length) :
    ∃ longest'', Checking.recordAt seq longest' id = some longest'' ∧
      Records seq longest (ids ++ [id]) longest'' := by
  have hid' : id < longest'.length := h.length.symm ▸ hid
  rcases recordAt_cases seq hid' with ⟨hset, hshorter⟩ | ⟨hkeep, hlonger⟩
  · refine ⟨_, hset, List.length_set.trans h.length, fun i l hl => ?_, fun i l hl => ?_,
      fun i hi => ?_⟩
    · rw [List.getElem?_set] at hl
      split at hl
      · rename_i heq
        obtain rfl := Option.some.inj (Option.some.inj hl)
        exact Or.inr ⟨rfl, heq ▸ List.mem_append_right _ (List.mem_singleton_self _)⟩
      · exact (h.genuine i l hl).imp_right fun hg => ⟨hg.1, List.mem_append_left _ hg.2⟩
    · obtain ⟨l', hl', hle⟩ := h.old i l hl
      by_cases heq : id = i
      · subst heq
        exact ⟨seq, List.getElem?_set_self hid', hle.trans (hshorter l' hl')⟩
      · exact ⟨l', (List.getElem?_set_ne heq).trans hl', hle⟩
    · by_cases heq : id = i
      · subst heq
        exact ⟨seq, List.getElem?_set_self hid', le_rfl⟩
      · rcases List.mem_append.mp hi with hi | hi
        · obtain ⟨l', hl', hle⟩ := h.new i hi
          exact ⟨l', (List.getElem?_set_ne heq).trans hl', hle⟩
        · exact absurd (List.mem_singleton.mp hi).symm heq
  · refine ⟨_, hkeep, h.length, fun i l hl => ?_, h.old, fun i hi => ?_⟩
    · exact (h.genuine i l hl).imp_right fun hg => ⟨hg.1, List.mem_append_left _ hg.2⟩
    · rcases List.mem_append.mp hi with hi | hi
      · exact h.new i hi
      · rwa [List.mem_singleton.mp hi]

/-- The loop over the calls records the sequence for each of them. -/
theorem Records.foldlM {seq : List ℕ} {longest longest' : Longest} {ids rest : List ℕ}
    (h : Records seq longest ids longest') (hrest : ∀ id ∈ rest, id < longest.length) :
    ∃ longest'', rest.foldlM (Checking.recordAt seq) longest' = some longest'' ∧
      Records seq longest (ids ++ rest) longest'' := by
  induction rest generalizing ids longest' with
  | nil => exact ⟨longest', rfl, by rwa [List.append_nil]⟩
  | cons id rest ih =>
      obtain ⟨hid, hrest⟩ := List.forall_mem_cons.mp hrest
      obtain ⟨longest₁, h₁, hrecords₁⟩ := h.recordAt hid
      obtain ⟨longest₂, h₂, hrecords₂⟩ := ih hrecords₁ hrest
      refine ⟨longest₂, ?_, by rwa [List.append_assoc] at hrecords₂⟩
      rw [List.foldlM_cons, h₁]
      exact h₂

/-- A sequence is taken back. -/
theorem Recorded.concat {n : ℕ} {computePartial : Bool} {longest longest' : Longest}
    {givenUp : List (List ℕ)} {path : List ℕ} (h : Recorded n computePartial longest givenUp)
    (hrecords : Records path longest path longest') :
    Recorded n computePartial longest' (givenUp ++ [path]) where
  length := hrecords.length.trans h.length
  genuine := by
    intro i l hl
    rcases hrecords.genuine i l hl with hold | ⟨rfl, hi⟩
    · exact ⟨List.mem_append_left _ (h.genuine i l hold).1, (h.genuine i l hold).2⟩
    · exact ⟨List.mem_append_right _ (List.mem_singleton_self l), hi⟩
  longest := by
    intro hpartially path' hpath' i hi
    rcases List.mem_append.mp hpath' with hold | hnew
    · obtain ⟨l, hl, hle⟩ := h.longest hpartially path' hold i hi
      obtain ⟨l', hl', hle'⟩ := hrecords.old i l hl
      exact ⟨l', hl', hle.trans hle'⟩
    · obtain rfl := List.mem_singleton.mp hnew
      exact hrecords.new i hi

/-- Nothing is recorded if no partial linearizations are asked for. -/
theorem Recorded.ignore {n : ℕ} {longest : Longest} {givenUp : List (List ℕ)} (path : List ℕ)
    (h : Recorded n false longest givenUp) : Recorded n false longest (givenUp ++ [path]) where
  length := h.length
  genuine := fun i l hl => ⟨List.mem_append_left _ (h.genuine i l hl).1, (h.genuine i l hl).2⟩
  longest := fun hpartially => absurd hpartially Bool.false_ne_true

/-! ## The loop and the search -/

/-- The calls on the stack and the frames of the search: what was lifted for a call can be
put back, and then the list is the one in which the call was met. -/
inductive Stacked (node : ℕ → Node I O) (head : ℕ) (ps : List ℕ) :
    List (CallsEntry S) → List (Backtrack.Frame (Finset ℕ × S) ℕ) → Heap I O → Finset ℕ → Prop
  | nil {heap : Heap I O} : Stacked node head ps [] [] heap ∅
  | cons {calls : List (CallsEntry S)} {frames : List (Backtrack.Frame (Finset ℕ × S) ℕ)}
      {heap heap' : Heap I O} {L : Finset ℕ} {v : CallsEntry S} {pre post : List ℕ} :
      Stacked node head ps calls frames heap L → heap.node = node →
      heap.links.Chain (head :: live node ps L) → live node ps L = pre ++ v.entry :: post →
      (∀ a ∈ pre, (node a).matching.isSome) → (node v.entry).matching.isSome →
      heap'.unlift v.entry = some heap →
      Stacked node head ps (v :: calls)
        ({ config := (L, v.state)
           choice := (node v.entry).id
           todo := choices node post } :: frames)
        heap' (insert (node v.entry).id L)

/-- The entry at which the loop is, and the choices that are left. -/
def Cursor (node : ℕ → Node I O) (ps : List ℕ) (L : Finset ℕ) (entry : Option ℕ)
    (todo : List ℕ) : Prop :=
  ∃ pre post, live node ps L = pre ++ post ∧ (∀ a ∈ pre, (node a).matching.isSome) ∧
    entry = post.head? ∧ todo = choices node post

/-- A round of the loop and the state of the search that it stands for. -/
structure Sim (n : ℕ) (node : ℕ → Node I O) (head : ℕ) (ps : List ℕ) (computePartial : Bool)
    (c : Checking S I O) (B : Backtrack (Finset ℕ × S) ℕ) : Prop where
  node_eq : c.heap.node = node
  headEntry_eq : c.headEntry = head
  state : c.state = B.config.2
  bits : c.linearized.Holds n B.config.1
  chain : c.heap.links.Chain (head :: live node ps B.config.1)
  cursor : Cursor node ps B.config.1 c.entry B.todo
  stack : Stacked node head ps c.calls B.frames c.heap B.config.1
  cache : Cached n c.cache B.cache
  longest : Recorded n computePartial c.longest B.givenUp

section

variable {ops : List (I × O)} {marks : List Mark} {node : ℕ → Node I O} {head : ℕ}
  {ps : List ℕ} {L : Finset ℕ} {calls : List (CallsEntry S)}
  {frames : List (Backtrack.Frame (Finset ℕ × S) ℕ)} {heap : Heap I O}

theorem Layout.id_lt (h : Layout ops marks node head ps) {p : ℕ} (hp : p ∈ ps) :
    (node p).id < ops.length := by
  refine (h.wellFormed.mem_iff (node p).matching.isSome _).mp ?_
  rw [← h.marks_eq]
  exact List.mem_map_of_mem hp

theorem Layout.live_eq_nil_iff (h : Layout ops marks node head ps)
    (hL : L ⊆ Finset.range ops.length) : live node ps L = [] ↔ L = Finset.range ops.length := by
  rw [← h.wellFormed.remaining_eq_nil_iff hL, ← h.live_map, List.map_eq_nil_iff]

/-- The loop never runs off the end of the list: the last entry is a return. -/
theorem Layout.exists_cursor (h : Layout ops marks node head ps) {pre post : List ℕ}
    (hlive : live node ps L = pre ++ post) (hne : live node ps L ≠ [])
    (hpre : ∀ a ∈ pre, (node a).matching.isSome) : ∃ p rest, post = p :: rest := by
  cases post with
  | cons p rest => exact ⟨p, rest, rfl⟩
  | nil =>
      rw [List.append_nil] at hlive
      obtain ⟨pre, p, rfl⟩ := (List.eq_nil_or_concat' pre).resolve_left (hlive ▸ hne)
      obtain ⟨q, hq⟩ := Option.isSome_iff_exists.mp
        (hpre p (List.mem_append_right _ (List.mem_singleton_self p)))
      exact absurd (h.return_later hlive hq) List.not_mem_nil

/-- At the front of the list, all choices are left. -/
theorem Layout.cursor (h : Layout ops marks node head ps) (model : FullModel S I O)
    (L : Finset ℕ) (s : S) :
    Cursor node ps L (live node ps L).head? ((space model ops marks).options (L, s)) := by
  refine ⟨[], live node ps L, rfl, fun a ha => absurd ha List.not_mem_nil, rfl, ?_⟩
  rw [choices, h.live_map]
  rfl

theorem Stacked.choice_eq (h : Stacked node head ps calls frames heap L) :
    calls.map (fun v => (node v.entry).id) = frames.map Backtrack.Frame.choice := by
  induction h with
  | nil => rfl
  | cons _ _ _ _ _ _ _ ih => rw [List.map_cons, List.map_cons, ih]

theorem Stacked.mem_ps (h : Stacked node head ps calls frames heap L) :
    ∀ v ∈ calls, v.entry ∈ ps := by
  induction h with
  | nil => exact fun v hv => absurd hv List.not_mem_nil
  | cons _ _ _ hlive _ _ _ ih =>
      exact List.forall_mem_cons.mpr ⟨(mem_of_live_eq hlive).1, ih⟩

theorem Stacked.subset_range (hlayout : Layout ops marks node head ps)
    (h : Stacked node head ps calls frames heap L) : L ⊆ Finset.range ops.length := by
  induction h with
  | nil => exact Finset.empty_subset _
  | cons _ _ _ hlive _ _ _ ih =>
      have hlt := hlayout.id_lt (mem_of_live_eq hlive).1
      exact Finset.insert_subset (Finset.mem_range.mpr hlt) ih

end

namespace Sim

variable {model : FullModel S I O} {ops : List (I × O)} {marks : List Mark}
  {node : ℕ → Node I O} {head : ℕ} {ps : List ℕ} {computePartial : Bool} {c : Checking S I O}
  {B : Backtrack (Finset ℕ × S) ℕ} {pre post : List ℕ} {p q : ℕ}

theorem seq_eq {n : ℕ} (h : Sim n node head ps computePartial c B) : c.seq = B.path := by
  rw [Checking.seq, h.node_eq, h.stack.choice_eq, Backtrack.path]

theorem next_headEntry {n : ℕ} (h : Sim n node head ps computePartial c B) :
    c.heap.links.next c.headEntry = (live node ps B.config.1).head? := by
  have hchain : c.heap.links.Chain ([] ++ head :: live node ps B.config.1) := h.chain
  rw [h.headEntry_eq, hchain.next_eq]

/-- The loop passes over a call. -/
theorem skip {n : ℕ} (h : Sim n node head ps computePartial c B)
    (hlive : live node ps B.config.1 = pre ++ p :: post)
    (hpre : ∀ a ∈ pre, (node a).matching.isSome) (hcall : (node p).matching.isSome) :
    Sim n node head ps computePartial { c with entry := c.heap.links.next p }
      { B with todo := choices node post } := by
  have hchain : c.heap.links.Chain ((head :: pre) ++ p :: post) := by
    rw [List.cons_append, ← hlive]
    exact h.chain
  refine { h with cursor := ⟨pre ++ [p], post, ?_, ?_, hchain.next_eq, rfl⟩ }
  · rw [hlive, List.append_assoc, List.singleton_append]
  · exact List.forall_mem_append.mpr ⟨hpre, List.forall_mem_singleton.mpr hcall⟩

/-- A call is linearized. -/
theorem push (model : FullModel S I O) (hlayout : Layout ops marks node head ps)
    (h : Sim ops.length node head ps computePartial c B)
    (hlive : live node ps B.config.1 = pre ++ p :: post)
    (hpre : ∀ a ∈ pre, (node a).matching.isSome) (hq : (node p).matching = some q) {b : Bitset}
    (hset : c.linearized.set (node p).id = some b)
    (hb : b.Holds ops.length (insert (node p).id B.config.1)) (s : S) :
    ∃ c', c.push p s b = some (.running c') ∧
      Sim ops.length node head ps computePartial c'
        { B with
          config := (insert (node p).id B.config.1, s)
          todo := (space model ops marks).options (insert (node p).id B.config.1, s)
          frames := { config := B.config, choice := (node p).id, todo := choices node post } ::
            B.frames
          cache := B.cache ++ [(insert (node p).id B.config.1, s)] } := by
  obtain ⟨heap, hlift, hunlift, hnode, hchain⟩ := hlayout.lift h.node_eq h.chain hlive hq
  have hpush : c.push p s b = some (.running
      { c with
        heap := heap
        entry := heap.links.next c.headEntry
        state := s
        linearized := b
        cache := Function.update c.cache b.hash
          (c.cache b.hash ++ [{ linearized := b, state := s }])
        calls := { entry := p, state := c.state } :: c.calls }) := by
    rw [Checking.push, h.node_eq, hset, hlift]
    rfl
  have hhead : heap.links.Chain ([] ++ head :: live node ps (insert (node p).id B.config.1)) :=
    hchain
  have hcall : (node p).matching.isSome := by rw [hq]; rfl
  have hnext : heap.links.next c.headEntry =
      (live node ps (insert (node p).id B.config.1)).head? := by
    rw [h.headEntry_eq, hhead.next_eq]
  have hstate : B.config = (B.config.1, c.state) := by rw [h.state]
  refine ⟨_, hpush, hnode, h.headEntry_eq, rfl, hb, hchain, ?_, ?_, h.cache.concat hb s,
    h.longest⟩
  · exact hnext ▸ hlayout.cursor model _ s
  · rw [hstate]
    exact .cons h.stack h.node_eq h.chain hlive hpre hcall hunlift

/-- Before a call is taken back, the sequence is recorded. -/
theorem record (hlayout : Layout ops marks node head ps)
    (h : Sim ops.length node head ps computePartial c B) :
    ∃ longest, c.record computePartial = some longest ∧
      Recorded ops.length computePartial longest (B.givenUp ++ [B.path]) := by
  cases computePartial with
  | false => exact ⟨c.longest, rfl, h.longest.ignore B.path⟩
  | true =>
      have hlt : ∀ id ∈ B.path, id < c.longest.length := by
        intro id hid
        rw [Backtrack.path, List.mem_reverse, ← h.stack.choice_eq, List.mem_map] at hid
        obtain ⟨v, hv, rfl⟩ := hid
        rw [h.longest.length]
        exact hlayout.id_lt (h.stack.mem_ps v hv)
      obtain ⟨longest, hfold, hrecords⟩ := (records_nil B.path c.longest).foldlM hlt
      refine ⟨longest, ?_, h.longest.concat hrecords⟩
      rw [Checking.record, if_pos rfl, h.seq_eq, hfold]

/-- The last call is taken back. -/
theorem pop (hlayout : Layout ops marks node head ps)
    (h : Sim ops.length node head ps computePartial c B) {v : CallsEntry S}
    {calls : List (CallsEntry S)} {f : Backtrack.Frame (Finset ℕ × S) ℕ}
    {frames : List (Backtrack.Frame (Finset ℕ × S) ℕ)} (hcalls : c.calls = v :: calls)
    (hframes : B.frames = f :: frames) :
    ∃ c', c.pop computePartial v calls = some (.running c') ∧
      Sim ops.length node head ps computePartial c'
        { B with
          config := f.config, todo := f.todo, frames := frames
          givenUp := B.givenUp ++ [B.path] } := by
  obtain ⟨longest, hrecord, hlongest⟩ := h.record hlayout
  have hbits := h.bits
  have hstack := h.stack
  rw [hcalls, hframes] at hstack
  generalize B.config.1 = L at hstack hbits
  cases hstack with
  | @cons _ _ heap _ L _ pre post hstack hnode hchain hlive hpre hcall hunlift =>
      obtain ⟨hmem, hnot⟩ := mem_of_live_eq hlive
      obtain ⟨b, hclear, hb⟩ := hbits.clear (hlayout.id_lt hmem)
      rw [Finset.erase_insert hnot] at hb
      have hlink : heap.links.Chain ((head :: pre) ++ v.entry :: post) := by
        rw [List.cons_append, ← hlive]
        exact hchain
      have hpop : c.pop computePartial v calls = some (.running
          { c with
            heap := heap
            entry := heap.links.next v.entry
            state := v.state
            linearized := b
            calls := calls
            longest := longest }) := by
        simp only [Checking.pop, hrecord, h.node_eq, hclear, hunlift, Option.bind_eq_bind,
          Option.bind_some]
      refine ⟨_, hpop, hnode, h.headEntry_eq, rfl, hb, hchain,
        ⟨pre ++ [v.entry], post, ?_, ?_, hlink.next_eq, rfl⟩, hstack, h.cache, hlongest⟩
      · rw [hlive, List.append_assoc, List.singleton_append]
      · exact List.forall_mem_append.mpr ⟨hpre, List.forall_mem_singleton.mpr hcall⟩

/-- When nothing is left, the loop ends. -/
theorem step_of_goal {n : ℕ} (hempty : live node ps B.config.1 = [])
    (h : Sim n node head ps computePartial c B) (kill : Bool) :
    c.step model computePartial kill =
      some (.returned true (c.longest.map fun _ => some B.path)) := by
  rw [Checking.step, h.next_headEntry, hempty, ← h.seq_eq]
  rfl

theorem step_of_kill {n : ℕ} (hne : live node ps B.config.1 ≠ [])
    (h : Sim n node head ps computePartial c B) :
    c.step model computePartial true = some (.returned false c.longest) := by
  obtain ⟨p, rest, hlive⟩ := List.exists_cons_of_ne_nil hne
  rw [Checking.step, h.next_headEntry, hlive]
  rfl

/-- What the loop does when something is left, and nothing is killed. -/
theorem step_eq {n : ℕ} (h : Sim n node head ps computePartial c B)
    (hne : live node ps B.config.1 ≠ []) (hentry : c.entry = some p) :
    c.step model computePartial false =
      (node p).matching.elim (c.goBack computePartial) (c.tryCall model p) := by
  obtain ⟨r, rest, hlive⟩ := List.exists_cons_of_ne_nil hne
  simp only [Checking.step, h.next_headEntry, hlive, hentry, h.node_eq, List.head?_cons,
    Option.bind_some, Bool.false_eq_true, if_false]
  cases (node p).matching with
  | none => rfl
  | some q => rfl

/-- A round at a return. -/
theorem goBack (hlayout : Layout ops marks node head ps)
    (h : Sim ops.length node head ps computePartial c B) (htodo : B.todo = []) :
    (B.step (space model ops marks) (seen model) = none ∧
      c.goBack computePartial = some (.returned false c.longest)) ∨
    ∃ c' B', B.step (space model ops marks) (seen model) = some B' ∧
      c.goBack computePartial = some (.running c') ∧
      Sim ops.length node head ps computePartial c' B' := by
  have hchoice := h.stack.choice_eq
  cases hcalls : c.calls with
  | nil =>
      rw [hcalls, List.map_nil, eq_comm, List.map_eq_nil_iff] at hchoice
      refine Or.inl ⟨?_, ?_⟩
      · rw [Backtrack.step, htodo, hchoice]
      · rw [Checking.goBack, hcalls]
  | cons v calls =>
      cases hframes : B.frames with
      | nil =>
          rw [hcalls, hframes] at hchoice
          cases hchoice
      | cons f frames =>
          obtain ⟨c', hpop, hsim⟩ := h.pop hlayout hcalls hframes
          refine Or.inr ⟨c', _, ?_, ?_, hsim⟩
          · rw [Backtrack.step, htodo, hframes]
          · rw [Checking.goBack, hcalls]
            exact hpop

/-- A round at a call. -/
theorem tryCall (hlayout : Layout ops marks node head ps)
    (h : Sim ops.length node head ps computePartial c B)
    (hlive : live node ps B.config.1 = pre ++ p :: post)
    (hpre : ∀ a ∈ pre, (node a).matching.isSome) (hq : (node p).matching = some q)
    (htodo : B.todo = (node p).id :: choices node post) :
    ∃ c' B', B.step (space model ops marks) (seen model) = some B' ∧
      c.tryCall model p q = some (.running c') ∧
      Sim ops.length node head ps computePartial c' B' := by
  obtain ⟨hmem, hnot⟩ := mem_of_live_eq hlive
  obtain ⟨io, hio, hinput, houtput⟩ := hlayout.values p hmem q hq
  obtain ⟨b, hset, hb⟩ := h.bits.set (hlayout.id_lt hmem)
  have hskip := h.skip hlive hpre (by rw [hq]; rfl)
  have hnext : (space model ops marks).next B.config (node p).id =
      (model.take c.state io).map fun s => (insert (node p).id B.config.1, s) := by
    simp only [space, takeId, hio, Option.bind_some, if_neg hnot, h.state]
  cases hstep : model.step c.state io.1 io.2 with
  | mk ok s =>
      cases ok with
      | false =>
          refine ⟨_, _, ?_, ?_, hskip⟩
          · simp [Backtrack.step, htodo, hnext, FullModel.take, hstep]
          · simp [Checking.tryCall, h.node_eq, hinput, houtput, hstep, Checking.skip]
      | true =>
          have hcontains := h.cache.contains_eq model hb s
          cases hseen : seen model B.cache (insert (node p).id B.config.1, s) with
          | true =>
              refine ⟨_, _, ?_, ?_, hskip⟩
              · simp [Backtrack.step, htodo, hnext, FullModel.take, hstep, hseen]
              · simp [Checking.tryCall, h.node_eq, hinput, houtput, hstep, hset, hcontains, hseen,
                  Checking.skip]
          | false =>
              obtain ⟨c', hpush, hsim⟩ := h.push model hlayout hlive hpre hq hset hb s
              refine ⟨c', _, ?_, ?_, hsim⟩
              · simp [Backtrack.step, htodo, hnext, FullModel.take, hstep, hseen]
              · simp [Checking.tryCall, h.node_eq, hinput, houtput, hstep, hset, hcontains, hseen,
                  hpush]

/-- A round of the loop is a step of the search. -/
theorem step (model : FullModel S I O) (hlayout : Layout ops marks node head ps)
    (h : Sim ops.length node head ps computePartial c B)
    (hne : live node ps B.config.1 ≠ []) :
    (B.step (space model ops marks) (seen model) = none ∧
      c.step model computePartial false = some (.returned false c.longest)) ∨
    ∃ c' B', B.step (space model ops marks) (seen model) = some B' ∧
      c.step model computePartial false = some (.running c') ∧
      Sim ops.length node head ps computePartial c' B' := by
  obtain ⟨pre, post, hlive, hpre, hentry, htodo⟩ := h.cursor
  obtain ⟨p, post, rfl⟩ := hlayout.exists_cursor hlive hne hpre
  rw [h.step_eq hne hentry]
  cases hq : (node p).matching with
  | none => exact h.goBack hlayout (htodo.trans (choices_cons_return hq))
  | some q =>
      refine Or.inr (h.tryCall hlayout hlive hpre hq (htodo.trans (choices_cons_call ?_)))
      rw [hq]
      rfl

end Sim

end Porcupine

end DistributedLabs
