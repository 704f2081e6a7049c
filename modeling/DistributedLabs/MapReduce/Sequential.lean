import Mathlib.Data.List.Sort
import DistributedLabs.Logic.Run
import DistributedLabs.Logic.Tabulation
import DistributedLabs.MapReduce.Worker

/-!
# Distributed MapReduce gives the output of `mrsequential`

Each map task leaves its pairs in one file for each reduce task, and a reduce
task reads one file of each map task. Whatever is executed again is written again
with the same contents, as long as no map task overwrites an input file. So the
output files of the reduce tasks together are a table of all the keys, and so is
the output file of `mrsequential`.
-/

namespace DistributedLabs

namespace MapReduce

/-! ## File names -/

theorem isDigit_of_mem_toString {n : ℕ} {c : Char} (h : c ∈ (toString n).toList) :
    c.isDigit = true := by
  rw [Nat.toString_eq_ofList_toDigits, String.toList_ofList] at h
  exact Nat.isDigit_of_mem_toDigits (by decide) (by decide) h

theorem dash_notMem_toString (n : ℕ) : '-' ∉ (toString n).toList := fun h =>
  absurd (isDigit_of_mem_toString h) (by decide)

theorem toList_toString_inj {m n : ℕ} (h : (toString m).toList = (toString n).toList) :
    m = n := by
  rw [Nat.toString_eq_ofList_toDigits, Nat.toString_eq_ofList_toDigits, String.toList_ofList,
    String.toList_ofList] at h
  have hvalue := congrArg (fun digits => Nat.ofDigitChars 10 digits 0) h
  simpa only [Nat.ofDigitChars_ten_toDigits] using hvalue

theorem toList_mapOutFileName (m r : ℕ) :
    (mapOutFileName m r).toList =
      "mr-".toList ++ ((toString m).toList ++ '-' :: (toString r).toList) := by
  simp only [mapOutFileName, String.toList_append, List.append_assoc]
  rfl

theorem mapOutFileName_inj {m m' r r' : ℕ} (h : mapOutFileName m r = mapOutFileName m' r') :
    m = m' ∧ r = r' := by
  have hlist := congrArg String.toList h
  rw [toList_mapOutFileName, toList_mapOutFileName, List.append_cancel_left_eq,
    List.append_cons_inj_of_notMem (dash_notMem_toString m) (dash_notMem_toString r)] at hlist
  exact ⟨toList_toString_inj hlist.1, toList_toString_inj hlist.2.2⟩

theorem outFileName_inj {r r' : ℕ} (h : outFileName r = outFileName r') : r = r' := by
  have hlist := congrArg String.toList h
  simp only [outFileName, String.toList_append, List.append_cancel_left_eq] at hlist
  exact toList_toString_inj hlist

theorem mapOutFileName_ne_outFileName (m r r' : ℕ) : mapOutFileName m r ≠ outFileName r' := by
  intro h
  have hlist := congrArg String.toList h
  have hout : (outFileName r').toList =
      "mr-".toList ++ ("out".toList ++ '-' :: (toString r').toList) := by
    simp only [outFileName, String.toList_append]
    rfl
  rw [toList_mapOutFileName, hout, List.append_cancel_left_eq,
    List.append_cons_inj_of_notMem (dash_notMem_toString m) (dash_notMem_toString r)] at hlist
  -- a number does not have letters
  have hmem : 'o' ∈ (toString m).toList := by
    rw [hlist.1]
    decide
  exact absurd (isDigit_of_mem_toString hmem) (by decide)

section

variable {γ : Type*} {fmt : Format γ} {mapf : String → γ → List KeyValue}
  {reducef : String → List String → String}

/-! ## One reduce task -/

theorem groupEnd_eq (kva : List KeyValue) (key : String) {fuel j : ℕ}
    (hfuel : kva.length ≤ j + fuel) :
    groupEnd kva key fuel j = j + ((kva.drop j).takeWhile fun kv => kv.key = key).length := by
  induction fuel generalizing j with
  | zero =>
      rw [List.drop_of_length_le (by omega)]
      rfl
  | succ fuel ih =>
      unfold groupEnd
      split
      · rename_i kv hkv
        rw [List.drop_eq_getElem?_toList_append, hkv, Option.toList_some, List.singleton_append]
        split
        · rename_i hkey
          rw [ih (by omega), List.takeWhile_cons_of_pos (by simpa using hkey), List.length_cons]
          omega
        · rename_i hkey
          rw [List.takeWhile_cons_of_neg (by simpa using hkey), List.length_nil, Nat.add_zero]
      · rename_i hkv
        rw [List.drop_of_length_le (List.getElem?_eq_none_iff.mp hkv)]
        rfl

/-- The values under a key, in the order of a list. -/
def valuesOf (kva : List KeyValue) (key : String) : List String :=
  (kva.filter fun kv => kv.key = key).map KeyValue.value

/-- In a sorted list the first group has all the values under its key. -/
theorem valuesOf_cons_self {kv : KeyValue} {rest : List KeyValue}
    (hsorted : (kv :: rest).Pairwise fun a b => a.key ≤ b.key) :
    valuesOf (kv :: rest) kv.key =
      (kv :: rest.takeWhile fun kv' => kv'.key = kv.key).map KeyValue.value := by
  obtain ⟨hle, hrest⟩ := List.pairwise_cons.mp hsorted
  unfold valuesOf
  rw [List.filter_cons_of_pos (by simp), filter_eq_takeWhile hrest hle]

/-- The values under the other keys come after the first group. -/
theorem valuesOf_cons_of_ne {kv : KeyValue} {rest : List KeyValue} {key : String}
    (h : kv.key ≠ key) :
    valuesOf (kv :: rest) key = valuesOf (rest.dropWhile fun kv' => kv'.key = kv.key) key := by
  unfold valuesOf
  rw [List.filter_cons_of_neg (by simpa using h), filter_dropWhile_of_ne h]

/-- The first group of a sorted list, and a table of what comes after it. -/
theorem tabulates_cons {kv : KeyValue} {rest : List KeyValue} {records : List (String × String)}
    (hsorted : (kv :: rest).Pairwise fun a b => a.key ≤ b.key)
    (h : Tabulates
      (fun key => reducef key (valuesOf (rest.dropWhile fun kv' => kv'.key = kv.key) key))
      ((rest.dropWhile fun kv' => kv'.key = kv.key).map KeyValue.key) records) :
    Tabulates (fun key => reducef key (valuesOf (kv :: rest) key))
      ((kv :: rest).map KeyValue.key)
      ((kv.key, reducef kv.key
        ((kv :: rest.takeWhile fun kv' => kv'.key = kv.key).map KeyValue.value)) :: records) := by
  obtain ⟨hle, hrest⟩ := List.pairwise_cons.mp hsorted
  set later := rest.dropWhile fun kv' => kv'.key = kv.key
  have hnew : kv.key ∉ later.map KeyValue.key := by
    intro hmem
    obtain ⟨kv', hkv', hkey⟩ := List.mem_map.mp hmem
    exact key_ne_of_mem_dropWhile hrest hle hkv' hkey
  have hlater : Tabulates (fun key => reducef key (valuesOf (kv :: rest) key))
      (later.map KeyValue.key) records := by
    refine h.congr (fun _ => Iff.rfl) fun key hkey => ?_
    rw [valuesOf_cons_of_ne fun heq => hnew (heq ▸ hkey)]
  rw [← valuesOf_cons_self hsorted]
  refine (hlater.cons hnew).congr (fun key => ?_) fun _ _ => rfl
  -- the keys of the first group are all the same
  rw [List.map_cons, List.mem_cons, List.mem_cons,
    ← List.takeWhile_append_dropWhile (p := fun kv' => kv'.key = kv.key) (l := rest),
    List.map_append, List.mem_append]
  constructor
  · rintro (rfl | hmem | hmem)
    · exact Or.inl rfl
    · obtain ⟨kv', hkv', rfl⟩ := List.mem_map.mp hmem
      exact Or.inl (by simpa using List.mem_takeWhile_imp hkv')
    · exact Or.inr hmem
  · rintro (rfl | hmem)
    · exact Or.inl rfl
    · exact Or.inr (Or.inr hmem)

/-- The loop makes a table of what is left of a sorted list. -/
theorem reduceGroups_tabulates {kva : List KeyValue}
    (hkva : kva.Pairwise fun a b => a.key ≤ b.key) {fuel i : ℕ}
    (hfuel : kva.length ≤ i + fuel) :
    Tabulates (fun key => reducef key (valuesOf (kva.drop i) key))
      ((kva.drop i).map KeyValue.key) (reduceGroups reducef kva fuel i) := by
  induction fuel generalizing i with
  | zero =>
      rw [List.drop_of_length_le (by omega)]
      exact .nil _
  | succ fuel ih =>
      unfold reduceGroups
      split
      · rename_i hnone
        rw [List.drop_of_length_le (List.getElem?_eq_none_iff.mp hnone)]
        exact .nil _
      · rename_i kv hkv
        have hdrop : kva.drop i = kv :: kva.drop (i + 1) := by
          rw [List.drop_eq_getElem?_toList_append, hkv, Option.toList_some,
            List.singleton_append]
        have hj := groupEnd_eq kva kv.key (show kva.length ≤ i + 1 + kva.length by omega)
        have hvalues : groupValues kva i (groupEnd kva kv.key kva.length (i + 1)) =
            (kv :: (kva.drop (i + 1)).takeWhile fun kv' => kv'.key = kv.key).map
              KeyValue.value := by
          unfold groupValues
          rw [hj, hdrop, Nat.add_assoc, Nat.add_sub_cancel_left, Nat.add_comm 1,
            List.take_succ_cons, take_length_takeWhile]
        have hrest := ih (show kva.length ≤
          groupEnd kva kv.key kva.length (i + 1) + fuel by omega)
        rw [hj, ← List.drop_drop, drop_length_takeWhile, ← hj] at hrest
        have hcons := tabulates_cons (hdrop ▸ hkva.drop) hrest
        rw [← hvalues, ← hdrop] at hcons
        exact hcons

/-! ## The map tasks -/

/-- The pairs of a reduce task. -/
def pairsOf (nReduce r : ℕ) (kva : List KeyValue) : List KeyValue :=
  kva.filter fun kv => ihash kv.key % nReduce = r

/-- Each bucket has the pairs of its reduce task, in their order. -/
theorem buckets_getElem? (nReduce : ℕ) {r : ℕ} (hr : r < nReduce) (kva : List KeyValue) :
    (buckets nReduce kva)[r]? = some (pairsOf nReduce r kva) := by
  have hfold : ∀ (kva : List KeyValue) (b : List (List KeyValue)),
      (kva.foldl (fun b kv => b.modify (ihash kv.key % nReduce) (· ++ [kv])) b)[r]? =
        (b[r]?).map (· ++ pairsOf nReduce r kva) := by
    intro kva
    induction kva with
    | nil => intro b; simp [pairsOf]
    | cons kv kva ih =>
        intro b
        rw [List.foldl_cons, ih, List.getElem?_modify]
        by_cases hkv : ihash kv.key % nReduce = r
        · simp [pairsOf, hkv, Function.comp_def]
        · simp [pairsOf, hkv]
  rw [buckets, hfold, List.getElem?_replicate_of_lt hr]
  rfl

theorem writeBuckets_of_ne (mapId : ℕ) (b : List (List KeyValue)) {nReduce : ℕ} (dir : Dir γ)
    {name : String} (hname : ∀ r < nReduce, name ≠ mapOutFileName mapId r) :
    writeBuckets fmt mapId b nReduce dir name = dir name := by
  induction nReduce with
  | zero => rfl
  | succ n ih =>
      unfold writeBuckets at ih ⊢
      rw [List.range_succ, List.foldl_append]
      exact (Function.update_of_ne (hname n (Nat.lt_succ_self n)) _ _).trans
        (ih fun r hr => hname r (Nat.lt_succ_of_lt hr))

theorem writeBuckets_self (mapId : ℕ) (b : List (List KeyValue)) {nReduce r : ℕ} (dir : Dir γ)
    (hr : r < nReduce) :
    writeBuckets fmt mapId b nReduce dir (mapOutFileName mapId r) =
      some { bytes := fmt.encode ((b[r]?).getD []) } := by
  induction nReduce with
  | zero => omega
  | succ n ih =>
      unfold writeBuckets at ih ⊢
      rw [List.range_succ, List.foldl_append]
      by_cases hrn : r = n
      · rw [hrn]
        exact Function.update_self _ _ _
      · have hne : mapOutFileName mapId r ≠ mapOutFileName mapId n :=
          fun h => hrn (mapOutFileName_inj h).2
        exact (Function.update_of_ne hne _ _).trans (ih (by omega))

/-- What the map function makes of an input file. -/
def mapOutput (mapf : String → γ → List KeyValue) (dir : Dir γ) (filename : String) :
    List KeyValue :=
  ((dir filename).map fun file => mapf filename file.bytes).getD []

theorem mapFiles_eq {dir : Dir γ} {files : List String} {intermediate : List KeyValue}
    (h : mapFiles mapf dir files = some intermediate) :
    intermediate = files.flatMap (mapOutput mapf dir) := by
  have hfold : ∀ (files : List String) (acc : List KeyValue),
      files.foldlM (fun intermediate filename =>
        (dir filename).map fun file => intermediate ++ mapf filename file.bytes) acc =
          some intermediate →
      intermediate = acc ++ files.flatMap (mapOutput mapf dir) := by
    intro files
    induction files with
    | nil =>
        intro acc h
        obtain rfl := Option.some.inj h
        simp
    | cons filename files ih =>
        intro acc h
        rw [List.foldlM_cons] at h
        obtain ⟨acc', hacc, h⟩ := Option.bind_eq_some_iff.mp h
        obtain ⟨file, hfile, rfl⟩ := Option.map_eq_some_iff.mp hacc
        rw [ih _ h, List.flatMap_cons, mapOutput, hfile]
        simp
  exact hfold files [] h

section

variable (fmt) (mapf) (dir₀ : Dir γ) (files : List String) (nReduce : ℕ)

/-- The input files are as they were. -/
def InputsKept (dir : Dir γ) : Prop := ∀ f ∈ files, dir f = dir₀ f

/-- The output of a map task is there. -/
def Mapped (mapId : ℕ) (dir : Dir γ) : Prop :=
  ∀ f, files[mapId]? = some f → ∀ r < nReduce,
    dir (mapOutFileName mapId r) =
      some { bytes := fmt.encode (pairsOf nReduce r (mapOutput mapf dir₀ f)) }

/-- The output of a reduce task is there. -/
def Reduced (reducef : String → List String → String) (r : ℕ) (dir : Dir γ) : Prop :=
  ∃ sorted, IsSort (pairsOf nReduce r (files.flatMap (mapOutput mapf dir₀))) sorted ∧
    dir (outFileName r) = some (reduceFile fmt reducef sorted)

end

section

variable {dir₀ dir dir' : Dir γ} {files : List String} {nReduce m : ℕ}

theorem mapInput_cases {reply : TaskResponse} {kva : List KeyValue}
    (h : mapInput mapf dir reply = some kva) :
    ∃ file, dir reply.xTask.fileName = some file ∧
      kva = mapf reply.xTask.fileName file.bytes := by
  obtain ⟨file, hfile, h⟩ := Option.bind_eq_some_iff.mp h
  refine ⟨file, hfile, ?_⟩
  split at h
  · cases h
  · exact (Option.some.inj h).symm

theorem mapStep_cases (hs : mapStep fmt mapf files nReduce dir m = some dir') :
    ∃ f file, files[m]? = some f ∧ dir f = some file ∧
      dir' = writeBuckets fmt m (buckets nReduce (mapf f file.bytes)) nReduce dir := by
  obtain ⟨reply, hreply, hs⟩ := Option.bind_eq_some_iff.mp hs
  obtain ⟨task, htask, rfl⟩ := Option.map_eq_some_iff.mp hreply
  obtain ⟨kva, hkva, rfl⟩ := Option.map_eq_some_iff.mp hs
  obtain ⟨file, hfile, rfl⟩ := mapInput_cases hkva
  have hidx : (files.mapIdx fun id fileName =>
      ({ fileName := fileName, mapId := id } : Task))[m]? = some task := htask
  rw [List.getElem?_mapIdx] at hidx
  obtain ⟨f, hf, rfl⟩ := Option.map_eq_some_iff.mp hidx
  exact ⟨f, file, hf, hfile, rfl⟩

theorem InputsKept.mapStep
    (hnames : ∀ f ∈ files, ∀ m < files.length, ∀ r < nReduce, f ≠ mapOutFileName m r)
    (h : InputsKept dir₀ files dir) (hs : mapStep fmt mapf files nReduce dir m = some dir') :
    InputsKept dir₀ files dir' := by
  obtain ⟨f, file, hf, -, rfl⟩ := mapStep_cases hs
  intro g hg
  rw [writeBuckets_of_ne _ _ _ (hnames g hg m (List.getElem?_eq_some_iff.mp hf).1), h g hg]

theorem mapped_of_mapStep (h : InputsKept dir₀ files dir)
    (hs : mapStep fmt mapf files nReduce dir m = some dir') :
    Mapped fmt mapf dir₀ files nReduce m dir' := by
  obtain ⟨f, file, hf, hfile, rfl⟩ := mapStep_cases hs
  intro g hg r hr
  obtain rfl : f = g := Option.some.inj (hf.symm.trans hg)
  have hinput : dir₀ f = some file := by rw [← h f (List.mem_of_getElem? hf), hfile]
  rw [writeBuckets_self _ _ _ hr, buckets_getElem? _ hr, mapOutput, hinput]
  rfl

/-- A map task that is executed again writes the same files again. -/
theorem Mapped.mapStep {k : ℕ} (h : InputsKept dir₀ files dir)
    (hk : Mapped fmt mapf dir₀ files nReduce k dir)
    (hs : mapStep fmt mapf files nReduce dir m = some dir') :
    Mapped fmt mapf dir₀ files nReduce k dir' := by
  by_cases hkm : k = m
  · rw [hkm]
    exact mapped_of_mapStep h hs
  · obtain ⟨f, file, hf, hfile, rfl⟩ := mapStep_cases hs
    intro g hg r hr
    rw [writeBuckets_of_ne, hk g hg r hr]
    exact fun _ _ heq => hkm (mapOutFileName_inj heq).1

/-- After a run of map tasks, the output of every task in it is there. -/
theorem mapped_of_mem
    (hnames : ∀ f ∈ files, ∀ m < files.length, ∀ r < nReduce, f ≠ mapOutFileName m r)
    {maps : List ℕ} (hmaps : exec (mapStep fmt mapf files nReduce) dir₀ maps = some dir)
    (hm : m ∈ maps) : Mapped fmt mapf dir₀ files nReduce m dir := by
  refine exec_of_mem (I := InputsKept dir₀ files) ?_ ?_ ?_ (fun _ _ => rfl) hm hmaps
  · exact fun _ _ _ hkept hs => hkept.mapStep hnames hs
  · exact fun _ _ _ hkept hmapped hs => hmapped.mapStep hkept hs
  · exact fun _ _ hkept hs => mapped_of_mapStep hkept hs

/-! ## The reduce tasks -/

/-- A reduce task reads its pairs of all the map tasks. -/
theorem readIntermediate_eq {r : ℕ} (hr : r < nReduce)
    (h : ∀ m < files.length, Mapped fmt mapf dir₀ files nReduce m dir) :
    readIntermediate fmt dir files.length r =
      some (pairsOf nReduce r (files.flatMap (mapOutput mapf dir₀))) := by
  have htake : ∀ k ≤ files.length, readIntermediate fmt dir k r =
      some (pairsOf nReduce r ((files.take k).flatMap (mapOutput mapf dir₀))) := by
    intro k
    induction k with
    | zero => intro _; rfl
    | succ k ih =>
        intro hk
        obtain ⟨f, hf⟩ : ∃ f, files[k]? = some f := ⟨_, List.getElem?_eq_getElem hk⟩
        have hread := ih (Nat.le_of_succ_le hk)
        unfold readIntermediate at hread ⊢
        rw [List.range_succ, List.foldlM_append, hread, List.take_add_one, hf]
        simp [h k hk f hf r hr, fmt.decode_encode, pairsOf]
  rw [htake _ le_rfl, List.take_length]

theorem reduceStep_cases {task : ℕ × List KeyValue}
    (hs : reduceStep fmt reducef files nReduce dir task = some dir') :
    task.1 < nReduce ∧ ∃ intermediate,
      readIntermediate fmt dir files.length task.1 = some intermediate ∧
      IsSort intermediate task.2 ∧
      dir' = dir.write (outFileName task.1) (reduceFile fmt reducef task.2) := by
  obtain ⟨reply, hreply, hs⟩ := Option.bind_eq_some_iff.mp hs
  unfold reduceReply at hreply
  split at hreply
  · rename_i hr
    obtain rfl := Option.some.inj hreply
    obtain ⟨intermediate, hread, hs⟩ := Option.bind_eq_some_iff.mp hs
    split at hs
    · rename_i hsort
      exact ⟨hr, intermediate, hread, hsort, (Option.some.inj hs).symm⟩
    · cases hs
  · cases hreply

theorem Mapped.reduceStep (h : Mapped fmt mapf dir₀ files nReduce m dir)
    {task : ℕ × List KeyValue}
    (hs : reduceStep fmt reducef files nReduce dir task = some dir') :
    Mapped fmt mapf dir₀ files nReduce m dir' := by
  obtain ⟨-, _, -, -, rfl⟩ := reduceStep_cases hs
  intro f hf r hr
  rw [Dir.write, Function.update_of_ne (mapOutFileName_ne_outFileName m r task.1), h f hf r hr]

theorem reduced_of_reduceStep
    (h : ∀ m < files.length, Mapped fmt mapf dir₀ files nReduce m dir)
    {task : ℕ × List KeyValue}
    (hs : reduceStep fmt reducef files nReduce dir task = some dir') :
    Reduced fmt mapf dir₀ files nReduce reducef task.1 dir' := by
  obtain ⟨hr, intermediate, hread, hsort, rfl⟩ := reduceStep_cases hs
  rw [readIntermediate_eq hr h] at hread
  obtain rfl := Option.some.inj hread
  exact ⟨task.2, hsort, Function.update_self _ _ _⟩

/-- A reduce task that is executed again leaves its output, which may be sorted
in another way, and the output of the others. -/
theorem Reduced.reduceStep {r : ℕ}
    (h : ∀ m < files.length, Mapped fmt mapf dir₀ files nReduce m dir)
    (hr : Reduced fmt mapf dir₀ files nReduce reducef r dir) {task : ℕ × List KeyValue}
    (hs : reduceStep fmt reducef files nReduce dir task = some dir') :
    Reduced fmt mapf dir₀ files nReduce reducef r dir' := by
  by_cases hrt : r = task.1
  · rw [hrt]
    exact reduced_of_reduceStep h hs
  · obtain ⟨-, _, -, -, rfl⟩ := reduceStep_cases hs
    obtain ⟨sorted, hsort, hdir⟩ := hr
    refine ⟨sorted, hsort, ?_⟩
    rw [Dir.write, Function.update_of_ne fun heq => hrt (outFileName_inj heq), hdir]

theorem reduced_of_mem (h : ∀ m < files.length, Mapped fmt mapf dir₀ files nReduce m dir)
    {reduces : List (ℕ × List KeyValue)}
    (hreduces : exec (reduceStep fmt reducef files nReduce) dir reduces = some dir')
    {r : ℕ} (hr : r ∈ reduces.map Prod.fst) :
    Reduced fmt mapf dir₀ files nReduce reducef r dir' := by
  obtain ⟨task, htask, rfl⟩ := List.mem_map.mp hr
  refine exec_of_mem
    (I := fun dir => ∀ m < files.length, Mapped fmt mapf dir₀ files nReduce m dir)
    ?_ ?_ ?_ h htask hreduces
  · exact fun _ _ _ hmapped hs m hm => (hmapped m hm).reduceStep hs
  · exact fun _ _ _ hmapped hreduced hs => hreduced.reduceStep hmapped hs
  · exact fun _ _ hmapped hs => reduced_of_reduceStep hmapped hs

theorem exists_isSort (kva : List KeyValue) : ∃ sorted, IsSort kva sorted := by
  have htrans : IsTrans KeyValue fun a b => a.key ≤ b.key := ⟨fun _ _ _ => le_trans⟩
  have htotal : Std.Total fun a b : KeyValue => a.key ≤ b.key := ⟨fun a b => le_total a.key b.key⟩
  exact ⟨kva.mergeSort fun a b => a.key ≤ b.key, List.mergeSort_perm _ _,
    List.pairwise_mergeSort' (fun a b : KeyValue => a.key ≤ b.key) kva⟩

/-! ## Both outputs -/

/-- The output of a sorted list is a table, in which the order of the values does
not matter. -/
theorem reduceFile_tabulates
    (hreducef : ∀ key (vs vs' : List String), vs.Perm vs' → reducef key vs = reducef key vs')
    {kva sorted : List KeyValue} (h : IsSort kva sorted) :
    Tabulates (fun key => reducef key (valuesOf kva key)) (kva.map KeyValue.key)
      (reduceFile fmt reducef sorted).records := by
  obtain ⟨hperm, hsorted⟩ := h
  have htable : Tabulates (fun key => reducef key (valuesOf (sorted.drop 0) key))
      ((sorted.drop 0).map KeyValue.key) (reduceGroups reducef sorted sorted.length 0) :=
    reduceGroups_tabulates hsorted (Nat.le_add_left sorted.length 0)
  refine htable.congr (fun key => ?_) fun key _ => ?_
  · exact (hperm.map KeyValue.key).mem_iff.symm
  · exact hreducef key _ _ ((hperm.filter _).map KeyValue.value).symm

theorem valuesOf_pairsOf (kva : List KeyValue) {r : ℕ} {key : String}
    (hkey : ihash key % nReduce = r) :
    valuesOf (pairsOf nReduce r kva) key = valuesOf kva key := by
  unfold valuesOf pairsOf
  rw [List.filter_filter]
  congr 2
  funext kv
  by_cases hkv : kv.key = key
  · simp [hkv, hkey]
  · simp [hkv]

theorem map_key_pairsOf (kva : List KeyValue) (r : ℕ) :
    (pairsOf nReduce r kva).map KeyValue.key =
      (kva.map KeyValue.key).filter fun key => ihash key % nReduce = r := by
  rw [List.filter_map]
  rfl

/-- The output of a reduce task is a table of the keys of that task. -/
theorem Reduced.tabulates {r : ℕ}
    (hreducef : ∀ key (vs vs' : List String), vs.Perm vs' → reducef key vs = reducef key vs')
    (h : Reduced fmt mapf dir₀ files nReduce reducef r dir) :
    Tabulates
      (fun key => reducef key (valuesOf (files.flatMap (mapOutput mapf dir₀)) key))
      (((files.flatMap (mapOutput mapf dir₀)).map KeyValue.key).filter
        fun key => ihash key % nReduce = r) (dir.records (outFileName r)) := by
  obtain ⟨sorted, hsort, hdir⟩ := h
  have hrecords : dir.records (outFileName r) = (reduceFile fmt reducef sorted).records := by
    rw [Dir.records, hdir]
    rfl
  rw [hrecords, ← map_key_pairsOf]
  refine (reduceFile_tabulates hreducef hsort).congr (fun _ => Iff.rfl) fun key hkey => ?_
  rw [map_key_pairsOf, List.mem_filter] at hkey
  rw [valuesOf_pairsOf _ (by simpa using hkey.2)]

theorem sequential_tabulates
    (hreducef : ∀ key (vs vs' : List String), vs.Perm vs' → reducef key vs = reducef key vs')
    {sorted : List KeyValue} (h : sequential fmt mapf reducef dir₀ files sorted = some dir) :
    Tabulates
      (fun key => reducef key (valuesOf (files.flatMap (mapOutput mapf dir₀)) key))
      ((files.flatMap (mapOutput mapf dir₀)).map KeyValue.key) (dir.records "mr-out-0") ∧
      sorted.Perm (files.flatMap (mapOutput mapf dir₀)) := by
  obtain ⟨intermediate, hmap, h⟩ := Option.bind_eq_some_iff.mp h
  obtain rfl := mapFiles_eq hmap
  split at h
  · rename_i hsort
    obtain rfl := Option.some.inj h
    have hrecords : (dir₀.write "mr-out-0" (reduceFile fmt reducef sorted)).records "mr-out-0" =
        (reduceFile fmt reducef sorted).records := by
      rw [Dir.records, Dir.write, Function.update_self]
      rfl
    rw [hrecords]
    exact ⟨reduceFile_tabulates hreducef hsort, hsort.1⟩
  · cases h

/-- Once every map task has been executed, and then every reduce task, any
number of times and in any order, the records in the output files are those of
`mrsequential`, and each key has one record in one of the files. -/
theorem outputs_perm_sequential
    (hreducef : ∀ key (vs vs' : List String), vs.Perm vs' → reducef key vs = reducef key vs')
    (hn : 0 < nReduce)
    (hnames : ∀ f ∈ files, ∀ m < files.length, ∀ r < nReduce, f ≠ mapOutFileName m r)
    {dir₁ dir₂ dir₃ : Dir γ} {maps : List ℕ} {reduces : List (ℕ × List KeyValue)}
    {sorted : List KeyValue}
    (hmaps : exec (mapStep fmt mapf files nReduce) dir₀ maps = some dir₁)
    (hallMaps : ∀ m < files.length, m ∈ maps)
    (hreduces : exec (reduceStep fmt reducef files nReduce) dir₁ reduces = some dir₂)
    (hallReduces : ∀ r < nReduce, r ∈ reduces.map Prod.fst)
    (hsequential : sequential fmt mapf reducef dir₀ files sorted = some dir₃) :
    ((List.range nReduce).flatMap fun r => dir₂.records (outFileName r)).Perm
        (dir₃.records "mr-out-0") ∧
      ∀ kv ∈ sorted, ∃ r < nReduce,
        ((dir₂.records (outFileName r)).map Prod.fst).count kv.key = 1 ∧
        ∀ r' < nReduce, r' ≠ r → kv.key ∉ (dir₂.records (outFileName r')).map Prod.fst := by
  have hmapped : ∀ m < files.length, Mapped fmt mapf dir₀ files nReduce m dir₁ :=
    fun m hm => mapped_of_mem hnames hmaps (hallMaps m hm)
  have htables := fun r hr =>
    (reduced_of_mem hmapped hreduces (hallReduces r hr)).tabulates hreducef
  obtain ⟨hseq, hsorted⟩ := sequential_tabulates hreducef hsequential
  constructor
  · exact (Tabulates.flatMap (fun _ _ => Nat.mod_lt _ hn) htables).perm hseq
  · intro kv hkv
    have hkey : kv.key ∈ (files.flatMap (mapOutput mapf dir₀)).map KeyValue.key :=
      List.mem_map_of_mem (hsorted.mem_iff.mp hkv)
    have hr : ihash kv.key % nReduce < nReduce := Nat.mod_lt _ hn
    refine ⟨ihash kv.key % nReduce, hr, ?_, fun r' hr' hne => ?_⟩
    · apply List.count_eq_one_of_mem (htables _ hr).nodup
      rw [(htables _ hr).mem_keys_iff]
      exact List.mem_filter.mpr ⟨hkey, decide_eq_true rfl⟩
    · rw [(htables r' hr').mem_keys_iff, List.mem_filter]
      intro hmem
      exact hne (of_decide_eq_true hmem.2).symm

end

end

/-! ## Two jobs -/

/-- A file is what JSON was written for, or some other text. -/
def taggedFormat : Format (List KeyValue ⊕ String) where
  encode := .inl
  decode
    | .inl kva => [kva]
    | .inr _ => []
  print records := .inr (String.join (records.map fun record =>
    record.1 ++ " " ++ record.2 ++ "\n"))
  decode_encode _ := rfl

/-- A file is one word. -/
def wordMap (_ : String) (bytes : List KeyValue ⊕ String) : List KeyValue :=
  match bytes with
  | .inl _ => [{ key := "json", value := "1" }]
  | .inr text => [{ key := text, value := "1" }]

/-- How often a word occurs. -/
def countReduce (_ : String) (values : List String) : String := toString values.length

theorem countReduce_perm (key : String) (vs vs' : List String) (h : vs.Perm vs') :
    countReduce key vs = countReduce key vs' := by
  rw [countReduce, countReduce, h.length_eq]

/-- Two files with a word in each. -/
def twoFiles (name name' : String) : Dir (List KeyValue ⊕ String) :=
  Dir.write (Dir.write (fun _ => none) name { bytes := .inr "x" }) name' { bytes := .inr "y" }

def once (word : String) : KeyValue := { key := word, value := "1" }

/-- Tasks may be executed several times, and out of order. -/
theorem outputs_perm_sequential_twoFiles :
    ∃ dir₁ dir₂ dir₃,
      exec (mapStep taggedFormat wordMap ["a", "b"] 2) (twoFiles "a" "b") [1, 0, 1] =
        some dir₁ ∧
      exec (reduceStep taggedFormat countReduce ["a", "b"] 2) dir₁
        [(1, [once "x"]), (0, [once "y"]), (1, [once "x"])] = some dir₂ ∧
      sequential taggedFormat wordMap countReduce (twoFiles "a" "b") ["a", "b"]
        [once "x", once "y"] = some dir₃ ∧
      ((List.range 2).flatMap fun r => dir₂.records (outFileName r)).Perm
        (dir₃.records "mr-out-0") := by
  refine ⟨_, _, _, rfl, rfl, rfl, ?_⟩
  refine (outputs_perm_sequential countReduce_perm (by decide) (by decide)
    (show exec (mapStep taggedFormat wordMap ["a", "b"] 2) (twoFiles "a" "b") [1, 0, 1] =
      some _ from rfl) (by decide)
    (?_ : exec (reduceStep taggedFormat countReduce ["a", "b"] 2) _
      [(1, [once "x"]), (0, [once "y"]), (1, [once "x"])] = some _) (by decide)
    (?_ : sequential taggedFormat wordMap countReduce (twoFiles "a" "b") ["a", "b"]
      [once "x", once "y"] = some _)).1
  · rfl
  · rfl

/-- An input file with the name of an intermediate file is overwritten by the
first map task before the second one reads it. -/
theorem overwrittenInput_not_perm :
    (∀ key (vs vs' : List String), vs.Perm vs' → countReduce key vs = countReduce key vs') ∧
    (∀ m < ["a", "mr-0-0"].length, m ∈ [0, 1]) ∧
    ∃ dir₁ dir₂ dir₃,
      exec (mapStep taggedFormat wordMap ["a", "mr-0-0"] 1) (twoFiles "a" "mr-0-0") [0, 1] =
        some dir₁ ∧
      exec (reduceStep taggedFormat countReduce ["a", "mr-0-0"] 1) dir₁
        [(0, [once "json", once "x"])] = some dir₂ ∧
      sequential taggedFormat wordMap countReduce (twoFiles "a" "mr-0-0") ["a", "mr-0-0"]
        [once "x", once "y"] = some dir₃ ∧
      ¬ ((List.range 1).flatMap fun r => dir₂.records (outFileName r)).Perm
        (dir₃.records "mr-out-0") := by
  refine ⟨countReduce_perm, by decide, _, _, _, rfl, rfl, rfl, ?_⟩
  decide

end MapReduce

end DistributedLabs
