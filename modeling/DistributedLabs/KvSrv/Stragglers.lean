import DistributedLabs.Logic.Run
import DistributedLabs.KvSrv.Server

/-!
# Handlers that outlive their `Call`

`processReq` runs the handler of a request in a goroutine of its own and stops
waiting for it when the end of the clerk has been disabled or the server deleted.
`Call` then returns `false`, but the handler may still run at any later time. Here
the clerks and the server run with such stragglers, and every run of a handler is
kept together with the state of the server before and after it.

The record of a request in `MessageMap` is what makes a second `Modify` harmless. It
is deleted when the clerk reports. A straggling `Modify` that runs after that finds no
record and modifies the data again.
-/

namespace DistributedLabs

namespace KvSrv

/-- The type and the id of the request that a clerk sends. `Get` has neither. -/
def Pc.tag? : Pc → Option (RequestType × ℕ)
  | .idle | .get _ => none
  | .modify _ args | .report _ args _ => some (args.requestType, args.requestId)

/-- A run of a handler. -/
structure HandlerRun where
  pc : Pc
  before : Server
  after : Server

namespace HandlerRun

/-- The run takes the branch of `Put` or `Append` that assigns to `kv.data`, for the
request `id`. -/
def Assigns (x : HandlerRun) (id : ℕ) : Prop :=
  x.pc.tag? = some (.modify, id) ∧ x.before.messageMap id = none

/-- The run deletes the record of the request `id`. -/
def Reports (x : HandlerRun) (id : ℕ) : Prop := x.pc.tag? = some (.report, id)

/-- The run is for the request `id` and changes `kv.data`. -/
def Changes (x : HandlerRun) (id : ℕ) : Prop :=
  x.pc.tag?.map Prod.snd = some id ∧ x.after.data ≠ x.before.data

instance (x : HandlerRun) (id : ℕ) : Decidable (x.Assigns id) :=
  inferInstanceAs (Decidable (_ ∧ _))

instance (x : HandlerRun) (id : ℕ) : Decidable (x.Reports id) :=
  inferInstanceAs (Decidable (_ = _))

end HandlerRun

/-- The request `id` assigns to `kv.data` at most once. -/
def AssignsOnce (runs : List HandlerRun) (id : ℕ) : Prop :=
  runs.Pairwise fun x y => ¬ (x.Assigns id ∧ y.Assigns id)

/-- The request `id` changes `kv.data` at most once. -/
def ChangesOnce (runs : List HandlerRun) (id : ℕ) : Prop :=
  runs.Pairwise fun x y => ¬ (x.Changes id ∧ y.Changes id)

/-- The clerks and the server, with the requests whose `Call` has returned `false`
and whose handler has yet to run. -/
structure Late (m : ℕ) where
  sys : System m := {}
  stragglers : List Pc := []
  runs : List HandlerRun := []

namespace Late

variable {m : ℕ}

inductive Act (m : ℕ) where
  | net (a : System.Act m)
  | abandon (c : Fin m)
  | late (k : ℕ)
deriving DecidableEq, Repr

/-- The request whose handler runs in a step of the clerks and the server. -/
def handled (s : System m) : System.Act m → List Pc
  | .handle c => [(s.clerks c).pc]
  | .invoke _ _ | .fail _ | .succeed _ => []

/-- A step as without stragglers. -/
def net (ids : ℕ → ℕ) (s : Late m) (a : System.Act m) : Option (Late m) :=
  (s.sys.step ids a).map fun sys =>
    { s with
      sys := sys
      runs := s.runs ++ (handled s.sys a).map fun pc => ⟨pc, s.sys.server, sys.server⟩ }

/-- `Call` returns `false` while its handler has yet to run. -/
def abandon (s : Late m) (c : Fin m) : Option (Late m) :=
  match (s.sys.clerks c).replied with
  | some _ => none
  | none =>
    (s.sys.fail c).map fun sys =>
      { s with sys := sys, stragglers := s.stragglers ++ [(s.sys.clerks c).pc] }

/-- The handler of a straggler runs. Nobody waits for its reply. -/
def late (s : Late m) (k : ℕ) : Option (Late m) :=
  s.stragglers[k]?.bind fun pc =>
    (s.sys.server.handle pc).map fun r =>
      { sys := { s.sys with server := r.1 }
        stragglers := s.stragglers.eraseIdx k
        runs := s.runs ++ [⟨pc, s.sys.server, r.1⟩] }

def step (ids : ℕ → ℕ) (s : Late m) : Act m → Option (Late m)
  | .net a => s.net ids a
  | .abandon c => s.abandon c
  | .late k => s.late k

/-- A straggling `Modify` runs before any `Report` of its request has run. -/
def InTime (s : Late m) : Act m → Prop
  | .late k => ∀ pc ∈ s.stragglers[k]?, ∀ id ∈ pc.tag?.map Prod.snd,
      pc.tag? = some (.modify, id) → ∀ x ∈ s.runs, ¬ x.Reports id
  | .net _ | .abandon _ => True

instance (s : Late m) : (a : Act m) → Decidable (s.InTime a)
  | .late k => inferInstanceAs (Decidable (∀ pc ∈ s.stragglers[k]?, _))
  | .net _ | .abandon _ => inferInstanceAs (Decidable True)

end Late

/-! ## What a run of a handler does -/

/-- What the handler of a request with this tag makes of the server. -/
inductive Outcome (kv : Server) : Option (RequestType × ℕ) → Server → Prop
  | read : Outcome kv none kv
  | report (id : ℕ) : Outcome kv (some (.report, id))
      { kv with messageMap := Function.update kv.messageMap id none }
  | repeated (id : ℕ) (record : kv.messageMap id ≠ none) : Outcome kv (some (.modify, id)) kv
  | assign (id : ℕ) (data : String → String) (value : String) (new : kv.messageMap id = none) :
      Outcome kv (some (.modify, id))
        { data := data, messageMap := Function.update kv.messageMap id (some value) }

/-- `Put` and `Append` differ in the data and the value that they store only. -/
theorem putAppend_outcome (kv : Server) (args : PutAppendArgs) :
    Outcome kv (some (args.requestType, args.requestId)) (kv.put args).1 ∧
      Outcome kv (some (args.requestType, args.requestId)) (kv.append args).1 := by
  unfold Server.put Server.append
  cases args.requestType with
  | report => exact ⟨.report _, .report _⟩
  | modify =>
      cases hrecord : kv.messageMap args.requestId with
      | some record =>
          have hne : kv.messageMap args.requestId ≠ none := hrecord ▸ Option.some_ne_none record
          exact ⟨.repeated _ hne, .repeated _ hne⟩
      | none => exact ⟨.assign _ _ _ hrecord, .assign _ _ _ hrecord⟩

theorem handle_outcome {kv : Server} {pc : Pc} {r : Server × String} (h : kv.handle pc = some r) :
    Outcome kv pc.tag? r.1 := by
  cases pc with
  | idle => cases h
  | get key =>
      obtain rfl := Option.some.inj h
      exact .read
  | modify op args =>
      cases op with
      | put => exact Option.some.inj h ▸ (putAppend_outcome kv args).1
      | append => exact Option.some.inj h ▸ (putAppend_outcome kv args).2
  | report op args value =>
      cases op with
      | put => exact Option.some.inj h ▸ (putAppend_outcome kv args).1
      | append => exact Option.some.inj h ▸ (putAppend_outcome kv args).2

/-- The run of a handler. -/
def HandlerRun.Genuine (x : HandlerRun) : Prop := Outcome x.before x.pc.tag? x.after

namespace HandlerRun.Genuine

variable {x : HandlerRun} {id : ℕ}

/-- A run that changes `kv.data` assigns to it. -/
theorem assigns_of_changes (h : x.Genuine) (hx : x.Changes id) : x.Assigns id := by
  obtain ⟨pc, kv, kv'⟩ := x
  unfold Genuine at h
  unfold Changes at hx
  unfold Assigns
  dsimp only at h hx ⊢
  generalize pc.tag? = tag at h hx ⊢
  cases h with
  | read => exact absurd rfl hx.2
  | report id' => exact absurd rfl hx.2
  | repeated id' hrecord => exact absurd rfl hx.2
  | assign id' data value hnew =>
      obtain rfl := Option.some.inj hx.1
      exact ⟨rfl, hnew⟩

/-- What a run does to the record of a request. -/
theorem record_cases (h : x.Genuine) (id : ℕ) :
    (x.Assigns id ∧ ¬ x.Reports id ∧ x.after.messageMap id ≠ none) ∨
      (¬ x.Assigns id ∧ x.Reports id ∧ x.after.messageMap id = none) ∨
      (¬ x.Assigns id ∧ ¬ x.Reports id ∧ x.after.messageMap id = x.before.messageMap id) := by
  obtain ⟨pc, kv, kv'⟩ := x
  unfold Genuine at h
  unfold Assigns Reports
  dsimp only at h ⊢
  generalize pc.tag? = tag at h ⊢
  cases h with
  | read => simp
  | report id' =>
      by_cases hid : id' = id
      · subst hid
        simp
      · simp [hid, Function.update_of_ne (Ne.symm hid)]
  | repeated id' hrecord =>
      by_cases hid : id' = id
      · subst hid
        simp [hrecord]
      · simp [hid]
  | assign id' data value hnew =>
      by_cases hid : id' = id
      · subst hid
        simp [hnew]
      · simp [hid, Function.update_of_ne (Ne.symm hid)]

end HandlerRun.Genuine

/-! ## The record of a request -/

/-- What the runs so far say about the record of the request `id`. -/
structure Records (runs : List HandlerRun) (record : Option String) (id : ℕ) : Prop where
  written : record ≠ none → ∃ x ∈ runs, x.Assigns id
  unreported : (∀ x ∈ runs, ¬ x.Reports id) → record = none → ∀ x ∈ runs, ¬ x.Assigns id
  reported : (∃ x ∈ runs, x.Reports id) → record ≠ none → ¬ AssignsOnce runs id

theorem assignsOnce_concat {runs : List HandlerRun} {x : HandlerRun} {id : ℕ} :
    AssignsOnce (runs ++ [x]) id ↔
      AssignsOnce runs id ∧ (x.Assigns id → ∀ y ∈ runs, ¬ y.Assigns id) := by
  unfold AssignsOnce
  rw [List.pairwise_append]
  constructor
  · rintro ⟨hruns, -, hlast⟩
    exact ⟨hruns, fun hx y hy hyid => hlast y hy x (List.mem_singleton_self x) ⟨hyid, hx⟩⟩
  · rintro ⟨hruns, hlast⟩
    refine ⟨hruns, List.pairwise_singleton _ _, fun y hy z hz hyz => ?_⟩
    obtain rfl := List.mem_singleton.mp hz
    exact hlast hyz.2 y hy hyz.1

namespace Records

variable {runs : List HandlerRun} {x : HandlerRun} {id : ℕ}

theorem concat (h : Records runs (x.before.messageMap id) id) (hx : x.Genuine)
    (hfirst : (∃ y ∈ runs, y.Reports id) → ∃ y ∈ runs, y.Assigns id) :
    Records (runs ++ [x]) (x.after.messageMap id) id := by
  have hmem : x ∈ runs ++ [x] := List.mem_append_right _ (List.mem_singleton_self x)
  rcases hx.record_cases id with ⟨hass, hrep, hafter⟩ | ⟨hass, hrep, hafter⟩ | ⟨hass, hrep, hafter⟩
  · refine ⟨fun _ => ⟨x, hmem, hass⟩, fun _ hnone => absurd hnone hafter, ?_⟩
    rintro ⟨y, hy, hyrep⟩ - honce
    rcases List.mem_append.mp hy with hy | hy
    · obtain ⟨z, hz, hzass⟩ := hfirst ⟨y, hy, hyrep⟩
      exact (assignsOnce_concat.mp honce).2 hass z hz hzass
    · exact hrep (List.mem_singleton.mp hy ▸ hyrep)
  · exact ⟨fun hsome => absurd hafter hsome, fun hno => absurd hrep (hno x hmem),
      fun _ hsome => absurd hafter hsome⟩
  · rw [← hafter] at h
    refine ⟨fun hsome => ?_, fun hno hnone y hy => ?_, ?_⟩
    · obtain ⟨y, hy, hyass⟩ := h.written hsome
      exact ⟨y, List.mem_append_left _ hy, hyass⟩
    · rcases List.mem_append.mp hy with hy | hy
      · exact h.unreported (fun z hz => hno z (List.mem_append_left _ hz)) hnone y hy
      · exact List.mem_singleton.mp hy ▸ hass
    · rintro ⟨y, hy, hyrep⟩ hsome honce
      refine h.reported ⟨y, ?_, hyrep⟩ hsome (assignsOnce_concat.mp honce).1
      rcases List.mem_append.mp hy with hy | hy
      · exact hy
      · exact absurd (List.mem_singleton.mp hy ▸ hyrep) hrep

/-- After a run of `Modify`, the request has been carried out. -/
theorem exists_assigns (h : Records runs (x.before.messageMap id) id)
    (hx : x.pc.tag? = some (.modify, id)) : ∃ y ∈ runs ++ [x], y.Assigns id := by
  by_cases hrecord : x.before.messageMap id = none
  · exact ⟨x, List.mem_append_right _ (List.mem_singleton_self x), hx, hrecord⟩
  · obtain ⟨y, hy, hyass⟩ := h.written hrecord
    exact ⟨y, List.mem_append_left _ hy, hyass⟩

/-- A run of `Modify` keeps the request to one assignment if no `Report` has run, and
only then. -/
theorem assignsOnce_concat_iff (h : Records runs (x.before.messageMap id) id)
    (hx : x.pc.tag? = some (.modify, id))
    (hfirst : (∃ y ∈ runs, y.Reports id) → ∃ y ∈ runs, y.Assigns id) :
    AssignsOnce (runs ++ [x]) id ↔ AssignsOnce runs id ∧ ∀ y ∈ runs, ¬ y.Reports id := by
  rw [assignsOnce_concat]
  refine and_congr_right fun honce => ⟨fun hlast y hy hyrep => ?_, fun hno hass => ?_⟩
  · by_cases hrecord : x.before.messageMap id = none
    · obtain ⟨z, hz, hzass⟩ := hfirst ⟨y, hy, hyrep⟩
      exact hlast ⟨hx, hrecord⟩ z hz hzass
    · exact h.reported ⟨y, hy, hyrep⟩ hrecord honce
  · exact h.unreported hno hass.2

end Records

/-! ## Runs of the system -/

namespace Late

variable {m : ℕ} {s s' : Late m} {ids : ℕ → ℕ}

/-- The requests of the clerks, of the stragglers and of the runs so far. -/
def Has (s : Late m) (pc : Pc) : Prop :=
  (∃ c, (s.sys.clerks c).pc = pc) ∨ pc ∈ s.stragglers ∨ ∃ x ∈ s.runs, x.pc = pc

/-- A clerk has got as far as reporting the request `id`. -/
def Reporting (s : Late m) (id : ℕ) : Prop :=
  ∃ pc, s.Has pc ∧ pc.tag? = some (.report, id)

/-- The request `id` has been carried out. -/
def Carried (s : Late m) (id : ℕ) : Prop := ∃ x ∈ s.runs, x.Assigns id

structure Inv (ids : ℕ → ℕ) (s : Late m) : Prop where
  genuine : ∀ x ∈ s.runs, x.Genuine
  records : ∀ id, Records s.runs (s.sys.server.messageMap id) id
  typed : ∀ {c op args}, (s.sys.clerks c).pc = .modify op args → args.requestType = .modify
  /-- No two clerks work on one request. -/
  alone : ∀ {c d type type' id}, (s.sys.clerks c).pc.tag? = some (type, id) →
    (s.sys.clerks d).pc.tag? = some (type', id) → c = d
  known : ∀ {pc type id}, s.Has pc → pc.tag? = some (type, id) → ∃ j < s.sys.calls, id = ids j
  reporting : ∀ {id}, s.Reporting id → s.Carried id
  modifying : ∀ {c id}, (s.sys.clerks c).pc.tag? = some (.modify, id) → ¬ s.Reporting id
  replied : ∀ {c id}, (s.sys.clerks c).pc.tag? = some (.modify, id) →
    (s.sys.clerks c).replied ≠ none → s.Carried id

theorem inv_init (ids : ℕ → ℕ) : Inv ids ({} : Late m) where
  genuine _ hx := by cases hx
  records id :=
    { written := fun h => absurd rfl h
      unreported := fun _ _ x hx => by cases hx
      reported := fun _ h => absurd rfl h }
  typed h := by cases h
  alone h := by cases h
  known h htag := by
    rcases h with ⟨c, rfl⟩ | h | ⟨x, hx, -⟩
    · cases htag
    · cases h
    · cases hx
  reporting h := by
    obtain ⟨pc, ⟨c, rfl⟩ | h | ⟨x, hx, -⟩, htag⟩ := h
    · cases htag
    · cases h
    · cases hx
  modifying h := by cases h
  replied h := by cases h

theorem Inv.carried_of_reports (h : Inv ids s) {id : ℕ} (hrep : ∃ x ∈ s.runs, x.Reports id) :
    ∃ x ∈ s.runs, x.Assigns id := by
  obtain ⟨x, hx, hxrep⟩ := hrep
  exact h.reporting ⟨x.pc, Or.inr (Or.inr ⟨x, hx, rfl⟩), hxrep⟩

/-- A step in which no clerk starts on a request. -/
theorem Inv.of_kept (h : Inv ids s) (hcalls : s'.sys.calls = s.sys.calls)
    (hclerks : ∀ c, (s'.sys.clerks c).pc = (s.sys.clerks c).pc ∨ (s'.sys.clerks c).pc = .idle)
    (hstragglers : ∀ pc ∈ s'.stragglers, s.Has pc) (hruns : ∀ x ∈ s'.runs, s.Has x.pc)
    (hcarried : ∀ id, s.Carried id → s'.Carried id) (hgenuine : ∀ x ∈ s'.runs, x.Genuine)
    (hrecords : ∀ id, Records s'.runs (s'.sys.server.messageMap id) id)
    (hreplied : ∀ c id, (s'.sys.clerks c).pc.tag? = some (.modify, id) →
      (s'.sys.clerks c).replied ≠ none → s'.Carried id) : Inv ids s' := by
  have htag : ∀ {c t}, (s'.sys.clerks c).pc.tag? = some t → (s.sys.clerks c).pc.tag? = some t := by
    intro c t htag
    rcases hclerks c with heq | heq
    · rwa [← heq]
    · rw [heq] at htag
      cases htag
  have hhas : ∀ {pc t}, s'.Has pc → pc.tag? = some t → s.Has pc := by
    rintro pc t (⟨c, rfl⟩ | hpc | ⟨x, hx, rfl⟩) ht
    · rcases hclerks c with heq | heq
      · exact Or.inl ⟨c, heq.symm⟩
      · rw [heq] at ht
        cases ht
    · exact hstragglers pc hpc
    · exact hruns x hx
  have hreporting : ∀ {id}, s'.Reporting id → s.Reporting id := fun ⟨pc, hpc, ht⟩ =>
    ⟨pc, hhas hpc ht, ht⟩
  refine ⟨hgenuine, hrecords, fun {c op args} hpc => ?_, fun hc hd => h.alone (htag hc) (htag hd),
    fun hpc ht => hcalls ▸ h.known (hhas hpc ht) ht,
    fun hrep => hcarried _ (h.reporting (hreporting hrep)),
    fun hc hrep => h.modifying (htag hc) (hreporting hrep), fun {c id} => hreplied c id⟩
  rcases hclerks c with heq | heq
  · exact h.typed (heq ▸ hpc)
  · rw [heq] at hpc
    cases hpc

/-- The handler of a request runs. -/
theorem Inv.of_run (h : Inv ids s) {pc : Pc} {r : Server × String} (hpc : s.Has pc)
    (hr : s.sys.server.handle pc = some r)
    (hruns : s'.runs = s.runs ++ [⟨pc, s.sys.server, r.1⟩]) (hserver : s'.sys.server = r.1)
    (hcalls : s'.sys.calls = s.sys.calls)
    (hclerks : ∀ c, (s'.sys.clerks c).pc = (s.sys.clerks c).pc)
    (hstragglers : ∀ pc ∈ s'.stragglers, pc ∈ s.stragglers)
    (hreplied : ∀ c, (s'.sys.clerks c).replied = (s.sys.clerks c).replied ∨
      (s.sys.clerks c).pc = pc) : Inv ids s' := by
  have hgenuine : (HandlerRun.mk pc s.sys.server r.1).Genuine := handle_outcome hr
  have hcarried : ∀ id, s.Carried id → s'.Carried id := by
    rintro id ⟨x, hx, hass⟩
    exact ⟨x, hruns ▸ List.mem_append_left _ hx, hass⟩
  have hall : ∀ {P : HandlerRun → Prop}, (∀ x ∈ s.runs, P x) → P ⟨pc, s.sys.server, r.1⟩ →
      ∀ x ∈ s'.runs, P x := by
    intro P hold hnew
    rw [hruns]
    exact List.forall_mem_append.mpr ⟨hold, List.forall_mem_singleton.mpr hnew⟩
  refine h.of_kept hcalls (fun c => Or.inl (hclerks c))
    (fun pc hpc => Or.inr (Or.inl (hstragglers pc hpc)))
    (hall (fun x hx => Or.inr (Or.inr ⟨x, hx, rfl⟩)) hpc) hcarried (hall h.genuine hgenuine) ?_ ?_
  · intro id
    rw [hruns, hserver]
    exact (h.records id).concat (x := ⟨pc, s.sys.server, r.1⟩) hgenuine h.carried_of_reports
  · intro c id htag hne
    rw [hclerks c] at htag
    rcases hreplied c with heq | heq
    · exact hcarried id (h.replied htag (heq ▸ hne))
    · have hex := (h.records id).exists_assigns (x := ⟨pc, s.sys.server, r.1⟩) (heq ▸ htag)
      rw [← hruns] at hex
      exact hex

/-- The clerk `c` turns to the request of `ck`. -/
theorem Inv.of_clerk (h : Inv ids s) {c : Fin m} {ck : Clerk}
    (hclerks : s'.sys.clerks = Function.update s.sys.clerks c ck)
    (hserver : s'.sys.server = s.sys.server) (hstragglers : s'.stragglers = s.stragglers)
    (hruns : s'.runs = s.runs) (hcalls : s.sys.calls ≤ s'.sys.calls)
    (hreplied : ck.replied = none)
    (htyped : ∀ {op args}, ck.pc = .modify op args → args.requestType = .modify)
    (hknown : ∀ {type id}, ck.pc.tag? = some (type, id) → ∃ j < s'.sys.calls, id = ids j)
    (halone : ∀ {type type' id d}, ck.pc.tag? = some (type, id) →
      (s.sys.clerks d).pc.tag? = some (type', id) → d = c)
    (hreport : ∀ {id}, ck.pc.tag? = some (.report, id) → s.Carried id)
    (hmodify : ∀ {id}, ck.pc.tag? = some (.modify, id) → ¬ s.Reporting id) : Inv ids s' := by
  have hclerk : ∀ d, (s'.sys.clerks d = ck ∧ d = c) ∨
      (s'.sys.clerks d = s.sys.clerks d ∧ d ≠ c) := by
    intro d
    rw [hclerks]
    by_cases hd : d = c
    · exact Or.inl ⟨by rw [hd, Function.update_self], hd⟩
    · exact Or.inr ⟨Function.update_of_ne hd _ _, hd⟩
  have hhas : ∀ {pc}, s'.Has pc → pc = ck.pc ∨ s.Has pc := by
    rintro pc (⟨d, rfl⟩ | hpc | hpc)
    · rcases hclerk d with ⟨hd, -⟩ | ⟨hd, -⟩
      · exact Or.inl (congrArg Clerk.pc hd)
      · exact Or.inr (Or.inl ⟨d, (congrArg Clerk.pc hd).symm⟩)
    · exact Or.inr (Or.inr (Or.inl (hstragglers ▸ hpc)))
    · exact Or.inr (Or.inr (Or.inr (hruns ▸ hpc)))
  have hreporting : ∀ {id}, s'.Reporting id →
      ck.pc.tag? = some (.report, id) ∨ s.Reporting id := by
    rintro id ⟨pc, hpc, htag⟩
    rcases hhas hpc with rfl | hpc
    · exact Or.inl htag
    · exact Or.inr ⟨pc, hpc, htag⟩
  have hcarried : ∀ {id}, s.Carried id → s'.Carried id := by
    intro id hid
    unfold Carried
    rwa [hruns]
  refine ⟨hruns ▸ h.genuine, by rw [hruns, hserver]; exact h.records, ?_, ?_, ?_,
    fun hrep => hcarried ((hreporting hrep).elim hreport h.reporting), ?_, ?_⟩
  · intro d op args hpc
    rcases hclerk d with ⟨heq, -⟩ | ⟨heq, -⟩
    · exact htyped (heq ▸ hpc)
    · exact h.typed (heq ▸ hpc)
  · intro d e type type' id hd he
    rcases hclerk d with ⟨hd', hdc⟩ | ⟨hd', -⟩
    · rcases hclerk e with ⟨-, hec⟩ | ⟨he', -⟩
      · exact hdc.trans hec.symm
      · exact hdc.trans (halone (hd' ▸ hd) (he' ▸ he)).symm
    · rcases hclerk e with ⟨he', hec⟩ | ⟨he', -⟩
      · exact (halone (he' ▸ he) (hd' ▸ hd)).trans hec.symm
      · exact h.alone (hd' ▸ hd) (he' ▸ he)
  · intro pc type id hpc htag
    rcases hhas hpc with rfl | hpc
    · exact hknown htag
    · obtain ⟨j, hj, hid⟩ := h.known hpc htag
      exact ⟨j, hj.trans_le hcalls, hid⟩
  · intro d id hd hrep
    rcases hclerk d with ⟨hd', -⟩ | ⟨hd', hdc⟩
    · rw [hd'] at hd
      rcases hreporting hrep with hrep | hrep
      · rw [hd] at hrep
        cases hrep
      · exact hmodify hd hrep
    · rw [hd'] at hd
      rcases hreporting hrep with hrep | hrep
      · exact hdc (halone hrep hd)
      · exact h.modifying hd hrep
  · intro d id hd hne
    rcases hclerk d with ⟨hd', -⟩ | ⟨hd', -⟩
    · rw [hd', hreplied] at hne
      exact absurd rfl hne
    · rw [hd'] at hd hne
      exact hcarried (h.replied hd hne)

/-! ## The steps -/

theorem request_tag {input : Input} {id id' : ℕ} {type : RequestType}
    (h : (System.request input id).tag? = some (type, id')) : type = .modify ∧ id' = id := by
  cases input with
  | get key => cases h
  | put key value =>
      cases h
      exact ⟨rfl, rfl⟩
  | append key value =>
      cases h
      exact ⟨rfl, rfl⟩

theorem request_typed {input : Input} {id : ℕ} {op : Op} {args : PutAppendArgs}
    (h : System.request input id = .modify op args) : args.requestType = .modify := by
  cases input with
  | get key => cases h
  | put key value =>
      cases h
      rfl
  | append key value =>
      cases h
      rfl

/-- A call draws a request id that nobody has. -/
theorem Inv.invoke (h : Inv ids s) (hids : ids.Injective) {c : Fin m} {input : Input}
    {sys : System m} (hs : s.sys.invoke ids c input = some sys) :
    Inv ids { s with sys := sys } := by
  obtain ⟨-, rfl⟩ := System.invoke_cases hs
  have hfresh : ∀ {pc type}, s.Has pc → pc.tag? ≠ some (type, ids s.sys.calls) := by
    intro pc type hpc htag
    obtain ⟨j, hj, hid⟩ := h.known hpc htag
    exact hj.ne (hids hid).symm
  refine h.of_clerk rfl rfl rfl rfl (Nat.le_succ _) rfl request_typed ?_ ?_ ?_ ?_
  · intro type id htag
    exact ⟨s.sys.calls, Nat.lt_succ_self _, (request_tag htag).2⟩
  · intro type type' id d htag hd
    obtain ⟨-, rfl⟩ := request_tag htag
    exact absurd hd (hfresh (Or.inl ⟨d, rfl⟩))
  · intro id htag
    cases (request_tag htag).1
  · rintro id htag ⟨pc, hpc, hrep⟩
    obtain ⟨-, rfl⟩ := request_tag htag
    exact hfresh hpc hrep

theorem setReplied_pc (sys : System m) (c d : Fin m) (replied : Option String) :
    ((sys.setClerk c ((sys.clerks c).setReplied replied)).clerks d).pc = (sys.clerks d).pc := by
  by_cases hd : d = c
  · subst hd
    simp [System.setClerk, Clerk.setReplied]
  · simp [System.setClerk, hd]

/-- `Call` returns `false`. -/
theorem Inv.fail (h : Inv ids s) {c : Fin m} {sys : System m} (hs : s.sys.fail c = some sys)
    {stragglers : List Pc} (hstragglers : ∀ pc ∈ stragglers, s.Has pc) :
    Inv ids { s with sys := sys, stragglers := stragglers } := by
  obtain ⟨-, rfl⟩ := System.fail_cases hs
  refine h.of_kept rfl (fun d => Or.inl (setReplied_pc s.sys c d none)) hstragglers
    (fun x hx => Or.inr (Or.inr ⟨x, hx, rfl⟩)) (fun _ => id) h.genuine h.records ?_
  intro d id htag hne
  by_cases hd : d = c
  · subst hd
    simp [System.setClerk, Clerk.setReplied] at hne
  · simp only [System.setClerk, Function.update_of_ne hd] at htag hne
    exact h.replied htag hne

/-- A call returns to its caller. -/
theorem Inv.ret (h : Inv ids s) (c : Fin m) (value : String) :
    Inv ids { s with sys := s.sys.ret c value } := by
  refine h.of_clerk rfl rfl rfl rfl le_rfl rfl ?_ ?_ ?_ ?_ ?_
  · intro op args hpc
    cases hpc
  · intro type id htag
    cases htag
  · intro type type' id d htag
    cases htag
  · intro id htag
    cases htag
  · intro id htag
    cases htag

theorem Inv.succeed (h : Inv ids s) {c : Fin m} {sys : System m}
    (hs : s.sys.succeed c = some sys) : Inv ids { s with sys := sys } := by
  obtain ⟨reply, hreply, ⟨key, -, rfl⟩ | ⟨op, args, hpc, rfl⟩ | ⟨op, args, value, -, rfl⟩⟩ :=
    System.succeed_cases hs
  · exact h.ret c reply
  · -- the clerk goes on to report the request that has been carried out
    have htag : (s.sys.clerks c).pc.tag? = some (.modify, args.requestId) := by
      rw [hpc, ← h.typed hpc]
      rfl
    refine h.of_clerk rfl rfl rfl rfl le_rfl rfl ?_ ?_ ?_ ?_ ?_
    · intro op' args' hpc'
      cases hpc'
    · intro type id hid
      cases hid
      exact h.known (Or.inl ⟨c, rfl⟩) htag
    · intro type type' id d hid hd
      cases hid
      exact h.alone hd htag
    · intro id hid
      cases hid
      exact h.replied htag (hreply ▸ Option.some_ne_none reply)
    · intro id hid
      cases hid
  · exact h.ret c value

theorem abandon_cases {c : Fin m} (hs : s.abandon c = some s') :
    ∃ sys, s.sys.fail c = some sys ∧
      s' = { s with sys := sys, stragglers := s.stragglers ++ [(s.sys.clerks c).pc] } := by
  unfold abandon at hs
  split at hs
  · cases hs
  · obtain ⟨sys, hsys, rfl⟩ := Option.map_eq_some_iff.mp hs
    exact ⟨sys, hsys, rfl⟩

/-- A step runs a handler, or it leaves the runs alone and is never late. -/
theorem step_runs {a : Act m} (hs : s.step ids a = some s') :
    (s'.runs = s.runs ∧ s.InTime a) ∨
      (∃ c r, a = .net (.handle c) ∧ s.sys.server.handle (s.sys.clerks c).pc = some r ∧
        s'.sys.server = r.1 ∧ s'.runs = s.runs ++ [⟨(s.sys.clerks c).pc, s.sys.server, r.1⟩]) ∨
      ∃ k pc r, a = .late k ∧ s.stragglers[k]? = some pc ∧ s.sys.server.handle pc = some r ∧
        s'.sys.server = r.1 ∧ s'.runs = s.runs ++ [⟨pc, s.sys.server, r.1⟩] := by
  cases a with
  | net a =>
      obtain ⟨sys, hsys, rfl⟩ := Option.map_eq_some_iff.mp hs
      cases a with
      | invoke c input => exact Or.inl ⟨List.append_nil _, trivial⟩
      | handle c =>
          obtain ⟨-, r, hr, rfl⟩ := System.handle_cases hsys
          exact Or.inr (Or.inl ⟨c, r, rfl, hr, rfl, rfl⟩)
      | fail c => exact Or.inl ⟨List.append_nil _, trivial⟩
      | succeed c => exact Or.inl ⟨List.append_nil _, trivial⟩
  | abandon c =>
      obtain ⟨sys, -, rfl⟩ := abandon_cases hs
      exact Or.inl ⟨rfl, trivial⟩
  | late k =>
      obtain ⟨pc, hpc, hs⟩ := Option.bind_eq_some_iff.mp hs
      obtain ⟨r, hr, rfl⟩ := Option.map_eq_some_iff.mp hs
      exact Or.inr (Or.inr ⟨k, pc, r, rfl, hpc, hr, rfl, rfl⟩)

theorem Inv.step (h : Inv ids s) (hids : ids.Injective) {a : Act m}
    (hs : s.step ids a = some s') : Inv ids s' := by
  cases a with
  | net a =>
      obtain ⟨sys, hsys, rfl⟩ := Option.map_eq_some_iff.mp hs
      cases a with
      | invoke c input =>
          rw [handled, List.map_nil, List.append_nil]
          exact h.invoke hids hsys
      | handle c =>
          obtain ⟨-, r, hr, rfl⟩ := System.handle_cases hsys
          refine h.of_run (Or.inl ⟨c, rfl⟩) hr rfl rfl rfl
            (fun d => setReplied_pc s.sys c d (some r.2)) (fun _ => id) fun d => ?_
          by_cases hd : d = c
          · exact Or.inr (hd ▸ rfl)
          · exact Or.inl (congrArg Clerk.replied (Function.update_of_ne hd _ _))
      | fail c =>
          rw [handled, List.map_nil, List.append_nil]
          exact h.fail hsys fun pc hpc => Or.inr (Or.inl hpc)
      | succeed c =>
          rw [handled, List.map_nil, List.append_nil]
          exact h.succeed hsys
  | abandon c =>
      obtain ⟨sys, hsys, rfl⟩ := abandon_cases hs
      refine h.fail hsys fun pc hpc => ?_
      rcases List.mem_append.mp hpc with hpc | hpc
      · exact Or.inr (Or.inl hpc)
      · exact Or.inl ⟨c, (List.mem_singleton.mp hpc).symm⟩
  | late k =>
      obtain ⟨pc, hpc, hs⟩ := Option.bind_eq_some_iff.mp hs
      obtain ⟨r, hr, rfl⟩ := Option.map_eq_some_iff.mp hs
      exact h.of_run (Or.inr (Or.inl (List.mem_of_getElem? hpc))) hr rfl rfl rfl (fun _ => rfl)
        (fun _ => List.mem_of_mem_eraseIdx) fun _ => Or.inl rfl

/-- A run of a handler for another purpose than to modify does not assign. -/
theorem assignsOnce_concat_of_not {runs : List HandlerRun} {x : HandlerRun} {id : ℕ}
    (hx : x.pc.tag? ≠ some (.modify, id)) :
    AssignsOnce (runs ++ [x]) id ↔ AssignsOnce runs id := by
  rw [assignsOnce_concat]
  exact and_iff_left fun hass => absurd hass.1 hx

/-- A step keeps every request to one assignment exactly when no straggler is late. -/
theorem Inv.assignsOnce_step_iff (h : Inv ids s) {a : Act m} (hs : s.step ids a = some s') :
    (∀ id, AssignsOnce s'.runs id) ↔ (∀ id, AssignsOnce s.runs id) ∧ s.InTime a := by
  rcases step_runs hs with
    ⟨hruns, hin⟩ | ⟨c, r, rfl, hr, -, hruns⟩ | ⟨k, pc, r, rfl, hpc, hr, -, hruns⟩
  · rw [hruns, and_iff_left hin]
  · rw [hruns, and_iff_left (show s.InTime (.net (.handle c)) from trivial)]
    refine forall_congr' fun id => ?_
    by_cases htag : (s.sys.clerks c).pc.tag? = some (.modify, id)
    · rw [(h.records id).assignsOnce_concat_iff (x := ⟨_, s.sys.server, r.1⟩) htag
        h.carried_of_reports]
      refine and_iff_left fun x hx hrep => ?_
      exact h.modifying htag ⟨x.pc, Or.inr (Or.inr ⟨x, hx, rfl⟩), hrep⟩
    · exact assignsOnce_concat_of_not htag
  · have hin : s.InTime (.late k) ↔
        ∀ id, pc.tag? = some (.modify, id) → ∀ x ∈ s.runs, ¬ x.Reports id := by
      constructor
      · intro hin id htag
        exact hin pc hpc id (by rw [htag]; rfl) htag
      · intro hin pc' hpc' id _ htag
        obtain rfl := Option.some.inj (hpc.symm.trans hpc')
        exact hin id htag
    rw [hruns, hin, ← forall_and]
    refine forall_congr' fun id => ?_
    by_cases htag : pc.tag? = some (.modify, id)
    · rw [(h.records id).assignsOnce_concat_iff (x := ⟨pc, s.sys.server, r.1⟩) htag
        h.carried_of_reports]
      exact and_congr_right fun _ => ⟨fun hno _ => hno, fun hno => hno htag⟩
    · rw [assignsOnce_concat_of_not htag]
      exact (and_iff_left fun htag' => absurd htag' htag).symm

/-! ## At most once -/

/-- Every request of `PutAppend` assigns to `kv.data` at most once exactly when no
straggling `Modify` runs after a `Report` of its request; it then changes the data at
most once. -/
theorem changesOnce_of_inTime (hids : ids.Injective) {acts : List (Act m)}
    (hexec : exec (step ids) {} acts = some s) :
    (meets (step ids) InTime {} acts ↔ ∀ id, AssignsOnce s.runs id) ∧
      (meets (step ids) InTime {} acts → ∀ id, ChangesOnce s.runs id) := by
  have hinv : Inv ids s := exec_preserves (fun _ _ _ h hs => h.step hids hs) (inv_init ids) hexec
  have hiff : meets (step ids) InTime {} acts ↔ ∀ id, AssignsOnce s.runs id := by
    rw [exec_iff_meets (P := fun s => ∀ id, AssignsOnce s.runs id)
      (fun _ _ _ h hs => h.step hids hs) (fun _ _ _ h hs => h.assignsOnce_step_iff hs)
      (inv_init ids) hexec]
    exact (and_iff_right fun _ => List.Pairwise.nil).symm
  refine ⟨hiff, fun hmeets id => ?_⟩
  refine (hiff.mp hmeets id).imp_of_mem fun hx hy hnot hchanges => hnot ?_
  exact ⟨(hinv.genuine _ hx).assigns_of_changes hchanges.1,
    (hinv.genuine _ hy).assigns_of_changes hchanges.2⟩

/-- The only clerk. -/
def clerk : Fin 1 := ⟨0, Nat.one_pos⟩

/-- The first `Call` of `Append` is given up before its handler runs, which it then
does while the clerk tries again. -/
def handledLate : List (Act 1) :=
  [.net (.invoke clerk (.append "k" "x")), .abandon clerk, .late 0, .net (.handle clerk),
    .net (.succeed clerk), .net (.handle clerk), .net (.succeed clerk)]

theorem changesOnce_of_inTime_handledLate :
    ∃ s, exec (step id) ({} : Late 1) handledLate = some s ∧
      meets (step id) InTime ({} : Late 1) handledLate ∧ s.sys.server.data "k" = "x" ∧
      ChangesOnce s.runs 0 :=
  ⟨_, rfl, by decide, rfl,
    (changesOnce_of_inTime Function.injective_id
      (show exec (step id) ({} : Late 1) handledLate = some _ from rfl)).2 (by decide) 0⟩

/-- The same with the handler running when the clerk has reported. -/
def handledTooLate : List (Act 1) :=
  [.net (.invoke clerk (.append "k" "x")), .abandon clerk, .net (.handle clerk),
    .net (.succeed clerk), .net (.handle clerk), .net (.succeed clerk), .late 0]

/-- The value is appended twice. -/
theorem handledTooLate_not_changesOnce :
    ∃ s, exec (step id) ({} : Late 1) handledTooLate = some s ∧
      s.sys.server.data "k" = "xx" ∧ ¬ ChangesOnce s.runs 0 := by
  refine ⟨_, rfl, rfl, fun h => ?_⟩
  refine (List.pairwise_cons.mp h).1 _ (List.mem_cons_of_mem _ List.mem_cons_self)
    ⟨⟨rfl, ?_⟩, ⟨rfl, ?_⟩⟩
  · intro heq
    have := congrFun heq "k"
    revert this
    decide
  · intro heq
    have := congrFun heq "k"
    revert this
    decide

end Late

end KvSrv

end DistributedLabs
