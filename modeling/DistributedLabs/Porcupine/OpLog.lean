import DistributedLabs.KvRaft.Composition
import DistributedLabs.KvSrv.Linearizability
import DistributedLabs.Porcupine.KvHistories

/-!
# What the tests record

The tests of the two key/value servers wrap the calls of the clerks: a call is recorded
with a time that is taken before it and one that is taken after it. When all clients are
done, the record is checked. What the clerks see is linearizable, and the times in the
record only leave more room, so the check does not fail.
-/

namespace DistributedLabs

namespace Porcupine

section

variable {σ ι Op : Type} (input : Op → KvInput) (output : Op → String → KvOutput)

/-- The record of a history in which no call is pending: `time` is the clock at each of the
events, and `record` what the wrapper of a call appends to the log. -/
def Logs (H : List (SharedLog.Event ι Op String)) (log : List KvOperation) : Prop :=
  ∃ (time : ℕ → ℤ) (ids : List ι) (record : ι → KvOperation),
    (∀ i j, i ≤ j → time i ≤ time j) ∧ ids.Nodup ∧ log = ids.map record ∧
      (∀ k op, SharedLog.Event.inv k op ∈ H → k ∈ ids) ∧
      ∀ k ∈ ids, ∃ (i j : ℕ) (op : Op) (r : String), i ≤ j ∧ H[i]? = some (.inv k op) ∧
        H[j]? = some (.ret k r) ∧ (record k).input = input op ∧
        (record k).output = output op r ∧ (record k).call ≤ time i ∧ time j ≤ (record k).ret

variable {input output} {H : List (SharedLog.Event ι Op String)} {log : List KvOperation}

theorem Logs.valid (h : Logs input output H log) : ∀ op ∈ log, op.call ≤ op.ret := by
  obtain ⟨time, ids, record, htime, -, rfl, -, hrecord⟩ := h
  intro o ho
  obtain ⟨k, hk, rfl⟩ := List.mem_map.mp ho
  obtain ⟨i, j, op, r, hij, -, -, -, -, hcall, hret⟩ := hrecord k hk
  exact (hcall.trans (htime i j hij)).trans hret

variable {spec : SharedLog.SeqSpec σ Op String}

/-- The map takes the recorded calls in the order of a linearization. -/
theorem exec_kvTake_of_runs {view : σ → String → String}
    (hstep : ∀ x op (o : KvOperation), o.input = input op →
      o.output = output op (spec.step x op).2 →
      kvTake (view x) o = some (view (spec.step x op).1))
    {record : ι → KvOperation} {L : List (SharedLog.Call ι Op String)} {x y : σ}
    (hruns : spec.Runs x L y)
    (hL : ∀ c ∈ L, (record c.id).input = input c.op ∧
      (record c.id).output = output c.op c.ret) :
    exec (fun m k => kvTake m (record k)) (view x) (L.map SharedLog.Call.id) =
      some (view y) := by
  induction L generalizing x with
  | nil =>
      obtain rfl : x = y := hruns
      rfl
  | cons c L ih =>
      obtain ⟨hret, hruns⟩ := hruns
      obtain ⟨⟨hin, hout⟩, hL⟩ := List.forall_mem_cons.mp hL
      rw [List.map_cons, exec_cons, hstep x c.op (record c.id) hin (hret ▸ hout),
        Option.bind_some]
      exact ih hruns hL

/-- The record of a linearizable history is linearizable. -/
theorem Logs.kvLinearizable (view : σ → String → String) (hinit : view spec.init = fun _ => "")
    (hstep : ∀ x op (o : KvOperation), o.input = input op →
      o.output = output op (spec.step x op).2 →
      kvTake (view x) o = some (view (spec.step x op).1))
    (hunique : ∀ k op op', SharedLog.Event.inv k op ∈ H → SharedLog.Event.inv k op' ∈ H → op = op')
    (hlin : SharedLog.Linearizable spec H) (h : Logs input output H log) :
    KvLinearizable log := by
  obtain ⟨time, ids, record, htime, hnodup, rfl, hall, hrecord⟩ := h
  obtain ⟨L, ⟨y, hruns⟩, hids, hinvoked, hcomplete, horder⟩ := hlin
  rw [KvLinearizable, hasLinearization_map_iff]
  refine ⟨L.map SharedLog.Call.id, ?_, ?_, ?_⟩
  · -- all calls have returned, so the linearization contains exactly these
    refine (List.perm_ext_iff_of_nodup hids hnodup).mpr fun k => ⟨fun hk => ?_, fun hk => ?_⟩
    · obtain ⟨c, hc, rfl⟩ := List.mem_map.mp hk
      exact hall c.id c.op (hinvoked c hc)
    · obtain ⟨i, j, op, r, -, -, hj, -⟩ := hrecord k hk
      obtain ⟨c, hc, rfl, -⟩ := hcomplete k r (List.mem_of_getElem? hj)
      exact List.mem_map_of_mem hc
  · refine List.pairwise_map.mpr (horder.imp_of_mem fun {a b} ha hb hnot hlt => hnot ?_)
    obtain ⟨ia, ja, opa, ra, -, hia, -, -, -, hcall, -⟩ :=
      hrecord a.id (hall _ _ (hinvoked a ha))
    obtain ⟨ib, jb, opb, rb, -, -, hjb, -, -, -, hret⟩ :=
      hrecord b.id (hall _ _ (hinvoked b hb))
    have htimes : time jb < time ia := hret.trans_lt (hlt.trans_le hcall)
    have hlt' : jb < ia := not_le.mp fun hle => (htime ia jb hle).not_gt htimes
    exact ⟨jb, ia, rb, opa, hlt', hjb, hia⟩
  · have hL : ∀ c ∈ L, (record c.id).input = input c.op ∧
        (record c.id).output = output c.op c.ret := by
      intro c hc
      obtain ⟨i, j, op, r, -, hi, hj, hin, hout, -⟩ :=
        hrecord c.id (hall _ _ (hinvoked c hc))
      obtain rfl := hunique _ _ _ (List.mem_of_getElem? hi) (hinvoked c hc)
      obtain ⟨d, hd, hid, rfl⟩ := hcomplete c.id r (List.mem_of_getElem? hj)
      obtain rfl := List.inj_on_of_nodup_map hids hd hc hid
      exact ⟨hin, hout⟩
    rw [← hinit, exec_kvTake_of_runs hstep hruns hL]
    rfl

end

section

variable {log : List KvOperation} {entries : List (List (Entry KvInput KvOutput))}
  {verbose hasTimeout : Bool} {checks : List Parallel.Act}
  {t : Parallel String KvInput KvOutput}

/-- The check of a linearizable record does not fail. -/
theorem check_of_kvLinearizable (hvalid : ∀ op ∈ log, op.call ≤ op.ret)
    (hlin : KvLinearizable log)
    (hentries : List.Forall₂ MakesEntries (kvPartition log) entries)
    (hcheck : exec (Parallel.step (fillDefault kvModel) verbose hasTimeout)
      (.start (fillDefault kvModel) entries) checks = some t) :
    checks.length ≤ Parallel.maxSteps ((kvPartition log).map List.length) ∧
      (log ≠ [] ∨ hasTimeout = true → (∃ result info, t.phase = .returned result info) ∨
        ∃ a, (t.step (fillDefault kvModel) verbose hasTimeout a).isSome) ∧
      ∀ result info, t.phase = .returned result info →
        result = .ok ∨ result = .unknown ∧ hasTimeout = true := by
  obtain ⟨hle, hgoes⟩ := kvReturned_or_exists_step hvalid hentries hcheck
  refine ⟨hle, hgoes, fun result info hreturned => ?_⟩
  obtain ⟨-, hillegal, hunknown⟩ := kvLinearizable_of_result hvalid hentries hcheck hreturned
  cases result with
  | ok => exact Or.inl rfl
  | illegal => exact absurd hlin (hillegal rfl)
  | unknown => exact Or.inr ⟨rfl, hunknown rfl⟩

/-! ## The server of Lab 2 -/

def kvsrvInput : KvSrv.Input → KvInput
  | .get key => { op := 0, key := key }
  | .put key value => { op := 1, key := key, value := value }
  | .append key value => { op := 3, key := key, value := value }

def kvsrvOutput : KvSrv.Input → String → KvOutput
  | .get _, v => { value := v }
  | .put _ _, _ => {}
  | .append _ _, last => { value := last }

theorem kvTake_kvsrv (m : String → String) (i : KvSrv.Input) (o : KvOperation)
    (hin : o.input = kvsrvInput i) (hout : o.output = kvsrvOutput i (KvSrv.kvSpec.step m i).2) :
    kvTake m o = some (KvSrv.kvSpec.step m i).1 := by
  cases i with
  | get key => simp [kvTake, hin, hout, kvsrvInput, kvsrvOutput, KvSrv.kvSpec]
  | put key value => simp [kvTake, hin, kvsrvInput, KvSrv.kvSpec]
  | append key value => simp [kvTake, hin, hout, kvsrvInput, kvsrvOutput, KvSrv.kvSpec]

/-- Whatever the server, the clerks and the network do, and however the goroutines of the
checker are scheduled, the check at the end of a test comes to an end if there is something
to be checked or a timeout, and does not fail. -/
theorem check_kvsrv_log {m : ℕ} {ids : ℕ → ℕ} (hids : Function.Injective ids)
    {acts : List (KvSrv.System.Act m)} {s : KvSrv.System m}
    (h : exec (KvSrv.System.step ids) {} acts = some s)
    (hlog : Logs kvsrvInput kvsrvOutput s.history log)
    (hentries : List.Forall₂ MakesEntries (kvPartition log) entries)
    (hcheck : exec (Parallel.step (fillDefault kvModel) verbose hasTimeout)
      (.start (fillDefault kvModel) entries) checks = some t) :
    checks.length ≤ Parallel.maxSteps ((kvPartition log).map List.length) ∧
      (log ≠ [] ∨ hasTimeout = true → (∃ result info, t.phase = .returned result info) ∨
        ∃ a, (t.step (fillDefault kvModel) verbose hasTimeout a).isSome) ∧
      ∀ result info, t.phase = .returned result info →
        result = .ok ∨ result = .unknown ∧ hasTimeout = true := by
  obtain ⟨L, hinv⟩ := KvSrv.Inv.exec hids h
  have hlin : KvLinearizable log := hlog.kvLinearizable id rfl kvTake_kvsrv
    hinv.numbered.unique hinv.lin.linearizable
  exact check_of_kvLinearizable hlog.valid hlin hentries hcheck

/-! ## The replicated server -/

def kvraftInput : KvRaft.Input → KvInput
  | .get key => { op := 0, key := key }
  | .put key value => { op := 1, key := key, value := value }
  | .append key value => { op := 2, key := key, value := value }

def kvraftOutput : KvRaft.Input → String → KvOutput
  | .get _, v => { value := v }
  | .put _ _, _ => {}
  | .append _ _, _ => {}

/-- A key that is missing has the empty value. -/
def kvraftView (m : String → Option String) (key : String) : String := (m key).getD ""

theorem kvraftView_update (m : String → Option String) (key value : String) :
    kvraftView (Function.update m key (some value)) =
      Function.update (kvraftView m) key value := by
  funext key'
  by_cases hkey : key' = key
  · subst hkey
    simp [kvraftView]
  · simp [kvraftView, Function.update_of_ne hkey]

theorem kvTake_kvraft (m : String → Option String) (i : KvRaft.Input) (o : KvOperation)
    (hin : o.input = kvraftInput i) (hout : o.output = kvraftOutput i (KvRaft.kvSpec.step m i).2) :
    kvTake (kvraftView m) o = some (kvraftView (KvRaft.kvSpec.step m i).1) := by
  cases i with
  | get key => simp [kvTake, hin, hout, kvraftInput, kvraftOutput, kvraftView, KvRaft.kvSpec]
  | put key value => simp [kvTake, hin, kvraftInput, KvRaft.kvSpec, kvraftView_update]
  | append key value =>
      cases hold : m key with
      | none =>
          simp [kvTake, hin, kvraftInput, KvRaft.kvSpec, hold, kvraftView_update]
          simp [kvraftView, hold]
      | some old =>
          simp [kvTake, hin, kvraftInput, KvRaft.kvSpec, hold, kvraftView_update]
          simp [kvraftView, hold]

/-- Whatever the clerks, the servers, the peers and the two networks do, as long as no
server takes a snapshot or restarts, and however the goroutines of the checker are
scheduled, the check at the end of a test comes to an end and does not fail. -/
theorem check_kvraft_log {n m : ℕ} {encode : KvRaft.SnapshotStatus → Raft.Bytes}
    {decode : Raft.Bytes → Option KvRaft.SnapshotStatus} {ids : Fin m → ℕ}
    (hids : Function.Injective ids) {acts : List (KvRaft.Stack.Act n m)}
    (hacts : KvRaft.Stack.Unsnapped acts) {s : KvRaft.Stack n m}
    (h : exec (KvRaft.Stack.step encode decode) (.init n ids) acts = some s)
    (hlog : Logs kvraftInput kvraftOutput s.history log)
    (hentries : List.Forall₂ MakesEntries (kvPartition log) entries)
    (hcheck : exec (Parallel.step (fillDefault kvModel) verbose hasTimeout)
      (.start (fillDefault kvModel) entries) checks = some t) :
    checks.length ≤ Parallel.maxSteps ((kvPartition log).map List.length) ∧
      (log ≠ [] ∨ hasTimeout = true → (∃ result info, t.phase = .returned result info) ∨
        ∃ a, (t.step (fillDefault kvModel) verbose hasTimeout a).isSome) ∧
      ∀ result info, t.phase = .returned result info →
        result = .ok ∨ result = .unknown ∧ hasTimeout = true := by
  obtain ⟨g, started, log', hg⟩ := KvRaft.Stack.refines_exec hids hacts h
  have hhistory : g.history = s.history := hg.history
  rw [← hhistory] at hlog
  have hlin : KvLinearizable log := hlog.kvLinearizable kvraftView rfl kvTake_kvraft
    (fun _ _ _ => hg.inv.inv_unique) (hg.inv.linearizable KvRaft.kvSpec_read)
  exact check_of_kvLinearizable hlog.valid hlin hentries hcheck

end

/-! A put that is over before a get begins. -/

def putRecord : KvOperation :=
  { input := { op := 1, key := "x", value := "1" }, call := 0, output := {}, ret := 1 }

def getRecord : KvOperation :=
  { input := { op := 0, key := "x" }, call := 2, output := { value := "1" }, ret := 3 }

theorem logs_putRecord_getRecord {ι Op : Type} [DecidableEq ι] {input : Op → KvInput}
    {output : Op → String → KvOutput} {j k : ι} (hjk : j ≠ k) {put get : Op}
    (hput : putRecord.input = input put ∧ putRecord.output = output put "")
    (hget : getRecord.input = input get ∧ getRecord.output = output get "1") :
    Logs input output [.inv j put, .ret j "", .inv k get, .ret k "1"]
      [putRecord, getRecord] := by
  refine ⟨fun i => i, [j, k], fun id => if id = j then putRecord else getRecord,
    fun _ _ hle => Int.ofNat_le.mpr hle, by simpa using hjk, by simp [hjk.symm], ?_, ?_⟩
  · intro id op hmem
    simp only [List.mem_cons, SharedLog.Event.inv.injEq, reduceCtorEq, List.not_mem_nil, or_false,
      false_or] at hmem ⊢
    exact hmem.imp And.left And.left
  · refine List.forall_mem_cons.mpr ⟨?_, List.forall_mem_singleton.mpr ?_⟩
    · simp only [if_true]
      exact ⟨0, 1, put, "", Nat.zero_le 1, rfl, rfl, hput.1, hput.2, le_rfl, le_rfl⟩
    · simp only [if_neg hjk.symm]
      exact ⟨2, 3, get, "1", Nat.le_succ 2, rfl, rfl, hget.1, hget.2, le_rfl, le_rfl⟩

def recordEntries : List (List (Entry KvInput KvOutput)) :=
  [[putRecord.callEntry 0, putRecord.returnEntry 0, getRecord.callEntry 1, getRecord.returnEntry 1]]

theorem makesEntries_record :
    List.Forall₂ MakesEntries (kvPartition [putRecord, getRecord]) recordEntries :=
  show List.Forall₂ MakesEntries [[putRecord, getRecord]] recordEntries from
    .cons ⟨by decide, by decide⟩ .nil

def kvsrvPutThenGet : List (KvSrv.System.Act 2) :=
  [.invoke KvSrv.first (.put "x" "1"), .handle KvSrv.first, .succeed KvSrv.first,
    .handle KvSrv.first, .succeed KvSrv.first,
    .invoke KvSrv.second (.get "x"), .handle KvSrv.second, .succeed KvSrv.second]

theorem check_kvsrv_log_putThenGet :
    ∃ (s : KvSrv.System 2) (t : Parallel String KvInput KvOutput) (info : List Partials),
      exec (KvSrv.System.step id) {} kvsrvPutThenGet = some s ∧
      Logs kvsrvInput kvsrvOutput s.history [putRecord, getRecord] ∧
      exec (Parallel.step (fillDefault kvModel) true true)
        (.start (fillDefault kvModel) recordEntries) Parallel.checkOverlapping = some t ∧
      t.phase = .returned .ok info ∧
      (Parallel.checkOverlapping.length ≤
          Parallel.maxSteps ((kvPartition [putRecord, getRecord]).map List.length) ∧
        ([putRecord, getRecord] ≠ [] ∨ true = true →
          (∃ result info, t.phase = .returned result info) ∨
            ∃ a, (t.step (fillDefault kvModel) true true a).isSome) ∧
        ∀ result info, t.phase = .returned result info →
          result = .ok ∨ result = .unknown ∧ true = true) :=
  have hlog : Logs kvsrvInput kvsrvOutput
      [.inv 0 (.put "x" "1"), .ret 0 "", .inv 1 (.get "x"), .ret 1 "1"] [putRecord, getRecord] :=
    logs_putRecord_getRecord (by decide) ⟨rfl, rfl⟩ ⟨rfl, rfl⟩
  ⟨_, _, _, rfl, hlog, rfl, rfl, check_kvsrv_log Function.injective_id
    (show exec (KvSrv.System.step id) {} kvsrvPutThenGet = some _ from rfl) hlog
    makesEntries_record
    (show exec (Parallel.step (fillDefault kvModel) true true)
      (.start (fillDefault kvModel) recordEntries) Parallel.checkOverlapping = some _ from rfl)⟩

theorem check_kvraft_log_putThenGetElsewhere :
    ∃ (s : KvRaft.Stack 3 3) (t : Parallel String KvInput KvOutput) (info : List Partials),
      exec (KvRaft.Stack.step (fun _ => []) fun _ => none) (.init 3 Fin.val)
        KvRaft.Stack.putThenGetElsewhere = some s ∧
      Logs kvraftInput kvraftOutput s.history [putRecord, getRecord] ∧
      exec (Parallel.step (fillDefault kvModel) true true)
        (.start (fillDefault kvModel) recordEntries) Parallel.checkOverlapping = some t ∧
      t.phase = .returned .ok info ∧
      (Parallel.checkOverlapping.length ≤
          Parallel.maxSteps ((kvPartition [putRecord, getRecord]).map List.length) ∧
        ([putRecord, getRecord] ≠ [] ∨ true = true →
          (∃ result info, t.phase = .returned result info) ∨
            ∃ a, (t.step (fillDefault kvModel) true true a).isSome) ∧
        ∀ result info, t.phase = .returned result info →
          result = .ok ∨ result = .unknown ∧ true = true) :=
  have hlog : Logs kvraftInput kvraftOutput
      [.inv (0, 0) (.put "x" "1"), .ret (0, 0) "", .inv (1, 0) (.get "x"), .ret (1, 0) "1"]
      [putRecord, getRecord] :=
    logs_putRecord_getRecord (by decide) ⟨rfl, rfl⟩ ⟨rfl, rfl⟩
  ⟨_, _, _, rfl, hlog, rfl, rfl, check_kvraft_log (fun _ _ he => Fin.ext he) (by decide)
    (show exec (KvRaft.Stack.step (fun _ => []) fun _ => none) (.init 3 Fin.val)
      KvRaft.Stack.putThenGetElsewhere = some _ from rfl) hlog
    makesEntries_record
    (show exec (Parallel.step (fillDefault kvModel) true true)
      (.start (fillDefault kvModel) recordEntries) Parallel.checkOverlapping = some _ from rfl)⟩

end Porcupine

end DistributedLabs
