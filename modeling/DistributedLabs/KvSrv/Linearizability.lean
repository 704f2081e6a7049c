import DistributedLabs.Logic.Run
import DistributedLabs.SharedLog.Points
import DistributedLabs.KvSrv.Server

/-!
# The clerks of the single server see an atomic map

A write takes effect when its handler runs for the first time: until the clerk
reports, `MessageMap` has a record of it, which turns every later run into a
repetition of the first reply. A read takes effect whenever its handler runs; if
the reply is lost, this run does not count and the read is taken back.
-/

namespace DistributedLabs

namespace KvSrv

open SharedLog

variable {m : ℕ}

/-- The call that `PutAppend` works on. -/
def Op.input (op : Op) (args : PutAppendArgs) : Input :=
  match op with
  | .put => .put args.key args.value
  | .append => .append args.key args.value

/-- The reply to a repeated request, from what `MessageMap` holds. -/
def Op.answer (op : Op) (record : String) : String :=
  match op with
  | .put => ""
  | .append => record

/-! ## Runs of the handlers -/

section

variable {kv : Server} {op : Op} {args : PutAppendArgs}

/-- The first run of a handler is the step of the map, and is recorded. -/
theorem Server.handle_modify_new (htype : args.requestType = .modify)
    (hnew : kv.messageMap args.requestId = none) :
    ∃ record, op.answer record = (kvSpec.step kv.data (op.input args)).2 ∧
      kv.handle (.modify op args) = some
        ({ data := (kvSpec.step kv.data (op.input args)).1
           messageMap := Function.update kv.messageMap args.requestId (some record) },
          op.answer record) := by
  cases op with
  | put =>
      refine ⟨args.value, rfl, ?_⟩
      simp only [Server.handle, Server.put, htype, hnew]
      rfl
  | append =>
      refine ⟨kv.data args.key, rfl, ?_⟩
      simp only [Server.handle, Server.append, htype, hnew]
      rfl

/-- A repeated run finds the record. -/
theorem Server.handle_modify_again (htype : args.requestType = .modify) {record : String}
    (hrecord : kv.messageMap args.requestId = some record) :
    kv.handle (.modify op args) = some (kv, op.answer record) := by
  cases op with
  | put =>
      simp only [Server.handle, Server.put, htype, hrecord]
      rfl
  | append =>
      simp only [Server.handle, Server.append, htype, hrecord]
      rfl

theorem Server.handle_report (htype : args.requestType = .report) (value : String) :
    kv.handle (.report op args value) = some
      ({ kv with messageMap := Function.update kv.messageMap args.requestId none }, "") := by
  cases op with
  | put => simp only [Server.handle, Server.put, htype]
  | append => simp only [Server.handle, Server.append, htype]

end

/-- Among the runs of the handler for the call `k`, the first one is the step of
the map with the answer `r`, and no later one changes the data. -/
def TakesEffectOnce (trace : List Execution) (k : ℕ) (input : Input) (r : String) : Prop :=
  ∃ earlier x later, trace = earlier ++ x :: later ∧ x.call = k ∧ x.reply = r ∧
    kvSpec.step x.before input = (x.after, r) ∧ (∀ y ∈ earlier, y.call ≠ k) ∧
    ∀ y ∈ later, y.call = k → y.after = y.before

theorem TakesEffectOnce.snoc {trace : List Execution} {k : ℕ} {input : Input} {r : String}
    (h : TakesEffectOnce trace k input r) {x : Execution}
    (hx : x.call = k → x.after = x.before) : TakesEffectOnce (trace ++ [x]) k input r := by
  obtain ⟨earlier, y, later, rfl, hcall, hreply, hstep, hearlier, hlater⟩ := h
  refine ⟨earlier, y, later ++ [x], by simp, hcall, hreply, hstep, hearlier, fun z hz => ?_⟩
  rcases List.mem_append.mp hz with hz | hz
  · exact hlater z hz
  · obtain rfl := List.mem_singleton.mp hz
    exact hx

/-- A write has not run yet, or it stands in the order of effects with the answer
of its first run. -/
def Effect (trace : List Execution) (L : List (Call ℕ Input String)) (k : ℕ) (input : Input) :
    Prop :=
  (k ∉ L.map Call.id ∧ ∀ x ∈ trace, x.call ≠ k) ∨
    ∃ r, { id := k, op := input, ret := r } ∈ L ∧ TakesEffectOnce trace k input r

/-- Once a call has taken effect, a run that leaves the data alone does not change
that. -/
theorem Effect.again {trace : List Execution} {L : List (Call ℕ Input String)} {k : ℕ}
    {input : Input} (heff : Effect trace L k input) (hmem : k ∈ L.map Call.id) {x : Execution}
    (hx : x.after = x.before) : Effect (trace ++ [x]) L k input := by
  rcases heff with ⟨hnew, -⟩ | ⟨r, hmem, honce⟩
  · exact absurd hmem hnew
  · exact Or.inr ⟨r, hmem, honce.snoc fun _ => hx⟩

/-- The first run of a handler brings about the effect. -/
theorem Effect.first {trace : List Execution} {L : List (Call ℕ Input String)} {k : ℕ}
    {input : Input} (heff : Effect trace L k input) (hnew : k ∉ L.map Call.id) {x : Execution}
    (hcall : x.call = k) (hx : kvSpec.step x.before input = (x.after, x.reply)) :
    Effect (trace ++ [x]) (L ++ [{ id := k, op := input, ret := x.reply }]) k input := by
  rcases heff with ⟨-, hfirst⟩ | ⟨r, hmem, -⟩
  · exact Or.inr ⟨x.reply, by simp, trace, x, [], rfl, hcall, rfl, hx, hfirst, by simp⟩
  · exact absurd (List.mem_map_of_mem hmem) hnew

theorem mem_concat_of_id_ne {L : List (Call ℕ Input String)} {d e : Call ℕ Input String}
    (h : d.id ≠ e.id) : d ∈ L ++ [e] ↔ d ∈ L := by
  rw [List.mem_append, List.mem_singleton]
  exact or_iff_left fun heq => h (congrArg Call.id heq)

/-- What holds of a clerk: `table` is the server's `MessageMap` and `L` the order
of effects. -/
def ClerkOk (ids : ℕ → ℕ) (table : ℕ → Option String) (H : List (Event ℕ Input String))
    (L : List (Call ℕ Input String)) (ck : Clerk) : Prop :=
  match ck.pc with
  | .idle => True
  | .get key =>
    .inv ck.call (.get key) ∈ H ∧ table (ids ck.call) = none ∧
      match ck.replied with
      | none => ck.call ∉ L.map Call.id
      | some r => { id := ck.call, op := .get key, ret := r } ∈ L
  | .modify op args =>
    .inv ck.call (op.input args) ∈ H ∧ args.requestType = .modify ∧
      args.requestId = ids ck.call ∧
      match table (ids ck.call) with
      | none => ck.call ∉ L.map Call.id ∧ ck.replied = none
      | some record =>
        { id := ck.call, op := op.input args, ret := op.answer record } ∈ L ∧
          ∀ r ∈ ck.replied, r = op.answer record
  | .report op args value =>
    .inv ck.call (op.input args) ∈ H ∧ args.requestType = .report ∧
      args.requestId = ids ck.call ∧
      { id := ck.call, op := op.input args, ret := value } ∈ L ∧
      (ck.replied ≠ none → table (ids ck.call) = none)

/-- The number of the call that a clerk works on. -/
def Clerk.current (ck : Clerk) : Option ℕ :=
  match ck.pc with
  | .idle => none
  | _ => some ck.call

theorem Clerk.current_of_ne_idle {ck : Clerk} (h : ck.pc ≠ .idle) :
    ck.current = some ck.call := by
  unfold Clerk.current
  split
  · rename_i hpc
    exact absurd hpc h
  · rfl

/-- Only what concerns the call of the clerk matters. -/
theorem ClerkOk.frame {ids : ℕ → ℕ} {table table' : ℕ → Option String}
    {H H' : List (Event ℕ Input String)} {L L' : List (Call ℕ Input String)} {ck : Clerk}
    (h : ClerkOk ids table H L ck)
    (htable : ∀ k, ck.current = some k → table' (ids k) = table (ids k))
    (hH : ∀ k input, .inv k input ∈ H → .inv k input ∈ H')
    (hL : ∀ k, ck.current = some k → ∀ d : Call ℕ Input String, d.id = k →
      (d ∈ L' ↔ d ∈ L)) : ClerkOk ids table' H' L' ck := by
  have hmap : ck.current = some ck.call →
      (ck.call ∈ L'.map Call.id ↔ ck.call ∈ L.map Call.id) := by
    intro hcur
    rw [List.mem_map, List.mem_map]
    constructor
    · rintro ⟨d, hd, hid⟩
      exact ⟨d, (hL _ hcur d hid).mp hd, hid⟩
    · rintro ⟨d, hd, hid⟩
      exact ⟨d, (hL _ hcur d hid).mpr hd, hid⟩
  unfold ClerkOk at h ⊢
  cases hpc : ck.pc with
  | idle => trivial
  | get key =>
      have hcur : ck.current = some ck.call := Clerk.current_of_ne_idle (by rw [hpc]; nofun)
      rw [hpc] at h
      obtain ⟨hinv, hnone, hreplied⟩ := h
      refine ⟨hH _ _ hinv, by rw [htable _ hcur, hnone], ?_⟩
      cases hr : ck.replied with
      | none =>
          rw [hr] at hreplied
          exact mt (hmap hcur).mp hreplied
      | some r =>
          rw [hr] at hreplied
          exact (hL _ hcur _ rfl).mpr hreplied
  | modify op args =>
      have hcur : ck.current = some ck.call := Clerk.current_of_ne_idle (by rw [hpc]; nofun)
      rw [hpc] at h
      obtain ⟨hinv, htype, hid, hrecord⟩ := h
      refine ⟨hH _ _ hinv, htype, hid, ?_⟩
      rw [htable _ hcur]
      cases ht : table (ids ck.call) with
      | none =>
          rw [ht] at hrecord
          exact ⟨mt (hmap hcur).mp hrecord.1, hrecord.2⟩
      | some record =>
          rw [ht] at hrecord
          exact ⟨(hL _ hcur _ rfl).mpr hrecord.1, hrecord.2⟩
  | report op args value =>
      have hcur : ck.current = some ck.call := Clerk.current_of_ne_idle (by rw [hpc]; nofun)
      rw [hpc] at h
      obtain ⟨hinv, htype, hid, hmem, hnone⟩ := h
      refine ⟨hH _ _ hinv, htype, hid, (hL _ hcur _ rfl).mpr hmem, ?_⟩
      rw [htable _ hcur]
      exact hnone

/-- The calls are numbered, and each clerk works on a call of its own. -/
structure Numbered (s : System m) : Prop where
  lt : ∀ c k, (s.clerks c).current = some k → k < s.calls
  inj : ∀ c c' k, (s.clerks c).current = some k → (s.clerks c').current = some k → c = c'
  pending : ∀ c k, (s.clerks c).current = some k → ∀ r, .ret k r ∉ s.history
  invoked : ∀ k input, .inv k input ∈ s.history → k < s.calls
  unique : ∀ k input input', .inv k input ∈ s.history → .inv k input' ∈ s.history →
    input = input'

/-- What holds of the system, with the order `L` in which calls have taken
effect. -/
structure Inv (ids : ℕ → ℕ) (s : System m) (L : List (Call ℕ Input String)) : Prop where
  lin : Linearized kvSpec s.history L s.server.data
  numbered : Numbered s
  clerks : ∀ c, ClerkOk ids s.server.messageMap s.history L (s.clerks c)
  table : ∀ k record, s.server.messageMap (ids k) = some record →
    ∃ c, (s.clerks c).current = some k
  effects : ∀ k input, .inv k input ∈ s.history → input.isWrite = true →
    Effect s.trace L k input
  ran : ∀ x ∈ s.trace, x.call < s.calls

section

variable {ids : ℕ → ℕ} {s s' : System m} {c : Fin m} {L : List (Call ℕ Input String)}

theorem setClerk_current_self (ck : Clerk) :
    ((s.setClerk c ck).clerks c).current = ck.current := by
  simp [System.setClerk]

theorem setClerk_current_of_ne {c' : Fin m} (hc : c' ≠ c) (ck : Clerk) :
    ((s.setClerk c ck).clerks c').current = (s.clerks c').current := by
  simp [System.setClerk, hc]

theorem current_setClerk {ck : Clerk} (h : ck.current = (s.clerks c).current) (c' : Fin m) :
    ((s.setClerk c ck).clerks c').current = (s.clerks c').current := by
  by_cases hc : c' = c
  · rw [hc, setClerk_current_self, h]
  · exact setClerk_current_of_ne hc ck

theorem current_request (input : Input) (requestId k : ℕ) :
    Clerk.current { pc := System.request input requestId, call := k } = some k := by
  cases input with
  | get key => rfl
  | put key value => rfl
  | append key value => rfl

/-- Clerks that keep their calls stay numbered. -/
theorem Numbered.of_current (h : Numbered s)
    (hcur : ∀ c, (s'.clerks c).current = (s.clerks c).current) (hcalls : s'.calls = s.calls)
    (hhistory : s'.history = s.history) : Numbered s' where
  lt c k hk := by
    rw [hcalls]
    exact h.lt c k (hcur c ▸ hk)
  inj c c' k hk hk' := h.inj c c' k (hcur c ▸ hk) (hcur c' ▸ hk')
  pending c k hk r := by
    rw [hhistory]
    exact h.pending c k (hcur c ▸ hk) r
  invoked k input := by
    rw [hhistory, hcalls]
    exact h.invoked k input
  unique k input input' := by
    rw [hhistory]
    exact h.unique k input input'

theorem Numbered.invoke (h : Numbered s) {input : Input}
    (hnew : ∀ r, .ret s.calls r ∉ s.history) {requestId : ℕ} :
    Numbered (System.setClerk
      { s with calls := s.calls + 1, history := s.history ++ [.inv s.calls input] } c
      { pc := System.request input requestId, call := s.calls }) := by
  -- a clerk works on its call from before, or is the one with the new call
  have hcur : ∀ c' k, ((System.setClerk
      { s with calls := s.calls + 1, history := s.history ++ [.inv s.calls input] } c
      { pc := System.request input requestId, call := s.calls }).clerks c').current = some k →
      (s.clerks c').current = some k ∨ c' = c ∧ k = s.calls := by
    intro c' k hk
    by_cases hc : c' = c
    · rw [hc, setClerk_current_self, current_request] at hk
      exact Or.inr ⟨hc, (Option.some.inj hk).symm⟩
    · rw [setClerk_current_of_ne hc] at hk
      exact Or.inl hk
  have hinv : ∀ k input', .inv k input' ∈ s.history ++ [.inv s.calls input] →
      .inv k input' ∈ s.history ∨ k = s.calls ∧ input' = input := by
    intro k input' hmem
    rcases List.mem_append.mp hmem with hmem | hmem
    · exact Or.inl hmem
    · cases List.mem_singleton.mp hmem
      exact Or.inr ⟨rfl, rfl⟩
  refine ⟨?_, ?_, ?_, ?_, ?_⟩
  · intro c' k hk
    rcases hcur c' k hk with hk | ⟨-, rfl⟩
    · exact Nat.lt_succ_of_lt (h.lt c' k hk)
    · exact Nat.lt_succ_self _
  · intro c₁ c₂ k h₁ h₂
    rcases hcur c₁ k h₁ with h₁ | ⟨rfl, rfl⟩
    · rcases hcur c₂ k h₂ with h₂ | ⟨-, rfl⟩
      · exact h.inj c₁ c₂ k h₁ h₂
      · exact absurd (h.lt c₁ _ h₁) (lt_irrefl _)
    · rcases hcur c₂ _ h₂ with h₂ | ⟨rfl, -⟩
      · exact absurd (h.lt c₂ _ h₂) (lt_irrefl _)
      · rfl
  · intro c' k hk r hret
    rcases List.mem_append.mp hret with hret | hret
    · rcases hcur c' k hk with hk | ⟨-, rfl⟩
      · exact h.pending c' k hk r hret
      · exact hnew r hret
    · cases List.mem_singleton.mp hret
  · intro k input' hmem
    rcases hinv k input' hmem with hmem | ⟨rfl, -⟩
    · exact Nat.lt_succ_of_lt (h.invoked k input' hmem)
    · exact Nat.lt_succ_self _
  · intro k i₁ i₂ h₁ h₂
    rcases hinv k i₁ h₁ with h₁ | ⟨rfl, rfl⟩
    · rcases hinv k i₂ h₂ with h₂ | ⟨rfl, -⟩
      · exact h.unique k i₁ i₂ h₁ h₂
      · exact absurd (h.invoked _ i₁ h₁) (lt_irrefl _)
    · rcases hinv _ i₂ h₂ with h₂ | ⟨-, rfl⟩
      · exact absurd (h.invoked _ i₂ h₂) (lt_irrefl _)
      · rfl

theorem Numbered.ret (h : Numbered s) (hcur : (s.clerks c).current = some (s.clerks c).call)
    (value : String) : Numbered (s.ret c value) := by
  have hcur' : ∀ c' k, ((s.ret c value).clerks c').current = some k →
      (s.clerks c').current = some k ∧ c' ≠ c := by
    intro c' k hk
    by_cases hc : c' = c
    · rw [hc, System.ret, setClerk_current_self] at hk
      cases hk
    · rw [System.ret, setClerk_current_of_ne hc] at hk
      exact ⟨hk, hc⟩
  have hinv : ∀ k input, .inv k input ∈ (s.ret c value).history →
      .inv k input ∈ s.history := by
    intro k input hmem
    rcases List.mem_append.mp hmem with hmem | hmem
    · exact hmem
    · cases List.mem_singleton.mp hmem
  refine ⟨?_, ?_, ?_, ?_, ?_⟩
  · exact fun c' k hk => h.lt c' k (hcur' c' k hk).1
  · exact fun c₁ c₂ k h₁ h₂ => h.inj c₁ c₂ k (hcur' c₁ k h₁).1 (hcur' c₂ k h₂).1
  · intro c' k hk r hret
    obtain ⟨hk, hne⟩ := hcur' c' k hk
    rcases List.mem_append.mp hret with hret | hret
    · exact h.pending c' k hk r hret
    · cases List.mem_singleton.mp hret
      exact hne (h.inj c' c _ hk hcur)
  · exact fun k input hmem => h.invoked k input (hinv k input hmem)
  · exact fun k i₁ i₂ h₁ h₂ => h.unique k i₁ i₂ (hinv k i₁ h₁) (hinv k i₂ h₂)

namespace Inv

/-- The number of a call that will be invoked next is new. -/
theorem calls_notMem (h : Inv ids s L) : s.calls ∉ L.map Call.id := by
  intro hmem
  obtain ⟨d, hd, hid⟩ := List.mem_map.mp hmem
  exact (h.numbered.invoked d.id d.op (h.lin.invoked d hd)).ne hid

theorem table_calls (h : Inv ids s L) : s.server.messageMap (ids s.calls) = none := by
  cases hrecord : s.server.messageMap (ids s.calls) with
  | none => rfl
  | some record =>
      obtain ⟨c, hc⟩ := h.table _ record hrecord
      exact absurd (h.numbered.lt c _ hc) (lt_irrefl _)

/-- A clerk makes a step within its call, which may change the record of the call
and its place in the order. -/
theorem update (hids : Function.Injective ids) (h : Inv ids s L) {k : ℕ}
    (hcur : (s.clerks c).current = some k) {ck : Clerk} (hck : ck.current = some k)
    {server : Server} {trace : List Execution} {L' : List (Call ℕ Input String)}
    (hlin : Linearized kvSpec s.history L' server.data)
    (htable : ∀ i, i ≠ ids k → server.messageMap i = s.server.messageMap i)
    (hL : ∀ d : Call ℕ Input String, d.id ≠ k → (d ∈ L' ↔ d ∈ L))
    (hok : ClerkOk ids server.messageMap s.history L' ck)
    (heffect : ∀ j input, .inv j input ∈ s.history → input.isWrite = true →
      Effect s.trace L j input → Effect trace L' j input)
    (hran : ∀ x ∈ trace, x.call < s.calls) :
    Inv ids (System.setClerk { s with server := server, trace := trace } c ck) L' where
  lin := hlin
  numbered := h.numbered.of_current (current_setClerk (hck.trans hcur.symm)) rfl rfl
  clerks := by
    refine (Function.forall_update_iff s.clerks fun _ ck =>
      ClerkOk ids server.messageMap s.history L' ck).mpr ⟨hok, fun c' hc' => ?_⟩
    have hne : ∀ j, (s.clerks c').current = some j → j ≠ k := by
      rintro j hj rfl
      exact hc' (h.numbered.inj c' c j hj hcur)
    refine (h.clerks c').frame (fun j hj => ?_) (fun _ _ => id) fun j hj d hd => ?_
    · exact htable _ fun heq => hne j hj (hids heq)
    · exact hL d (hd ▸ hne j hj)
  table j record hrecord := by
    by_cases hj : j = k
    · exact ⟨c, by rw [setClerk_current_self, hck, hj]⟩
    · have hold := (htable (ids j) fun heq => hj (hids heq)).symm.trans hrecord
      obtain ⟨c', hc'⟩ := h.table j record hold
      exact ⟨c', (current_setClerk (hck.trans hcur.symm) c').trans hc'⟩
  effects j input hinv hwrite := heffect j input hinv hwrite (h.effects j input hinv hwrite)
  ran := hran

theorem invoke (h : Inv ids s L) {input : Input} (hs : s.invoke ids c input = some s') :
    Inv ids s' L := by
  obtain ⟨hpc, rfl⟩ := System.invoke_cases hs
  refine ⟨h.lin.invoke h.calls_notMem input,
    h.numbered.invoke (fun r => h.lin.not_returned h.calls_notMem r), ?_, ?_, ?_, ?_⟩
  · refine (Function.forall_update_iff s.clerks fun _ ck =>
      ClerkOk ids s.server.messageMap (s.history ++ [.inv s.calls input]) L ck).mpr
        ⟨?_, fun c' _ => (h.clerks c').frame (fun _ _ => rfl)
          (fun _ _ => List.mem_append_left _) fun _ _ _ _ => Iff.rfl⟩
    have hmem : .inv s.calls input ∈ s.history ++ [.inv s.calls input] := by simp
    have hrecord : ∀ op args, .inv s.calls (op.input args) ∈ s.history ++ [.inv s.calls input] →
        args.requestType = .modify → args.requestId = ids s.calls →
        ClerkOk ids s.server.messageMap (s.history ++ [.inv s.calls input]) L
          { pc := .modify op args, call := s.calls } := by
      intro op args hinv htype hid
      refine ⟨hinv, htype, hid, ?_⟩
      dsimp only
      rw [h.table_calls]
      exact ⟨h.calls_notMem, rfl⟩
    cases input with
    | get key => exact ⟨hmem, h.table_calls, h.calls_notMem⟩
    | put key value => exact hrecord .put _ hmem rfl rfl
    | append key value => exact hrecord .append _ hmem rfl rfl
  · intro k record hrecord
    obtain ⟨c', hc'⟩ := h.table k record hrecord
    refine ⟨c', ?_⟩
    have hne : c' ≠ c := by
      rintro rfl
      rw [Clerk.current, hpc] at hc'
      cases hc'
    rw [setClerk_current_of_ne hne]
    exact hc'
  · intro k input' hmem hwrite
    rcases List.mem_append.mp hmem with hmem | hmem
    · exact h.effects k input' hmem hwrite
    · cases List.mem_singleton.mp hmem
      exact Or.inl ⟨h.calls_notMem, fun x hx => (h.ran x hx).ne⟩
  · exact fun x hx => Nat.lt_succ_of_lt (h.ran x hx)

/-- A call that has taken effect returns, and has left no record behind. -/
theorem ret (h : Inv ids s L) (hpc : (s.clerks c).pc ≠ .idle) {input : Input} {value : String}
    (hmem : { id := (s.clerks c).call, op := input, ret := value } ∈ L)
    (hnone : s.server.messageMap (ids (s.clerks c).call) = none) :
    Inv ids (s.ret c value) L := by
  have hcur := Clerk.current_of_ne_idle hpc
  refine ⟨h.lin.respond hmem, h.numbered.ret hcur value, ?_, ?_, ?_, h.ran⟩
  · refine (Function.forall_update_iff s.clerks fun _ ck =>
      ClerkOk ids s.server.messageMap (s.ret c value).history L ck).mpr ⟨trivial, fun c' _ => ?_⟩
    exact (h.clerks c').frame (fun _ _ => rfl) (fun _ _ => List.mem_append_left _)
      fun _ _ _ _ => Iff.rfl
  · intro k record hrecord
    obtain ⟨c', hc'⟩ := h.table k record hrecord
    refine ⟨c', ?_⟩
    have hne : c' ≠ c := by
      rintro rfl
      obtain rfl := Option.some.inj (hcur.symm.trans hc')
      cases hnone.symm.trans hrecord
    rw [System.ret, setClerk_current_of_ne hne]
    exact hc'
  · intro k input' hinv hwrite
    rcases List.mem_append.mp hinv with hinv | hinv
    · exact h.effects k input' hinv hwrite
    · cases List.mem_singleton.mp hinv

/-- A handler runs for a clerk that waits for it. -/
theorem run (hids : Function.Injective ids) (h : Inv ids s L) (hpc : (s.clerks c).pc ≠ .idle)
    {r : Server × String} {L' : List (Call ℕ Input String)}
    (hlin : Linearized kvSpec s.history L' r.1.data)
    (htable : ∀ i, i ≠ ids (s.clerks c).call → r.1.messageMap i = s.server.messageMap i)
    (hL : ∀ d : Call ℕ Input String, d.id ≠ (s.clerks c).call → (d ∈ L' ↔ d ∈ L))
    (hok : ClerkOk ids r.1.messageMap s.history L' ((s.clerks c).setReplied (some r.2)))
    (heffect : ∀ input, .inv (s.clerks c).call input ∈ s.history → input.isWrite = true →
      Effect s.trace L (s.clerks c).call input →
      Effect (s.trace ++ [{ call := (s.clerks c).call, before := s.server.data
                            after := r.1.data, reply := r.2 }]) L' (s.clerks c).call input) :
    Inv ids (System.setClerk
      { s with
        server := r.1
        trace := s.trace ++
          [{ call := (s.clerks c).call, before := s.server.data, after := r.1.data
             reply := r.2 }] } c
      ((s.clerks c).setReplied (some r.2))) L' := by
  have hcur := Clerk.current_of_ne_idle hpc
  have hcur' : ((s.clerks c).setReplied (some r.2)).current = some (s.clerks c).call := hcur
  refine h.update hids hcur hcur' hlin htable hL hok ?_ ?_
  · intro j input hinv hwrite heff
    by_cases hj : j = (s.clerks c).call
    · subst hj
      exact heffect input hinv hwrite heff
    · rcases heff with ⟨hnew, hfirst⟩ | ⟨r', hmem, honce⟩
      · refine Or.inl ⟨fun hmem => ?_, fun x hx => ?_⟩
        · obtain ⟨d, hd, hid⟩ := List.mem_map.mp hmem
          exact hnew (List.mem_map.mpr ⟨d, (hL d (hid ▸ hj)).mp hd, hid⟩)
        · rcases List.mem_append.mp hx with hx | hx
          · exact hfirst x hx
          · obtain rfl := List.mem_singleton.mp hx
            exact Ne.symm hj
      · exact Or.inr ⟨r', (hL _ hj).mpr hmem, honce.snoc fun heq => absurd heq.symm hj⟩
  · intro x hx
    rcases List.mem_append.mp hx with hx | hx
    · exact h.ran x hx
    · obtain rfl := List.mem_singleton.mp hx
      exact h.numbered.lt c _ hcur

/-- A read takes effect for now. -/
theorem handle_get (hids : Function.Injective ids) (h : Inv ids s L) {key : String}
    (hpc : (s.clerks c).pc = .get key) (hs : s.handle c = some s') : ∃ L', Inv ids s' L' := by
  obtain ⟨hreplied, r, hr, rfl⟩ := System.handle_cases hs
  have hck := h.clerks c
  unfold ClerkOk at hck
  rw [hpc] at hr hck
  obtain rfl := Option.some.inj hr
  obtain ⟨hinv, hnone, hnew⟩ := hck
  rw [hreplied] at hnew
  refine ⟨_, h.run hids (by rw [hpc]; nofun) (h.lin.point hinv hnew) (fun _ _ => rfl) ?_ ?_ ?_⟩
  · exact fun d hd => mem_concat_of_id_ne hd
  · unfold ClerkOk
    rw [Clerk.setReplied, hpc]
    exact ⟨hinv, hnone, by simp [kvSpec, Server.get]⟩
  · intro input hinv' hwrite
    rw [h.numbered.unique _ _ _ hinv' hinv] at hwrite
    cases hwrite

/-- A write takes effect if there is no record of it. -/
theorem handle_modify (hids : Function.Injective ids) (h : Inv ids s L) {op : Op}
    {args : PutAppendArgs} (hpc : (s.clerks c).pc = .modify op args)
    (hs : s.handle c = some s') : ∃ L', Inv ids s' L' := by
  obtain ⟨-, r, hr, rfl⟩ := System.handle_cases hs
  have hck := h.clerks c
  unfold ClerkOk at hck
  rw [hpc] at hr hck
  obtain ⟨hinv, htype, hid, hrecord⟩ := hck
  have hlive : (s.clerks c).pc ≠ .idle := by rw [hpc]; nofun
  cases ht : s.server.messageMap (ids (s.clerks c).call) with
  | none =>
      rw [ht] at hrecord
      obtain ⟨record, hanswer, hfirst⟩ : ∃ record, _ ∧ s.server.handle (.modify op args) = _ :=
        Server.handle_modify_new htype (hid.symm ▸ ht)
      obtain rfl := Option.some.inj (hr.symm.trans hfirst)
      have hpoint := h.lin.point hinv hrecord.1
      rw [← hanswer] at hpoint
      refine ⟨_, h.run hids hlive hpoint ?_ (fun d hd => mem_concat_of_id_ne hd) ?_ ?_⟩
      · exact fun i hi => Function.update_of_ne (hid ▸ hi) _ _
      · unfold ClerkOk
        rw [Clerk.setReplied, hpc]
        refine ⟨hinv, htype, hid, ?_⟩
        dsimp only
        rw [hid, Function.update_self]
        refine ⟨by simp, ?_⟩
        rintro _ ⟨⟩
        rfl
      · intro input hinv' _ heff
        obtain rfl := h.numbered.unique _ _ _ hinv' hinv
        exact heff.first hrecord.1 rfl (Prod.ext rfl hanswer.symm)
  | some record =>
      rw [ht] at hrecord
      obtain rfl := Option.some.inj
        (hr.symm.trans (Server.handle_modify_again htype (hid.symm ▸ ht)))
      refine ⟨L, h.run hids hlive h.lin (fun _ _ => rfl) (fun _ _ => Iff.rfl) ?_ ?_⟩
      · unfold ClerkOk
        rw [Clerk.setReplied, hpc]
        refine ⟨hinv, htype, hid, ?_⟩
        dsimp only
        rw [ht]
        refine ⟨hrecord.1, ?_⟩
        rintro _ ⟨⟩
        rfl
      · exact fun _ _ _ heff => heff.again (List.mem_map_of_mem hrecord.1) rfl

theorem handle_report (hids : Function.Injective ids) (h : Inv ids s L) {op : Op}
    {args : PutAppendArgs} {value : String} (hpc : (s.clerks c).pc = .report op args value)
    (hs : s.handle c = some s') : ∃ L', Inv ids s' L' := by
  obtain ⟨-, r, hr, rfl⟩ := System.handle_cases hs
  have hck := h.clerks c
  unfold ClerkOk at hck
  rw [hpc] at hr hck
  obtain ⟨hinv, htype, hid, hmem, -⟩ := hck
  obtain rfl := Option.some.inj (hr.symm.trans (Server.handle_report htype value))
  refine ⟨L, h.run hids (by rw [hpc]; nofun) h.lin ?_ (fun _ _ => Iff.rfl) ?_ ?_⟩
  · exact fun i hi => Function.update_of_ne (hid ▸ hi) _ _
  · unfold ClerkOk
    rw [Clerk.setReplied, hpc]
    exact ⟨hinv, htype, hid, hmem, fun _ => hid ▸ Function.update_self _ _ _⟩
  · exact fun _ _ _ heff => heff.again (List.mem_map_of_mem hmem) rfl

theorem handle (hids : Function.Injective ids) (h : Inv ids s L) (hs : s.handle c = some s') :
    ∃ L', Inv ids s' L' := by
  cases hpc : (s.clerks c).pc with
  | idle =>
      obtain ⟨-, r, hr, -⟩ := System.handle_cases hs
      rw [hpc] at hr
      cases hr
  | get key => exact h.handle_get hids hpc hs
  | modify op args => exact h.handle_modify hids hpc hs
  | report op args value => exact h.handle_report hids hpc hs

/-- A read whose reply is lost is taken back; a write stays where it is. -/
theorem fail (hids : Function.Injective ids) (h : Inv ids s L) (hs : s.fail c = some s') :
    ∃ L', Inv ids s' L' := by
  obtain ⟨hlive, rfl⟩ := System.fail_cases hs
  have hcur := Clerk.current_of_ne_idle hlive
  have hcur' : ((s.clerks c).setReplied none).current = some (s.clerks c).call := hcur
  have hck := h.clerks c
  unfold ClerkOk at hck
  cases hpc : (s.clerks c).pc with
  | idle => exact absurd hpc hlive
  | get key =>
      rw [hpc] at hck
      obtain ⟨hinv, hnone, -⟩ := hck
      have hread : ∀ d ∈ L, d.id = (s.clerks c).call → d.op = .get key := by
        intro d hd hid
        exact h.numbered.unique _ _ _ (hid ▸ h.lin.invoked d hd) hinv
      refine ⟨L.filter fun d => d.id ≠ (s.clerks c).call,
        h.update hids hcur hcur' (h.lin.cancel (fun d hd hid z => ?_) (h.numbered.pending c _ hcur))
          (fun _ _ => rfl) (fun d hd => ?_) ?_ ?_ h.ran⟩
      · rw [hread d hd hid]
        rfl
      · rw [List.mem_filter]
        exact and_iff_left (by simpa using hd)
      · unfold ClerkOk
        rw [Clerk.setReplied, hpc]
        exact ⟨hinv, hnone, by simp⟩
      · intro j input hinv' hwrite heff
        have hj : j ≠ (s.clerks c).call := by
          rintro rfl
          rw [h.numbered.unique _ _ _ hinv' hinv] at hwrite
          cases hwrite
        rcases heff with ⟨hnew, hfirst⟩ | ⟨r, hmem, honce⟩
        · refine Or.inl ⟨fun hmem => hnew ?_, hfirst⟩
          obtain ⟨d, hd, hid⟩ := List.mem_map.mp hmem
          exact List.mem_map.mpr ⟨d, List.mem_of_mem_filter hd, hid⟩
        · exact Or.inr ⟨r, List.mem_filter.mpr ⟨hmem, by simpa using hj⟩, honce⟩
  | modify op args =>
      rw [hpc] at hck
      obtain ⟨hinv, htype, hid, hrecord⟩ := hck
      refine ⟨L, h.update hids hcur hcur' h.lin (fun _ _ => rfl) (fun _ _ => Iff.rfl) ?_
        (fun _ _ _ _ => id) h.ran⟩
      unfold ClerkOk
      rw [Clerk.setReplied, hpc]
      refine ⟨hinv, htype, hid, ?_⟩
      dsimp only
      cases ht : s.server.messageMap (ids (s.clerks c).call) with
      | none =>
          rw [ht] at hrecord
          exact ⟨hrecord.1, rfl⟩
      | some record =>
          rw [ht] at hrecord
          exact ⟨hrecord.1, by simp⟩
  | report op args value =>
      rw [hpc] at hck
      obtain ⟨hinv, htype, hid, hmem, -⟩ := hck
      refine ⟨L, h.update hids hcur hcur' h.lin (fun _ _ => rfl) (fun _ _ => Iff.rfl) ?_
        (fun _ _ _ _ => id) h.ran⟩
      unfold ClerkOk
      rw [Clerk.setReplied, hpc]
      exact ⟨hinv, htype, hid, hmem, by simp⟩

theorem succeed (hids : Function.Injective ids) (h : Inv ids s L) (hs : s.succeed c = some s') :
    Inv ids s' L := by
  obtain ⟨reply, hreplied, hcases⟩ := System.succeed_cases hs
  have hck := h.clerks c
  unfold ClerkOk at hck
  rcases hcases with ⟨key, hpc, rfl⟩ | ⟨op, args, hpc, rfl⟩ | ⟨op, args, value, hpc, rfl⟩
  · rw [hpc, hreplied] at hck
    exact h.ret (by rw [hpc]; nofun) hck.2.2 hck.2.1
  · rw [hpc] at hck
    obtain ⟨hinv, htype, hid, hrecord⟩ := hck
    have hcur : (s.clerks c).current = some (s.clerks c).call :=
      Clerk.current_of_ne_idle (by rw [hpc]; nofun)
    refine h.update hids hcur rfl h.lin (fun _ _ => rfl) (fun _ _ => Iff.rfl) ?_
      (fun _ _ _ _ => id) h.ran
    -- the handler has run, so there is a record, and the reply agrees with it
    cases ht : s.server.messageMap (ids (s.clerks c).call) with
    | none =>
        rw [ht, hreplied] at hrecord
        cases hrecord.2
    | some record =>
        rw [ht] at hrecord
        have hreply : reply = op.answer record := hrecord.2 reply hreplied
        refine ⟨hinv, rfl, hid, ?_, by simp⟩
        rw [hreply]
        exact hrecord.1
  · rw [hpc] at hck
    obtain ⟨-, -, -, hmem, hnone⟩ := hck
    exact h.ret (by rw [hpc]; nofun) hmem (hnone (by rw [hreplied]; nofun))

theorem init (ids : ℕ → ℕ) : Inv ids ({} : System m) [] where
  lin := .nil kvSpec
  numbered := ⟨nofun, nofun, nofun, nofun, nofun⟩
  clerks _ := trivial
  table := nofun
  effects := nofun
  ran := nofun

theorem step (hids : Function.Injective ids) (h : Inv ids s L) {a : System.Act m}
    (hs : s.step ids a = some s') : ∃ L', Inv ids s' L' := by
  cases a with
  | invoke c input => exact ⟨L, h.invoke hs⟩
  | handle c => exact h.handle hids hs
  | fail c => exact h.fail hids hs
  | succeed c => exact ⟨L, h.succeed hids hs⟩

theorem exec (hids : Function.Injective ids) {acts : List (System.Act m)}
    (h : exec (System.step ids) {} acts = some s) : ∃ L, Inv ids s L := by
  refine exec_preserves (I := fun s => ∃ L, Inv ids s L) ?_ ⟨[], init ids⟩ h
  rintro s a s' ⟨L, hL⟩ hs
  exact hL.step hids hs

end Inv

/-- The history of the calls is linearizable. A `Put` or `Append` takes effect at
most once, and one that has returned has taken effect exactly once, with the
answer of the first run of its handler. -/
theorem calls_linearizable (hids : Function.Injective ids) {acts : List (System.Act m)}
    (h : exec (System.step ids) {} acts = some s) :
    Linearizable kvSpec s.history ∧
      (∀ k input, .inv k input ∈ s.history → input.isWrite = true →
        (∀ x ∈ s.trace, x.call ≠ k) ∨ ∃ r, TakesEffectOnce s.trace k input r) ∧
      ∀ k input r, .inv k input ∈ s.history → input.isWrite = true →
        .ret k r ∈ s.history → TakesEffectOnce s.trace k input r := by
  obtain ⟨L, hinv⟩ := Inv.exec hids h
  refine ⟨hinv.lin.linearizable, fun k input hmem hwrite => ?_,
    fun k input r hmem hwrite hret => ?_⟩
  · rcases hinv.effects k input hmem hwrite with ⟨-, hnone⟩ | ⟨r, -, honce⟩
    · exact Or.inl hnone
    · exact Or.inr ⟨r, honce⟩
  · obtain ⟨d, hd, rfl, rfl⟩ := hinv.lin.complete k r hret
    rcases hinv.effects d.id input hmem hwrite with ⟨hnew, -⟩ | ⟨r, hd', honce⟩
    · exact absurd (List.mem_map_of_mem hd) hnew
    · rw [hinv.lin.eq_of_id hd hd' rfl]
      exact honce

end

/-- The first of two clerks. -/
def first : Fin 2 := ⟨0, Nat.zero_lt_two⟩

/-- The second of two clerks. -/
def second : Fin 2 := ⟨1, Nat.one_lt_two⟩

/-- The reply to an `Append` is lost, and a `Put` comes in between before it is
repeated. -/
def lostReply : List (System.Act 2) :=
  [.invoke first (.append "k" "a"), .handle first, .fail first,
    .invoke second (.put "k" "b"), .handle second, .succeed second, .handle second,
    .succeed second,
    .handle first, .succeed first, .handle first, .succeed first]

theorem calls_linearizable_lostReply :
    ∃ s : System 2, exec (System.step id) {} lostReply = some s ∧
      s.server.data "k" = "b" ∧ Linearizable kvSpec s.history ∧
      TakesEffectOnce s.trace 0 (.append "k" "a") "" := by
  have hrun := calls_linearizable Function.injective_id
    (show exec (System.step id) {} lostReply = some _ from rfl)
  exact ⟨_, rfl, by decide, hrun.1,
    hrun.2.2 0 (.append "k" "a") "" (List.mem_of_getElem? (i := 0) rfl) rfl
      (List.mem_of_getElem? (i := 3) rfl)⟩

end KvSrv

end DistributedLabs
