import DistributedLabs.KvRaft.Refinement
import DistributedLabs.Logic.Run

/-!
# The service is linearizable

A run of the system is followed in a service that is served from a shared log: a
call of a clerk is an invocation, an operation that enters the log of Raft enters
the log of the service, and what a clerk returns was justified by its handler. The
history of a service is linearizable, and it is the history of the system.
-/

namespace DistributedLabs

namespace KvRaft

open SharedLog

/-- The handlers stay, with the requests they serve. -/
def Server.Keeps (kv kv' : Server) : Prop :=
  ∀ (j : ℕ) (hd : Handler), kv.handlers[j]? = some hd →
    ∃ hd' : Handler, kv'.handlers[j]? = some hd' ∧ hd'.op = hd.op

namespace Server

variable {kv kv' : Server}

theorem Keeps.of_eq (h : kv'.handlers = kv.handlers) : Keeps kv kv' :=
  fun _ hd hj => ⟨hd, h ▸ hj, rfl⟩

theorem setPc_keeps (hkv : kv'.handlers = kv.handlers) {h : ℕ} {hd : Handler}
    (hhd : kv.handlers[h]? = some hd) (pc : HandlerPc) : Keeps kv (kv'.setPc h hd pc) := by
  intro j hd' hj
  by_cases hjh : h = j
  · subst hjh
    obtain rfl := Option.some.inj (hhd.symm.trans hj)
    exact ⟨_, setPc_self (hkv ▸ hhd) pc, rfl⟩
  · exact ⟨hd', (setPc_of_ne hjh hd pc).trans (hkv ▸ hj), rfl⟩

theorem arrive_keeps (kv : Server) (op : Op) : Keeps kv (kv.arrive op) :=
  fun _ hd hj => ⟨hd, getElem?_of_isPrefix (List.prefix_append _ _) hj, rfl⟩

theorem step_keeps {a : Act} (hs : kv.step a = some kv') : Keeps kv kv' := by
  cases a with
  | arrive op =>
      obtain rfl := Option.some.inj hs
      exact arrive_keeps kv op
  | check h =>
      obtain ⟨hd, hhd, -, -, ⟨seq, -, -, rfl⟩ | rfl⟩ := check_cases hs
      · exact setPc_keeps rfl hhd _
      · exact setPc_keeps rfl hhd _
  | start h index =>
      obtain ⟨hd, hhd, -, ⟨-, rfl⟩ | ⟨i, -, rfl⟩⟩ := start_cases hs
      · exact setPc_keeps rfl hhd _
      · exact setPc_keeps rfl hhd _
  | register h =>
      obtain ⟨hd, i, hhd, -, -, rfl⟩ := register_cases hs
      exact setPc_keeps rfl hhd _
  | timeout h =>
      obtain ⟨hd, i, hhd, -, rfl⟩ := timeout_cases hs
      exact setPc_keeps rfl hhd _
  | read h =>
      obtain ⟨hd, i, hhd, -, -, rfl⟩ := read_cases hs
      exact setPc_keeps rfl hhd _
  | clean h =>
      obtain ⟨hd, i, reply, hhd, -, -, rfl⟩ := clean_cases hs
      exact setPc_keeps rfl hhd _
  | recv msg =>
      obtain ⟨-, rfl | rfl⟩ := recv_cases hs
      · exact Keeps.of_eq rfl
      · exact Keeps.of_eq rfl
  | applyMsg =>
      obtain ⟨msg, -, ⟨op, i, -, -, rfl⟩ | ⟨op, i, -, -, rfl⟩ | ⟨i, -, rfl⟩ |
        ⟨status, i, -, rfl⟩⟩ := applyMsg_cases hs
      · exact Keeps.of_eq rfl
      · exact Keeps.of_eq rfl
      · exact Keeps.of_eq rfl
      · exact Keeps.of_eq rfl
  | lookup =>
      obtain ⟨op, i, -, ⟨h, -, rfl⟩ | ⟨-, rfl⟩⟩ := lookup_cases hs
      · exact Keeps.of_eq rfl
      · exact Keeps.of_eq rfl
  | send =>
      obtain ⟨op, i, h, hd, j, -, hhd, -, rfl⟩ := send_cases hs
      exact setPc_keeps rfl hhd _
  | finish full =>
      obtain ⟨i, -, rfl⟩ := finish_cases hs
      exact Keeps.of_eq rfl
  | kill =>
      obtain rfl := Option.some.inj hs
      exact Keeps.of_eq rfl

end Server

/-! ## The relation -/

variable {n m : ℕ}

/-- A call that a clerk works on is one that its client waits for in the
service. -/
structure CallOk (g : KvService) (requests : List (Request n)) (id : ℕ) (cl : ClerkCall) :
    Prop where
  waits : g.Waits id cl.op.sequenceId cl.input
  op : cl.op = cl.input.op id cl.op.sequenceId
  rpc : ∀ k, cl.rpc = some k → ∃ r, requests[k]? = some r ∧ r.op = cl.op

structure ClerkOk (g : KvService) (requests : List (Request n)) (id : ℕ) (ck : Clerk) :
    Prop where
  clientId : ck.clientId = id
  next : g.next id = ck.sequenceId
  idle : ck.call = none → g.busy id = false
  call : ∀ cl, ck.call = some cl → CallOk g requests id cl

/-- A request was invoked, and its handler serves it. -/
structure RequestOk (g : KvService) (servers : Fin n → Server) (r : Request n) : Prop where
  invoked : Invoked g r.op
  handler : ∀ h, r.handler = some h →
    ∃ hd, (servers r.server).handlers[h]? = some hd ∧ hd.op = r.op

/-- The system is in a state that the service shows. -/
structure Refines (ids : Fin m → ℕ) (s : System n m) (g : KvService) : Prop where
  inv : g.Inv kvSpec isRead
  log : g.log = s.log.map Op.entry
  history : g.history = s.history
  clerks : ∀ c, ClerkOk g s.requests (ids c) (s.clerks c)
  requests : ∀ r ∈ s.requests, RequestOk g s.servers r
  started : ∀ x ∈ s.started, Invoked g x.1
  servers : ∀ i, ServerRel g (s.received i) (s.servers i)

theorem refines_init (n : ℕ) (ids : Fin m → ℕ) :
    Refines ids (System.init n ids) (Service.init ℕ Input String) where
  inv := Service.inv_init
  log := rfl
  history := rfl
  clerks c := ⟨rfl, rfl, fun _ => rfl, fun _ hcl => nomatch hcl⟩
  requests := by rintro r (_ | _)
  started := by rintro x (_ | _)
  servers _ := serverRel_init

section

variable {g g' : KvService} {requests requests' : List (Request n)} {id : ℕ} {ck : Clerk}
  {cl : ClerkCall}

theorem CallOk.invoked (h : CallOk g requests id cl) : Invoked g cl.op := by
  have hinv := h.waits.invoked
  rw [Invoked, h.op]
  rw [Input.op_id, Input.op_input]
  exact hinv

/-- What another client does leaves a clerk alone. -/
theorem ClerkOk.mono (h : ClerkOk g requests id ck) (hnext : g'.next id = g.next id)
    (hbusy : g'.busy id = g.busy id) (hle : g ≤ g') : ClerkOk g' requests id ck where
  clientId := h.clientId
  next := hnext.trans h.next
  idle hidle := hbusy.trans (h.idle hidle)
  call cl hcl := by
    have hok := h.call cl hcl
    exact
      { hok with
        waits := ⟨hbusy.trans hok.waits.busy, hok.waits.last.trans hnext.symm,
          hle.2.subset hok.waits.invoked⟩ }

/-- The requests keep their operations. -/
theorem ClerkOk.of_requests (h : ClerkOk g requests id ck)
    (hreq : ∀ (k : ℕ) (r : Request n), requests[k]? = some r →
      ∃ r' : Request n, requests'[k]? = some r' ∧ r'.op = r.op) :
    ClerkOk g requests' id ck where
  clientId := h.clientId
  next := h.next
  idle := h.idle
  call cl hcl := by
    have hok := h.call cl hcl
    refine { hok with rpc := ?_ }
    intro k hk
    obtain ⟨r, hr, hop⟩ := hok.rpc k hk
    obtain ⟨r', hr', hop'⟩ := hreq k r hr
    exact ⟨r', hr', hop'.trans hop⟩

theorem RequestOk.mono {servers : Fin n → Server} {r : Request n} (h : RequestOk g servers r)
    (hle : g ≤ g') : RequestOk g' servers r :=
  ⟨h.invoked.mono hle, h.handler⟩

end

/-! ## The steps of the system -/

namespace Refines

variable {ids : Fin m → ℕ} {s s' : System n m} {g g' : KvService}

/-- A clerk is replaced, in a state of the service that is no older. -/
theorem setClerk (h : Refines ids s g) {c : Fin m} {ck : Clerk}
    (hck : ClerkOk g s.requests (ids c) ck) : Refines ids (s.setClerk c ck) g where
  inv := h.inv
  log := h.log
  history := h.history
  clerks c' := by
    by_cases hc : c' = c
    · subst hc
      rw [System.setClerk_self]
      exact hck
    · rw [System.setClerk_of_ne s hc]
      exact h.clerks c'
  requests := h.requests
  started := h.started
  servers := h.servers

/-- A server is replaced by one that serves the same requests. -/
theorem setServer (h : Refines ids s g) {i : Fin n} {kv : Server} {received : ℕ}
    (hkv : ServerRel g received kv) (hkeeps : Server.Keeps (s.servers i) kv) :
    Refines ids
      (System.setServer { s with received := Function.update s.received i received } i kv) g where
  inv := h.inv
  log := h.log
  history := h.history
  clerks := h.clerks
  requests r hr := by
    have hok := h.requests r hr
    refine ⟨hok.invoked, fun j hj => ?_⟩
    obtain ⟨hd, hhd, hop⟩ := hok.handler j hj
    by_cases hi : r.server = i
    · subst hi
      rw [System.setServer_self]
      obtain ⟨hd', hhd', hop'⟩ := hkeeps j hd hhd
      exact ⟨hd', hhd', hop'.trans hop⟩
    · rw [System.setServer_of_ne _ hi]
      exact ⟨hd, hhd, hop⟩
  started := h.started
  servers j := by
    by_cases hj : j = i
    · subst hj
      rw [System.setServer_self]
      change ServerRel g (Function.update s.received j received j) kv
      rw [Function.update_self]
      exact hkv
    · rw [System.setServer_of_ne _ hj]
      change ServerRel g (Function.update s.received i received j) (s.servers j)
      rw [Function.update_of_ne hj]
      exact h.servers j

theorem setServer_of_received (h : Refines ids s g) {i : Fin n} {kv : Server}
    (hkv : ServerRel g (s.received i) kv) (hkeeps : Server.Keeps (s.servers i) kv) :
    Refines ids (s.setServer i kv) g := by
  have h' := h.setServer hkv hkeeps
  rwa [Function.update_eq_self] at h'

theorem nextServer (h : Refines ids s g) {c : Fin m} {cl : ClerkCall}
    (hcl : (s.clerks c).call = some cl) :
    Refines ids (s.setClerk c (System.nextServer n (s.clerks c) cl)) g := by
  have hck := h.clerks c
  have hok := hck.call cl hcl
  refine h.setClerk ⟨hck.clientId, hck.next, fun he => (nomatch he), ?_⟩
  rintro cl' ⟨⟩
  exact ⟨hok.waits, hok.op, fun k hk => nomatch hk⟩

/-- A clerk and the history of the system move as the service does. -/
theorem record (hids : Function.Injective ids) (h : Refines ids s g) {c : Fin m} {ck : Clerk}
    {ev : Event (ℕ × ℕ) Input String} (hstep : Service.Step kvSpec isRead g g')
    (hlog : g'.log = g.log) (hhistory : g'.history = g.history ++ [ev])
    (hnext : ∀ id, id ≠ ids c → g'.next id = g.next id)
    (hbusy : ∀ id, id ≠ ids c → g'.busy id = g.busy id)
    (hck : ClerkOk g' s.requests (ids c) ck) :
    Refines ids (System.setClerk { s with history := s.history ++ [ev] } c ck) g' where
  inv := h.inv.step hstep
  log := hlog.trans h.log
  history := hhistory.trans (h.history ▸ rfl)
  clerks c' := by
    by_cases hc : c' = c
    · subst hc
      rw [System.setClerk_self]
      exact hck
    · rw [System.setClerk_of_ne _ hc]
      have hne : ids c' ≠ ids c := fun he => hc (hids he)
      exact (h.clerks c').mono (hnext _ hne) (hbusy _ hne) hstep.le
  requests r hr := (h.requests r hr).mono hstep.le
  started x hx := (h.started x hx).mono hstep.le
  servers i := (h.servers i).mono hstep.le

theorem invoke (hids : Function.Injective ids) (h : Refines ids s g) {c : Fin m} {input : Input}
    (hs : s.invoke c input = some s') : ∃ g', Refines ids s' g' := by
  obtain ⟨hidle, rfl⟩ := System.invoke_cases hs
  have hck := h.clerks c
  have hstep : Service.Step kvSpec isRead g (g.invoke (ids c) input) :=
    .invoke g (ids c) input (hck.idle hidle)
  refine ⟨g.invoke (ids c) input, ?_⟩
  rw [hck.clientId, ← hck.next]
  refine h.record hids hstep rfl rfl (fun _ hne => Service.invoke_next_of_ne g hne input)
    (fun _ hne => Service.invoke_busy_of_ne g hne input) ?_
  refine ⟨hck.clientId, Service.invoke_next_self g (ids c) input, fun he => (nomatch he), ?_⟩
  rintro cl ⟨⟩
  have hseq : (input.op (ids c) (g.next (ids c))).sequenceId = g.next (ids c) :=
    congrArg Prod.snd (Input.op_id input (ids c) (g.next (ids c)))
  refine ⟨⟨Service.invoke_busy_self g (ids c) input, ?_, ?_⟩, ?_, fun k hk => nomatch hk⟩
  · rw [Service.invoke_next_self, hseq]
  · rw [hseq]
    exact Service.mem_invoke_inv.mpr (Or.inr ⟨rfl, rfl⟩)
  · rw [hseq]

theorem call (h : Refines ids s g) {c : Fin m} (hs : s.call c = some s') :
    Refines ids s' g := by
  obtain ⟨cl, hlt, hcl, rfl⟩ := System.call_cases hs
  have hck := h.clerks c
  have hok := hck.call cl hcl
  have hgrown : Refines ids
      { s with requests := s.requests ++ [{ op := cl.op, server := ⟨cl.server, hlt⟩ }] } g :=
    { h with
      clerks := fun c' => (h.clerks c').of_requests fun k r hr =>
        ⟨r, getElem?_of_isPrefix (List.prefix_append _ _) hr, rfl⟩
      requests := by
        intro r hr
        rcases List.mem_append.mp hr with hr | hr
        · exact h.requests r hr
        · obtain rfl := List.mem_singleton.mp hr
          exact ⟨hok.invoked, fun j hj => nomatch hj⟩ }
  refine hgrown.setClerk ⟨hck.clientId, hck.next, fun he => (nomatch he), ?_⟩
  rintro cl' ⟨⟩
  refine ⟨hok.waits, hok.op, ?_⟩
  rintro k ⟨⟩
  exact ⟨_, List.getElem?_concat_length, rfl⟩

/-- What a clerk returns is justified by the log of the service. -/
theorem ret (hids : Function.Injective ids) (h : Refines ids s g) {c : Fin m}
    (hs : s.ret c = some s') : ∃ g', Refines ids s' g' := by
  obtain ⟨cl, k, r, j, hd, reply, hcl, hk, hr, hj, hhd, hpc, ⟨hleader, rfl⟩ | rfl⟩ :=
    System.ret_cases hs
  · have hck := h.clerks c
    have hok := hck.call cl hcl
    -- the handler serves the request that the clerk waits for
    obtain ⟨r', hr', hop⟩ := hok.rpc k hk
    obtain rfl := Option.some.inj (hr.symm.trans hr')
    obtain ⟨hd', hhd', hop'⟩ := (h.requests r (List.mem_of_getElem? hr)).handler j hj
    obtain rfl := Option.some.inj (hhd.symm.trans hhd')
    have hanswered : Answered g cl.op reply := by
      have hpcOk : Answered g hd.op reply := (h.servers r.server).handlerOk hhd hpc
      rwa [hop', hop] at hpcOk
    have hid : cl.op.entry.id = (ids c, cl.op.sequenceId) := by
      rw [hok.op, Input.op_id, ← hok.op]
    have hinput : cl.op.input = cl.input := by rw [hok.op, Input.op_input]
    have hjust := hanswered hleader
    rw [hid, hinput] at hjust
    have hdone : ∀ reads, ClerkOk (g.respond (ids c) cl.op.sequenceId
        (System.answer cl.input reply) reads) s.requests (ids c)
        { s.clerks c with leader := cl.server, call := none } := fun reads =>
      ⟨hck.clientId, hck.next, fun _ => Service.respond_busy_self, fun _ he => nomatch he⟩
    rw [hck.clientId]
    split at hjust
    · rename_i htype
      obtain ⟨p, hp, hlogged, hvalue⟩ := hjust
      have hread : isRead cl.input = true := hinput ▸ (Op.isRead_input cl.op).mpr htype
      have hvalue' : (kvSpec.step (replay kvSpec (g.log.take p)).state cl.input).2 =
          System.answer cl.input reply := by
        rw [hvalue]
        cases hcase : cl.input with
        | get key => rfl
        | put key value => rw [hcase] at hread; cases hread
        | append key value => rw [hcase] at hread; cases hread
      have hstep := Service.Step.read g (ids c) cl.op.sequenceId cl.input _ p hok.waits hread
        hvalue' hp hlogged
      exact ⟨_, h.record hids hstep rfl rfl (fun _ _ => rfl)
        (fun _ hne => Service.respond_busy_of_ne hne) (hdone _)⟩
    · rename_i htype
      have hread : isRead cl.input = false := by
        rw [← Bool.not_eq_true, ← hinput, Op.isRead_input]
        exact htype
      have hvalue : ∀ x, (kvSpec.step x cl.input).2 = System.answer cl.input reply := by
        intro x
        rw [kvSpec_write x hread]
        cases hcase : cl.input with
        | get key => rw [hcase] at hread; cases hread
        | put key value => rfl
        | append key value => rfl
      have hstep := Service.Step.answer g (ids c) cl.op.sequenceId cl.input _ hok.waits hread
        hvalue hjust
      exact ⟨_, h.record hids hstep rfl rfl (fun _ _ => rfl)
        (fun _ hne => Service.respond_busy_of_ne hne) (hdone _)⟩
  · exact ⟨g, h.nextServer hcl⟩

theorem deliver (h : Refines ids s g) {k : ℕ} (hs : s.deliver k = some s') :
    Refines ids s' g := by
  obtain ⟨r, hr, rfl⟩ := System.deliver_cases hs
  have hok := h.requests r (List.mem_of_getElem? hr)
  have hserved := h.setServer_of_received (i := r.server)
    ((h.servers r.server).arrive hok.invoked) (Server.arrive_keeps _ r.op)
  exact
    { hserved with
      clerks := fun c => (h.clerks c).of_requests fun k' r' hr' => by
        by_cases hkk : k = k'
        · subst hkk
          obtain rfl := Option.some.inj (hr.symm.trans hr')
          exact ⟨_, List.getElem?_set_self (List.getElem?_eq_some_iff.mp hr).1, rfl⟩
        · exact ⟨r', (List.getElem?_set_ne hkk).trans hr', rfl⟩
      requests := by
        refine forall_mem_set hserved.requests ⟨hok.invoked, ?_⟩
        rintro j ⟨⟩
        refine ⟨{ op := r.op, pc := if r.op.type = .get then .starting else .checking }, ?_, rfl⟩
        change ((s.setServer r.server _).servers r.server).handlers[_]? = _
        rw [System.setServer_self]
        exact List.getElem?_concat_length }

theorem start (h : Refines ids s g) {i : Fin n} {j : ℕ} {index : Option ℕ}
    (hs : s.start i j index = some s') : Refines ids s' g := by
  obtain ⟨hd, kv, started, hhd, hkv, hstarted, rfl⟩ := System.start_cases hs
  have hmore : Refines ids { s with started := started } g :=
    { h with
      started := by
        intro x hx
        rcases hstarted with rfl | rfl
        · exact h.started x hx
        · rcases List.mem_append.mp hx with hx | hx
          · exact h.started x hx
          · obtain rfl := List.mem_singleton.mp hx
            exact ((h.servers i).handlers hd (List.mem_of_getElem? hhd)).invoked }
  exact hmore.setServer_of_received ((h.servers i).start hkv)
    (Server.step_keeps (a := .start j index) hkv)

theorem commit (h : Refines ids s g) {k : ℕ} (hs : s.commit k = some s') :
    ∃ g', Refines ids s' g' := by
  obtain ⟨op, hop, rfl⟩ := System.commit_cases hs
  have hinv : Invoked g op := h.started _ (List.mem_of_getElem? hop)
  have hstep : Service.Step kvSpec isRead g { g with log := g.log ++ [op.entry] } :=
    .commit g op.entry hinv
  have hle := hstep.le
  refine ⟨{ g with log := g.log ++ [op.entry] }, ?_⟩
  exact
    { inv := h.inv.step hstep
      log := by simp [h.log]
      history := h.history
      clerks := fun c => (h.clerks c).mono rfl rfl hle
      requests := fun r hr => (h.requests r hr).mono hle
      started := forall_mem_set (fun x hx => (h.started x hx).mono hle) (hinv.mono hle)
      servers := fun i => (h.servers i).mono hle }

theorem recv (h : Refines ids s g) {i : Fin n} (hs : s.recv i = some s') :
    Refines ids s' g := by
  obtain ⟨op, kv, hop, hkv, rfl⟩ := System.recv_cases hs
  have hentry : g.log[s.received i]? = some op.entry := by
    rw [h.log, List.getElem?_map, hop]
    rfl
  exact h.setServer ((h.servers i).recv hentry hkv)
    (Server.step_keeps (a := .recv (.command op (s.received i + 1))) hkv)

/-- Every step of the system is followed by the service. -/
theorem step (hids : Function.Injective ids) (h : Refines ids s g) {a : System.Act n m}
    (hs : s.step a = some s') : ∃ g', Refines ids s' g' := by
  cases a with
  | invoke c input => exact h.invoke hids hs
  | call c => exact ⟨g, h.call hs⟩
  | fail c =>
      obtain ⟨cl, hcl, rfl⟩ := System.fail_cases hs
      exact ⟨g, h.nextServer hcl⟩
  | ret c => exact h.ret hids hs
  | deliver k => exact ⟨g, h.deliver hs⟩
  | start i j index => exact ⟨g, h.start hs⟩
  | commit k => exact h.commit hs
  | recv i => exact ⟨g, h.recv hs⟩
  | own i a =>
      obtain ⟨kv, hown, hkv, rfl⟩ := System.own_cases hs
      exact ⟨g, h.setServer_of_received ((h.servers i).step h.inv hown hkv)
        (Server.step_keeps hkv)⟩

end Refines

/-- Whatever the servers, the clerks, the network and Raft do, what the callers of
the clerks see is linearizable with respect to a map from keys to strings, if the
clerks have different ids. -/
theorem clerks_linearizable {ids : Fin m → ℕ} (hids : Function.Injective ids)
    {acts : List (System.Act n m)} {s : System n m}
    (h : exec System.step (System.init n ids) acts = some s) :
    Linearizable kvSpec s.history := by
  have hstep : ∀ (s : System n m) a s', (∃ g, Refines ids s g) → s.step a = some s' →
      ∃ g, Refines ids s' g := by
    rintro s a s' ⟨g, hg⟩ hs
    exact hg.step hids hs
  obtain ⟨g, hg⟩ := exec_preserves hstep ⟨_, refines_init n ids⟩ h
  rw [← hg.history]
  exact hg.inv.linearizable kvSpec_read

/-- A clerk puts a value, and then another clerk gets it. -/
def putThenGet : List (System.Act 1 2) :=
  [.invoke 0 (.put "x" "1"), .call 0, .deliver 0, .own 0 (.check 0), .start 0 0 (some 1),
    .own 0 (.register 0), .commit 0, .recv 0, .own 0 .applyMsg, .own 0 .lookup, .own 0 .send,
    .own 0 (.finish false), .own 0 (.clean 0), .ret 0,
    .invoke 1 (.get "x"), .call 1, .deliver 1, .start 0 1 (some 2), .own 0 (.register 1),
    .commit 1, .recv 0, .own 0 .applyMsg, .own 0 .lookup, .own 0 .send, .own 0 (.finish false),
    .own 0 (.read 1), .own 0 (.clean 1), .ret 1]

theorem clerks_linearizable_putThenGet :
    ∃ s, exec System.step (System.init 1 Fin.val) putThenGet = some s ∧
      s.history = [.inv (0, 0) (.put "x" "1"), .ret (0, 0) "", .inv (1, 0) (.get "x"),
        .ret (1, 0) "1"] ∧
      Linearizable kvSpec s.history :=
  ⟨_, rfl, rfl, clerks_linearizable (fun _ _ he => Fin.ext he)
    (show exec System.step (System.init 1 Fin.val) putThenGet = _ from rfl)⟩

end KvRaft

end DistributedLabs
