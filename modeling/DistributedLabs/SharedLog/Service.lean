import DistributedLabs.SharedLog.DupTable

/-!
# Calls served from a shared log

Clients make one call at a time. An operation that has been invoked may enter a
shared log, any number of times. A call whose answer does not depend on the state
may return once its operation is in the log. A call that only reads may return the
answer of the replica at any place of the log behind its operation.

A service remembers for each call how long the log was at its invocation and at
its response, and for each read the place it was answered at. These lengths order
the calls as real time does, so the history is linearizable.
-/

namespace DistributedLabs

namespace SharedLog

variable {σ Client Input Ret : Type*} [DecidableEq Client]

/-- The state of a service: the log, the history of the calls, the next number
and the status of each client, and the lengths of the log to be remembered. -/
structure Service (Client Input Ret : Type*) where
  log : List (Entry Client Input)
  history : List (Event (Client × ℕ) Input Ret)
  next : Client → ℕ
  busy : Client → Bool
  invAt : Client × ℕ → ℕ
  retAt : Client × ℕ → ℕ
  reads : List (Call (Client × ℕ) Input Ret × ℕ)

namespace Service

variable {g g' : Service Client Input Ret} {spec : SeqSpec σ Input Ret} {isRead : Input → Bool}

def init (Client Input Ret : Type*) : Service Client Input Ret :=
  { log := [], history := [], next := fun _ => 0, busy := fun _ => false,
    invAt := fun _ => 0, retAt := fun _ => 0, reads := [] }

/-- The log holds an entry of the call below place `p`. -/
def LoggedBefore (g : Service Client Input Ret) (id : Client × ℕ) (p : ℕ) : Prop :=
  ∃ q e, q < p ∧ g.log[q]? = some e ∧ e.id = id

/-- The client `c` waits for the answer to its call number `k`. -/
structure Waits (g : Service Client Input Ret) (c : Client) (k : ℕ) (input : Input) : Prop where
  busy : g.busy c = true
  last : k + 1 = g.next c
  invoked : .inv (c, k) input ∈ g.history

/-- The state after the next invocation of a client. -/
def invoke (g : Service Client Input Ret) (c : Client) (input : Input) :
    Service Client Input Ret :=
  { g with
    history := g.history ++ [.inv (c, g.next c) input]
    next := Function.update g.next c (g.next c + 1)
    busy := Function.update g.busy c true
    invAt := Function.update g.invAt (c, g.next c) g.log.length }

/-- The state after a response, with the reads answered so far. -/
def respond (g : Service Client Input Ret) (c : Client) (k : ℕ) (r : Ret)
    (reads : List (Call (Client × ℕ) Input Ret × ℕ)) : Service Client Input Ret :=
  { g with
    history := g.history ++ [.ret (c, k) r]
    busy := Function.update g.busy c false
    retAt := Function.update g.retAt (c, k) g.log.length
    reads := reads }

/-- What can happen in a service. -/
inductive Step (spec : SeqSpec σ Input Ret) (isRead : Input → Bool) :
    Service Client Input Ret → Service Client Input Ret → Prop
  /-- A client that waits for nothing invokes its next call. -/
  | invoke (g : Service Client Input Ret) (c : Client) (input : Input)
      (hbusy : g.busy c = false) :
      Step spec isRead g (g.invoke c input)
  /-- An operation that has been invoked enters the log. -/
  | commit (g : Service Client Input Ret) (e : Entry Client Input)
      (hinv : .inv e.id e.input ∈ g.history) :
      Step spec isRead g { g with log := g.log ++ [e] }
  /-- A call returns an answer that does not depend on the state. -/
  | answer (g : Service Client Input Ret) (c : Client) (k : ℕ) (input : Input) (r : Ret)
      (hwaits : g.Waits c k input) (hread : isRead input = false)
      (hr : ∀ x, (spec.step x input).2 = r) (hlogged : g.LoggedBefore (c, k) g.log.length) :
      Step spec isRead g (g.respond c k r g.reads)
  /-- A read returns the answer of the replica at place `p`. -/
  | read (g : Service Client Input Ret) (c : Client) (k : ℕ) (input : Input) (r : Ret) (p : ℕ)
      (hwaits : g.Waits c k input) (hread : isRead input = true)
      (hr : (spec.step (replay spec (g.log.take p)).state input).2 = r)
      (hp : p ≤ g.log.length) (hlogged : g.LoggedBefore (c, k) p) :
      Step spec isRead g
        (g.respond c k r (({ id := (c, k), op := input, ret := r }, p) :: g.reads))

/-- A service only grows. -/
instance : Preorder (Service Client Input Ret) where
  le g g' := g.log <+: g'.log ∧ g.history <+: g'.history
  le_refl g := ⟨List.prefix_rfl, List.prefix_rfl⟩
  le_trans _ _ _ h h' := ⟨h.1.trans h'.1, h.2.trans h'.2⟩

theorem Step.le (h : Step spec isRead g g') : g ≤ g' := by
  cases h with
  | invoke c input => exact ⟨List.prefix_rfl, List.prefix_append _ _⟩
  | commit e => exact ⟨List.prefix_append _ _, List.prefix_rfl⟩
  | answer c k input r => exact ⟨List.prefix_rfl, List.prefix_append _ _⟩
  | read c k input r p => exact ⟨List.prefix_rfl, List.prefix_append _ _⟩

omit [DecidableEq Client] in
theorem LoggedBefore.mono {id : Client × ℕ} {p : ℕ} (h : g.LoggedBefore id p)
    (hle : g.log <+: g'.log) : g'.LoggedBefore id p := by
  obtain ⟨q, e, hq, he, hid⟩ := h
  exact ⟨q, e, hq, getElem?_of_isPrefix hle he, hid⟩

/-- What a read that has returned shows. -/
structure ReadOk (spec : SeqSpec σ Input Ret) (isRead : Input → Bool)
    (g : Service Client Input Ret) (call : Call (Client × ℕ) Input Ret) (p : ℕ) : Prop where
  returned : .ret call.id call.ret ∈ g.history
  invoked : .inv call.id call.op ∈ g.history
  isRead : isRead call.op = true
  le_retAt : p ≤ g.retAt call.id
  le_length : p ≤ g.log.length
  logged : g.LoggedBefore call.id p
  value : (spec.step (replay spec (g.log.take p)).state call.op).2 = call.ret

/-- What a call that has returned shows. -/
def RetOk (spec : SeqSpec σ Input Ret) (isRead : Input → Bool) (g : Service Client Input Ret)
    (id : Client × ℕ) (r : Ret) : Prop :=
  ∃ input, .inv id input ∈ g.history ∧
    ((isRead input = false ∧ (∀ x, (spec.step x input).2 = r) ∧ g.LoggedBefore id (g.retAt id)) ∨
      ∃ p, ({ id := id, op := input, ret := r }, p) ∈ g.reads)

/-- The invariant of a service. -/
structure Inv (spec : SeqSpec σ Input Ret) (isRead : Input → Bool)
    (g : Service Client Input Ret) : Prop where
  inv_lt : ∀ {c k input}, .inv (c, k) input ∈ g.history → k < g.next c
  inv_unique : ∀ {id input input'}, .inv id input ∈ g.history → .inv id input' ∈ g.history →
    input = input'
  inv_stamp : ∀ {id input}, .inv id input ∈ g.history → g.invAt id ≤ g.log.length
  settled : ∀ {c k}, k < g.next c →
    (g.busy c = true ∧ k + 1 = g.next c) ∨ ∃ r, .ret (c, k) r ∈ g.history
  unanswered : ∀ {c k r}, g.busy c = true → k + 1 = g.next c → .ret (c, k) r ∉ g.history
  log_inv : ∀ {e}, e ∈ g.log → .inv e.id e.input ∈ g.history
  log_stamp : ∀ {q e}, g.log[q]? = some e → g.invAt e.id ≤ q
  effective : ∀ {q e}, g.log[q]? = some e →
    ∃ q' e', q' ≤ q ∧ Effective spec g.log q' e' ∧ e'.id = e.id
  ret_stamp : ∀ {id r}, .ret id r ∈ g.history → g.retAt id ≤ g.log.length
  ret_ok : ∀ {id r}, .ret id r ∈ g.history → RetOk spec isRead g id r
  read_ok : ∀ {call p}, (call, p) ∈ g.reads → ReadOk spec isRead g call p
  reads_nodup : (g.reads.map fun x => x.1.id).Nodup
  order : ∀ {a b}, Precedes g.history a b → g.retAt a ≤ g.invAt b

theorem inv_init : Inv spec isRead (init Client Input Ret) where
  inv_lt h := nomatch h
  inv_unique h := nomatch h
  inv_stamp h := nomatch h
  settled h := nomatch h
  unanswered h := nomatch h
  log_inv h := nomatch h
  log_stamp h := nomatch h
  effective h := nomatch h
  ret_stamp h := nomatch h
  ret_ok h := nomatch h
  read_ok h := nomatch h
  reads_nodup := List.nodup_nil
  order h := by
    obtain ⟨i, j, r, op, -, hi, -⟩ := h
    cases hi

/-! ## The steps keep the invariant -/

/-- The number of the next call has not been used. -/
theorem Inv.id_ne (h : Inv spec isRead g) {id : Client × ℕ} {input : Input}
    (hinv : .inv id input ∈ g.history) (c : Client) : id ≠ (c, g.next c) := by
  rintro rfl
  exact (h.inv_lt hinv).false

@[simp] theorem invoke_next_self (g : Service Client Input Ret) (c : Client) (input : Input) :
    (g.invoke c input).next c = g.next c + 1 :=
  Function.update_self _ _ _

theorem invoke_next_of_ne (g : Service Client Input Ret) {c c' : Client} (h : c' ≠ c)
    (input : Input) : (g.invoke c input).next c' = g.next c' :=
  Function.update_of_ne h _ _

@[simp] theorem invoke_busy_self (g : Service Client Input Ret) (c : Client) (input : Input) :
    (g.invoke c input).busy c = true :=
  Function.update_self _ _ _

theorem invoke_busy_of_ne (g : Service Client Input Ret) {c c' : Client} (h : c' ≠ c)
    (input : Input) : (g.invoke c input).busy c' = g.busy c' :=
  Function.update_of_ne h _ _

@[simp] theorem invoke_invAt_self (g : Service Client Input Ret) (c : Client) (input : Input) :
    (g.invoke c input).invAt (c, g.next c) = g.log.length :=
  Function.update_self _ _ _

theorem mem_invoke_inv {c : Client} {input input' : Input} {id : Client × ℕ} :
    .inv id input' ∈ (g.invoke c input).history ↔
      .inv id input' ∈ g.history ∨ id = (c, g.next c) ∧ input' = input := by
  simp [invoke]

theorem mem_invoke_ret {c : Client} {input : Input} {id : Client × ℕ} {r : Ret} :
    .ret id r ∈ (g.invoke c input).history ↔ .ret id r ∈ g.history := by
  simp [invoke]

/-- The length recorded for a call that has been invoked stays. -/
theorem Inv.invoke_invAt (h : Inv spec isRead g) {id : Client × ℕ} {input' : Input}
    (hinv : .inv id input' ∈ g.history) (c : Client) (input : Input) :
    (g.invoke c input).invAt id = g.invAt id :=
  Function.update_of_ne (h.id_ne hinv c) _ _

theorem Inv.invoke (h : Inv spec isRead g) {c : Client} (input : Input)
    (hbusy : g.busy c = false) : Inv spec isRead (g.invoke c input) where
  inv_lt := by
    intro c' k input' hinv
    rcases mem_invoke_inv.mp hinv with hinv | ⟨hid, -⟩
    · have hlt := h.inv_lt hinv
      by_cases hc : c' = c
      · subst hc
        rw [invoke_next_self]
        exact hlt.trans (Nat.lt_succ_self _)
      · rwa [invoke_next_of_ne g hc]
    · obtain ⟨rfl, rfl⟩ := Prod.mk.inj hid
      rw [invoke_next_self]
      exact Nat.lt_succ_self _
  inv_unique := by
    intro id input₁ input₂ h₁ h₂
    rcases mem_invoke_inv.mp h₁ with h₁ | ⟨hid₁, he₁⟩ <;>
      rcases mem_invoke_inv.mp h₂ with h₂ | ⟨hid₂, he₂⟩
    · exact h.inv_unique h₁ h₂
    · exact absurd hid₂ (h.id_ne h₁ c)
    · exact absurd hid₁ (h.id_ne h₂ c)
    · rw [he₁, he₂]
  inv_stamp := by
    intro id input' hinv
    rcases mem_invoke_inv.mp hinv with hinv | ⟨rfl, -⟩
    · rw [h.invoke_invAt hinv]
      exact h.inv_stamp hinv
    · rw [invoke_invAt_self]
      exact le_rfl
  settled := by
    intro c' k hk
    simp only [mem_invoke_ret]
    by_cases hc : c' = c
    · subst hc
      rw [invoke_next_self] at hk ⊢
      rw [invoke_busy_self]
      rcases Nat.lt_succ_iff_lt_or_eq.mp hk with hk | rfl
      · rcases h.settled hk with ⟨hb, -⟩ | hr
        · exact absurd (hbusy.symm.trans hb) Bool.false_ne_true
        · exact Or.inr hr
      · exact Or.inl ⟨rfl, rfl⟩
    · rw [invoke_next_of_ne g hc] at hk ⊢
      rw [invoke_busy_of_ne g hc]
      exact h.settled hk
  unanswered := by
    intro c' k r hb hk hr
    rw [mem_invoke_ret] at hr
    by_cases hc : c' = c
    · subst hc
      rw [invoke_next_self] at hk
      obtain ⟨input', hinv, -⟩ := h.ret_ok hr
      have := h.inv_lt hinv
      omega
    · rw [invoke_next_of_ne g hc] at hk
      rw [invoke_busy_of_ne g hc] at hb
      exact h.unanswered hb hk hr
  log_inv he := mem_invoke_inv.mpr (Or.inl (h.log_inv he))
  log_stamp := by
    intro q e he
    rw [h.invoke_invAt (h.log_inv (List.mem_of_getElem? he))]
    exact h.log_stamp he
  effective := h.effective
  ret_stamp hr := h.ret_stamp (mem_invoke_ret.mp hr)
  ret_ok := by
    intro id r hr
    obtain ⟨input', hinv, hcase⟩ := h.ret_ok (mem_invoke_ret.mp hr)
    exact ⟨input', mem_invoke_inv.mpr (Or.inl hinv), hcase⟩
  read_ok := by
    intro call p hmem
    have hok := h.read_ok hmem
    exact
      { hok with
        returned := mem_invoke_ret.mpr hok.returned
        invoked := mem_invoke_inv.mpr (Or.inl hok.invoked) }
  reads_nodup := h.reads_nodup
  order := by
    intro a b hprec
    rcases precedes_append_inv hprec with hprec | ⟨rfl, r, hr⟩
    · obtain ⟨-, j, -, op, -, -, hj⟩ := id hprec
      rw [h.invoke_invAt (List.mem_of_getElem? hj)]
      exact h.order hprec
    · rw [invoke_invAt_self]
      exact h.ret_stamp hr

/-- A call that has returned has an entry in the log. -/
theorem Inv.logged_of_ret (h : Inv spec isRead g) {id : Client × ℕ} {r : Ret}
    (hr : .ret id r ∈ g.history) : g.LoggedBefore id (g.retAt id) := by
  obtain ⟨input, -, ⟨-, -, hlogged⟩ | ⟨p, hmem⟩⟩ := h.ret_ok hr
  · exact hlogged
  · have hok := h.read_ok hmem
    obtain ⟨q, e, hq, he, hid⟩ := hok.logged
    exact ⟨q, e, hq.trans_le hok.le_retAt, he, hid⟩

/-- A call that has an entry in the log has an effective one. -/
theorem Inv.effective_of_logged (h : Inv spec isRead g) {id : Client × ℕ} {p : ℕ}
    (hlogged : g.LoggedBefore id p) : ∃ q e, q < p ∧ Effective spec g.log q e ∧ e.id = id := by
  obtain ⟨q, e, hq, he, rfl⟩ := hlogged
  obtain ⟨q', e', hle, heff, hid⟩ := h.effective he
  exact ⟨q', e', hle.trans_lt hq, heff, hid⟩

/-- If the table stops an entry, a copy of it is effective already: a client goes
on to a new call only when the last one has returned. -/
theorem Inv.effective_of_not_fresh (h : Inv spec isRead g) {e : Entry Client Input}
    (hinv : .inv e.id e.input ∈ g.history) (hfresh : ¬ (replay spec g.log).Fresh e) :
    ∃ q e', q < g.log.length ∧ Effective spec g.log q e' ∧ e'.id = e.id := by
  simp only [Replica.Fresh, not_forall] at hfresh
  obtain ⟨s, hs, hle⟩ := hfresh
  obtain ⟨q, e', heff, hid⟩ := exists_effective_of_seen hs
  have hq := (List.getElem?_eq_some_iff.mp heff.1).1
  rcases Nat.eq_or_lt_of_le (Nat.not_lt.mp hle) with rfl | hlt
  · exact ⟨q, e', hq, heff, hid⟩
  · have hlater := h.log_inv (List.mem_of_getElem? heff.1)
    rw [hid] at hlater
    have hnext := h.inv_lt hlater
    rcases h.settled (h.inv_lt (show .inv (e.client, e.seq) e.input ∈ g.history from hinv)) with
      ⟨-, hlast⟩ | ⟨r, hr⟩
    · omega
    · obtain ⟨q', e'', hq', heff', hid'⟩ := h.effective_of_logged (h.logged_of_ret hr)
      exact ⟨q', e'', hq'.trans_le (h.ret_stamp hr), heff', hid'⟩

theorem Inv.commit (h : Inv spec isRead g) {e : Entry Client Input}
    (hinv : .inv e.id e.input ∈ g.history) : Inv spec isRead { g with log := g.log ++ [e] } := by
  have hgrow : g.log <+: g.log ++ [e] := List.prefix_append _ _
  have hlen : g.log.length ≤ (g.log ++ [e]).length := hgrow.length_le
  exact
    { inv_lt := h.inv_lt
      inv_unique := h.inv_unique
      inv_stamp := fun hi => (h.inv_stamp hi).trans hlen
      settled := h.settled
      unanswered := h.unanswered
      log_inv := by
        intro e' he'
        rcases List.mem_append.mp he' with he' | he'
        · exact h.log_inv he'
        · rw [List.mem_singleton.mp he']
          exact hinv
      log_stamp := by
        intro q e' he'
        rcases getElem?_concat_cases he' with he' | ⟨rfl, rfl⟩
        · exact h.log_stamp he'
        · exact h.inv_stamp hinv
      effective := by
        intro q e' he'
        rcases getElem?_concat_cases he' with he' | ⟨rfl, rfl⟩
        · obtain ⟨q', e'', hle, heff, hid⟩ := h.effective he'
          exact ⟨q', e'', hle, heff.mono hgrow, hid⟩
        · by_cases hfresh : (replay spec g.log).Fresh e'
          · refine ⟨g.log.length, e', le_rfl, ⟨List.getElem?_concat_length, ?_⟩, rfl⟩
            rw [List.take_left' rfl]
            exact hfresh
          · obtain ⟨q', e'', hlt, heff, hid⟩ := h.effective_of_not_fresh hinv hfresh
            exact ⟨q', e'', hlt.le, heff.mono hgrow, hid⟩
      ret_stamp := fun hr => (h.ret_stamp hr).trans hlen
      ret_ok := by
        intro id r hr
        obtain ⟨input, hinput, hcase⟩ := h.ret_ok hr
        refine ⟨input, hinput, hcase.imp_left ?_⟩
        exact fun hcase => ⟨hcase.1, hcase.2.1, hcase.2.2.mono hgrow⟩
      read_ok := by
        intro call p hmem
        have hok := h.read_ok hmem
        exact
          { hok with
            le_length := hok.le_length.trans hlen
            logged := hok.logged.mono hgrow
            value := by
              rw [take_of_isPrefix hgrow hok.le_length]
              exact hok.value }
      reads_nodup := h.reads_nodup
      order := h.order }

section

variable {c : Client} {k : ℕ} {input : Input} {r : Ret}
  {reads : List (Call (Client × ℕ) Input Ret × ℕ)} {id : Client × ℕ}

theorem mem_respond_inv {input' : Input} :
    .inv id input' ∈ (g.respond c k r reads).history ↔ .inv id input' ∈ g.history := by
  simp [respond]

theorem mem_respond_ret {r' : Ret} :
    .ret id r' ∈ (g.respond c k r reads).history ↔
      .ret id r' ∈ g.history ∨ id = (c, k) ∧ r' = r := by
  simp [respond]

@[simp] theorem respond_busy_self : (g.respond c k r reads).busy c = false :=
  Function.update_self _ _ _

theorem respond_busy_of_ne {c' : Client} (h : c' ≠ c) :
    (g.respond c k r reads).busy c' = g.busy c' :=
  Function.update_of_ne h _ _

@[simp] theorem respond_retAt_self : (g.respond c k r reads).retAt (c, k) = g.log.length :=
  Function.update_self _ _ _

/-- A call that has returned is not the one that returns now. -/
theorem Inv.ne_of_ret (h : Inv spec isRead g) (hwaits : g.Waits c k input) {r' : Ret}
    (hr : .ret id r' ∈ g.history) : id ≠ (c, k) := by
  rintro rfl
  exact h.unanswered hwaits.busy hwaits.last hr

theorem Inv.respond_retAt (h : Inv spec isRead g) (hwaits : g.Waits c k input) {r' : Ret}
    (hr : .ret id r' ∈ g.history) : (g.respond c k r reads).retAt id = g.retAt id :=
  Function.update_of_ne (h.ne_of_ret hwaits hr) _ _

/-- What is remembered of the reads that have returned stays true. -/
theorem Inv.respond_read_ok (h : Inv spec isRead g) (hwaits : g.Waits c k input)
    {call : Call (Client × ℕ) Input Ret} {p : ℕ} (hmem : (call, p) ∈ g.reads) :
    ReadOk spec isRead (g.respond c k r reads) call p := by
  have hok := h.read_ok hmem
  exact
    { hok with
      returned := mem_respond_ret.mpr (Or.inl hok.returned)
      invoked := mem_respond_inv.mpr hok.invoked
      le_retAt := by
        rw [h.respond_retAt hwaits hok.returned]
        exact hok.le_retAt }

/-- A response keeps the invariant if it is justified in the state after it. -/
theorem Inv.respond (h : Inv spec isRead g) (hwaits : g.Waits c k input)
    (hok : RetOk spec isRead (g.respond c k r reads) (c, k) r)
    (hsub : ∀ x ∈ g.reads, x ∈ reads)
    (hreads : ∀ call p, (call, p) ∈ reads → ReadOk spec isRead (g.respond c k r reads) call p)
    (hnodup : (reads.map fun x => x.1.id).Nodup) :
    Inv spec isRead (g.respond c k r reads) where
  inv_lt hinv := h.inv_lt (mem_respond_inv.mp hinv)
  inv_unique h₁ h₂ := h.inv_unique (mem_respond_inv.mp h₁) (mem_respond_inv.mp h₂)
  inv_stamp hinv := h.inv_stamp (mem_respond_inv.mp hinv)
  settled := by
    intro c' k' hk
    rcases h.settled hk with ⟨hb, hlast⟩ | ⟨r', hr⟩
    · by_cases hc : c' = c
      · subst hc
        obtain rfl : k' = k := Nat.succ_injective (hlast.trans hwaits.last.symm)
        exact Or.inr ⟨r, mem_respond_ret.mpr (Or.inr ⟨rfl, rfl⟩)⟩
      · exact Or.inl ⟨(respond_busy_of_ne hc).trans hb, hlast⟩
    · exact Or.inr ⟨r', mem_respond_ret.mpr (Or.inl hr)⟩
  unanswered := by
    intro c' k' r' hb hlast hr
    have hc : c' ≠ c := by
      rintro rfl
      exact absurd (respond_busy_self.symm.trans hb) Bool.false_ne_true
    rcases mem_respond_ret.mp hr with hr | ⟨hid, -⟩
    · exact h.unanswered ((respond_busy_of_ne hc).symm.trans hb) hlast hr
    · exact hc (Prod.mk.inj hid).1
  log_inv he := mem_respond_inv.mpr (h.log_inv he)
  log_stamp := h.log_stamp
  effective := h.effective
  ret_stamp := by
    intro id r' hr
    rcases mem_respond_ret.mp hr with hr | ⟨rfl, -⟩
    · rw [h.respond_retAt hwaits hr]
      exact h.ret_stamp hr
    · rw [respond_retAt_self]
      exact le_rfl
  ret_ok := by
    intro id r' hr
    rcases mem_respond_ret.mp hr with hr | ⟨rfl, rfl⟩
    · obtain ⟨input', hinv, hcase⟩ := h.ret_ok hr
      refine ⟨input', mem_respond_inv.mpr hinv, ?_⟩
      rcases hcase with ⟨hread, hblind, hlogged⟩ | ⟨p, hmem⟩
      · rw [h.respond_retAt hwaits hr]
        exact Or.inl ⟨hread, hblind, hlogged⟩
      · exact Or.inr ⟨p, hsub _ hmem⟩
    · exact hok
  read_ok hmem := hreads _ _ hmem
  reads_nodup := hnodup
  order := by
    intro a b hprec
    have hprec' := precedes_append_ret hprec
    obtain ⟨i, -, r', -, -, hi, -⟩ := id hprec'
    rw [h.respond_retAt hwaits (List.mem_of_getElem? hi)]
    exact h.order hprec'

end

theorem Inv.step (h : Inv spec isRead g) (hs : Step spec isRead g g') :
    Inv spec isRead g' := by
  cases hs with
  | invoke c input hbusy => exact h.invoke input hbusy
  | commit e hinv => exact h.commit hinv
  | answer c k input r hwaits hread hr hlogged =>
      refine h.respond hwaits ⟨input, mem_respond_inv.mpr hwaits.invoked, ?_⟩
        (fun _ hx => hx) (fun call p hmem => h.respond_read_ok hwaits hmem) h.reads_nodup
      rw [respond_retAt_self]
      exact Or.inl ⟨hread, hr, hlogged⟩
  | read c k input r p hwaits hread hr hp hlogged =>
      refine h.respond hwaits ⟨input, mem_respond_inv.mpr hwaits.invoked, ?_⟩
        (fun _ hx => List.mem_cons_of_mem _ hx) ?_ ?_
      · exact Or.inr ⟨p, List.mem_cons_self⟩
      · intro call p' hmem
        rcases List.mem_cons.mp hmem with he | hmem
        · obtain ⟨rfl, rfl⟩ := Prod.mk.inj he
          exact
            { returned := mem_respond_ret.mpr (Or.inr ⟨rfl, rfl⟩)
              invoked := mem_respond_inv.mpr hwaits.invoked
              isRead := hread
              le_retAt := hp.trans_eq respond_retAt_self.symm
              le_length := hp
              logged := hlogged
              value := hr }
        · exact h.respond_read_ok hwaits hmem
      · refine List.nodup_cons.mpr ⟨?_, h.reads_nodup⟩
        intro hid
        obtain ⟨⟨call, p'⟩, hmem, hid⟩ := List.mem_map.mp hid
        exact h.ne_of_ret hwaits (h.read_ok hmem).returned hid

/-! ## The order of the calls -/

section

variable (spec isRead)

/-- The entry at place `q` of the log as a call, if it is effective and does not
only read. -/
def writeAt (g : Service Client Input Ret) (q : ℕ) : Option (Call (Client × ℕ) Input Ret) :=
  (g.log[q]?).bind fun e =>
    if (replay spec (g.log.take q)).Fresh e ∧ isRead e.input = false then
      some { id := e.id, op := e.input,
             ret := (spec.step (replay spec (g.log.take q)).state e.input).2 }
    else none

/-- The reads answered at place `p`. -/
def readsAt (g : Service Client Input Ret) (p : ℕ) : List (Call (Client × ℕ) Input Ret) :=
  (g.reads.filter fun x => x.2 = p).map Prod.fst

/-- The calls that take effect at place `b`: the write that leads to it, then the
reads. -/
def block (g : Service Client Input Ret) : ℕ → List (Call (Client × ℕ) Input Ret)
  | 0 => g.readsAt 0
  | q + 1 => (g.writeAt spec isRead q).toList ++ g.readsAt (q + 1)

end

theorem writeAt_eq_some {q : ℕ} {x : Call (Client × ℕ) Input Ret} :
    g.writeAt spec isRead q = some x ↔
      ∃ e, Effective spec g.log q e ∧ isRead e.input = false ∧
        x = { id := e.id, op := e.input,
              ret := (spec.step (replay spec (g.log.take q)).state e.input).2 } := by
  rw [writeAt, Option.bind_eq_some_iff]
  constructor
  · rintro ⟨e, he, hx⟩
    split at hx
    · rename_i hcond
      exact ⟨e, ⟨he, hcond.1⟩, hcond.2, (Option.some.inj hx).symm⟩
    · cases hx
  · rintro ⟨e, ⟨he, hfresh⟩, hread, rfl⟩
    exact ⟨e, he, if_pos ⟨hfresh, hread⟩⟩

omit [DecidableEq Client] in
theorem mem_readsAt {p : ℕ} {x : Call (Client × ℕ) Input Ret} :
    x ∈ g.readsAt p ↔ (x, p) ∈ g.reads := by
  simp [readsAt]

theorem mem_block {b : ℕ} {x : Call (Client × ℕ) Input Ret} :
    x ∈ g.block spec isRead b ↔
      (∃ q, b = q + 1 ∧ g.writeAt spec isRead q = some x) ∨ (x, b) ∈ g.reads := by
  cases b with
  | zero => simp [block, mem_readsAt]
  | succ q => simp [block, mem_readsAt]

/-- The state of the object before the calls at place `b`. -/
def stateAt (spec : SeqSpec σ Input Ret) (g : Service Client Input Ret) (b : ℕ) : σ :=
  (replay spec (g.log.take (b - 1))).state

/-- An entry that only reads, or that is stopped by the table, leaves the state
alone. -/
theorem runs_writeAt (hread : ∀ x input, isRead input = true → (spec.step x input).1 = x)
    {q : ℕ} (hq : q < g.log.length) :
    spec.Runs (replay spec (g.log.take q)).state (g.writeAt spec isRead q).toList
      (replay spec (g.log.take (q + 1))).state := by
  obtain ⟨e, he⟩ : ∃ e, g.log[q]? = some e := ⟨g.log[q], List.getElem?_eq_getElem hq⟩
  rw [take_succ_of_getElem? he, replay_concat, writeAt, he, Option.bind_some]
  by_cases hfresh : (replay spec (g.log.take q)).Fresh e
  · rw [Replica.apply_of_fresh hfresh]
    cases hin : isRead e.input with
    | false =>
        rw [if_pos ⟨hfresh, rfl⟩]
        exact ⟨rfl, rfl⟩
    | true =>
        rw [if_neg (by simp)]
        exact (hread _ _ hin).symm
  · rw [Replica.apply_of_not_fresh hfresh, if_neg fun hcond => hfresh hcond.1]
    exact rfl

theorem Inv.runs_readsAt (h : Inv spec isRead g)
    (hread : ∀ x input, isRead input = true → (spec.step x input).1 = x) (p : ℕ) :
    spec.Runs (replay spec (g.log.take p)).state (g.readsAt p)
      (replay spec (g.log.take p)).state := by
  refine SeqSpec.runs_of_forall fun call hcall => ?_
  have hok := h.read_ok (mem_readsAt.mp hcall)
  exact Prod.ext (hread _ _ hok.isRead) hok.value

theorem Inv.runs_block (h : Inv spec isRead g)
    (hread : ∀ x input, isRead input = true → (spec.step x input).1 = x) {b : ℕ}
    (hb : b < g.log.length + 1) :
    spec.Runs (g.stateAt spec b) (g.block spec isRead b) (g.stateAt spec (b + 1)) := by
  cases b with
  | zero => exact h.runs_readsAt hread 0
  | succ q =>
      exact (runs_writeAt hread (Nat.lt_of_succ_lt_succ hb)).append (h.runs_readsAt hread (q + 1))

/-- A write and a read belong to different calls. -/
theorem Inv.write_ne_read (h : Inv spec isRead g) {q p : ℕ} {x y : Call (Client × ℕ) Input Ret}
    (hx : g.writeAt spec isRead q = some x) (hy : (y, p) ∈ g.reads) : x.id ≠ y.id := by
  obtain ⟨e, heff, hread, rfl⟩ := writeAt_eq_some.mp hx
  have hok := h.read_ok hy
  intro hid
  have hinv := h.log_inv (List.mem_of_getElem? heff.1)
  rw [show e.id = y.id from hid] at hinv
  rw [h.inv_unique hinv hok.invoked, hok.isRead] at hread
  cases hread

theorem Inv.block_unique (h : Inv spec isRead g) {b b' : ℕ} {x y : Call (Client × ℕ) Input Ret}
    (hx : x ∈ g.block spec isRead b) (hy : y ∈ g.block spec isRead b') (hid : x.id = y.id) :
    b = b' := by
  rcases mem_block.mp hx with ⟨q, rfl, hw⟩ | hr <;>
    rcases mem_block.mp hy with ⟨q', rfl, hw'⟩ | hr'
  · obtain ⟨e, heff, -, rfl⟩ := writeAt_eq_some.mp hw
    obtain ⟨e', heff', -, rfl⟩ := writeAt_eq_some.mp hw'
    rw [heff.unique heff' hid]
  · exact absurd hid (h.write_ne_read hw hr')
  · exact absurd hid.symm (h.write_ne_read hw' hr)
  · have he := List.inj_on_of_nodup_map h.reads_nodup hr hr' hid
    exact (Prod.mk.inj he).2

theorem Inv.block_nodup (h : Inv spec isRead g) (b : ℕ) :
    ((g.block spec isRead b).map Call.id).Nodup := by
  have hreads : ∀ p, ((g.readsAt p).map Call.id).Nodup := by
    intro p
    rw [readsAt, List.map_map]
    exact h.reads_nodup.sublist (List.filter_sublist.map _)
  cases b with
  | zero => exact hreads 0
  | succ q =>
      rw [block, List.map_append, List.nodup_append']
      refine ⟨?_, hreads (q + 1), ?_⟩
      · cases g.writeAt spec isRead q with
        | none => exact List.nodup_nil
        | some x => exact List.nodup_singleton _
      · intro id hw hr
        obtain ⟨x, hx, rfl⟩ := List.mem_map.mp hw
        obtain ⟨y, hy, hid⟩ := List.mem_map.mp hr
        exact h.write_ne_read (Option.mem_toList.mp hx) (mem_readsAt.mp hy) hid.symm

/-- A call takes effect before it returns. -/
theorem Inv.le_retAt (h : Inv spec isRead g) {b : ℕ} {x : Call (Client × ℕ) Input Ret}
    (hx : x ∈ g.block spec isRead b) {r : Ret} (hr : .ret x.id r ∈ g.history) :
    b ≤ g.retAt x.id := by
  rcases mem_block.mp hx with ⟨q, rfl, hw⟩ | hread
  · obtain ⟨q', e', hlt, heff', hid⟩ := h.effective_of_logged (h.logged_of_ret hr)
    obtain ⟨e, heff, -, rfl⟩ := writeAt_eq_some.mp hw
    rw [heff.unique heff' hid.symm]
    exact hlt
  · exact (h.read_ok hread).le_retAt

/-- A call takes effect after it is invoked. -/
theorem Inv.invAt_lt (h : Inv spec isRead g) {b : ℕ} {x : Call (Client × ℕ) Input Ret}
    (hx : x ∈ g.block spec isRead b) : g.invAt x.id < b := by
  rcases mem_block.mp hx with ⟨q, rfl, hw⟩ | hread
  · obtain ⟨e, heff, -, rfl⟩ := writeAt_eq_some.mp hw
    exact Nat.lt_succ_of_le (h.log_stamp heff.1)
  · obtain ⟨q, e, hq, he, hid⟩ := (h.read_ok hread).logged
    rw [← hid]
    exact (h.log_stamp he).trans_lt hq

theorem Inv.block_invoked (h : Inv spec isRead g) {b : ℕ} {x : Call (Client × ℕ) Input Ret}
    (hx : x ∈ g.block spec isRead b) : .inv x.id x.op ∈ g.history := by
  rcases mem_block.mp hx with ⟨q, rfl, hw⟩ | hread
  · obtain ⟨e, heff, -, rfl⟩ := writeAt_eq_some.mp hw
    exact h.log_inv (List.mem_of_getElem? heff.1)
  · exact (h.read_ok hread).invoked

theorem Inv.block_complete (h : Inv spec isRead g) {id : Client × ℕ} {r : Ret}
    (hr : .ret id r ∈ g.history) :
    ∃ b < g.log.length + 1, ∃ x ∈ g.block spec isRead b, x.id = id ∧ x.ret = r := by
  obtain ⟨input, hinv, ⟨hread, hblind, hlogged⟩ | ⟨p, hmem⟩⟩ := h.ret_ok hr
  · obtain ⟨q, e, hlt, heff, rfl⟩ := h.effective_of_logged hlogged
    have hinput := h.inv_unique (h.log_inv (List.mem_of_getElem? heff.1)) hinv
    have hq := (List.getElem?_eq_some_iff.mp heff.1).1
    refine ⟨q + 1, Nat.succ_lt_succ hq, _, mem_block.mpr (Or.inl ⟨q, rfl, writeAt_eq_some.mpr
      ⟨e, heff, hinput ▸ hread, rfl⟩⟩), rfl, ?_⟩
    rw [← hblind (replay spec (g.log.take q)).state, ← hinput]
  · have hle := (h.read_ok hmem).le_length
    exact ⟨p, Nat.lt_succ_of_le hle, _, mem_block.mpr (Or.inr hmem), rfl, rfl⟩

/-- The history of a service is linearizable. -/
theorem Inv.linearizable (h : Inv spec isRead g)
    (hread : ∀ x input, isRead input = true → (spec.step x input).1 = x) :
    Linearizable spec g.history := by
  have hinit : g.stateAt spec 0 = spec.init := rfl
  refine Linearizable.of_blocks hinit (fun b hb => h.runs_block hread hb)
    (fun b _ => h.block_nodup b) (fun b b' x y hx hy hid => h.block_unique hx hy hid)
    (fun b _ x hx => h.block_invoked hx) (fun id r hr => h.block_complete hr) ?_
  intro b b' x y hx hy hprec
  obtain ⟨i, -, r, -, -, hi, -⟩ := id hprec
  calc b ≤ g.retAt x.id := h.le_retAt hx (List.mem_of_getElem? hi)
    _ ≤ g.invAt y.id := h.order hprec
    _ < b' := h.invAt_lt hy

end Service

end SharedLog

end DistributedLabs
