import DistributedLabs.Consensus.Matching
import Mathlib.Logic.Relation

/-!
# Safety of a ledger

A start of the log of a leader that ends with an entry of its own term, and that
a quorum has acknowledged in that term, is committed. What is committed is in
the log of every later leader, so committed logs never disagree.

The argument speaks about acknowledgements one server at a time. The start `p`
of the leader of `t` is `Blocked` when a quorum has left the term `t` without
acknowledging it; then it will never be committed. A server that has
acknowledged `p` keeps it and votes only for candidates that hold it, unless `p`
is blocked.
-/

namespace DistributedLabs

namespace Consensus

namespace Ledger

variable {S E : Type*} {qs : QuorumSystem S} {tm : E → ℕ} {st st' : Ledger S E}
  {t t' k : ℕ} {l p q : List E}

variable (qs) in
/-- A quorum has left the term `t` without acknowledging `k` entries in it. -/
def Blocked (st : Ledger S E) (t k : ℕ) : Prop :=
  ∃ Q, qs.IsQuorum Q ∧ ∀ v ∈ Q, t < st.term v ∧ ¬ st.acked v t k

variable (qs tm) in
/-- What an acknowledgement promises. -/
structure AckInv (st : Ledger S E) : Prop where
  term_le : ∀ {v t k}, st.acked v t k → t ≤ st.term v
  leads : ∀ {v t k}, st.acked v t k → ∃ c, st.leads c t
  length_le : ∀ {v t k}, st.acked v t k → k ≤ (st.lead t).length
  down : ∀ {v t k j}, st.acked v t k → j ≤ k → st.acked v t j
  current : ∀ {v k}, st.acked v (st.term v) k → (st.lead (st.term v)).take k <+: st.log v
  kept : ∀ {v t p}, st.acked v t p.length → p <+: st.lead t → tipTerm tm p = t →
    p <+: st.log v ∨ Blocked qs st t p.length
  voted : ∀ {v t' c l t p}, st.votes v t' c → st.stood c t' l → t < t' →
    st.acked v t p.length → p <+: st.lead t → tipTerm tm p = t →
    p <+: l ∨ Blocked qs st t p.length

variable (qs tm) in
/-- The invariants of a ledger. -/
structure Inv (st : Ledger S E) : Prop where
  votes : VoteInv qs st
  logs : LogInv tm st
  acks : AckInv qs tm st

theorem inv_init : Inv qs tm (init S E) :=
  ⟨voteInv_init, logInv_init, False.elim, False.elim, False.elim, False.elim, False.elim,
    False.elim, fun h => h.elim⟩

/-- A later leader has stood with what an earlier one has in its own term, unless
that is blocked: a voter of the later leader has acknowledged it, or none has. -/
theorem Inv.elected (h : Inv qs tm st) {c : S} (hl : st.leads c t') (hs : st.stood c t' l)
    (ht : t < t') (hp : p <+: st.lead t) (htip : tipTerm tm p = t) :
    p <+: l ∨ Blocked qs st t p.length := by
  obtain ⟨Q, hQ, hvotes⟩ := h.votes.quorum hl
  by_cases hack : ∃ v ∈ Q, st.acked v t p.length
  · obtain ⟨v, hv, hacked⟩ := hack
    exact h.acks.voted (hvotes v hv) hs ht hacked hp htip
  · refine Or.inr ⟨Q, hQ, fun v hv => ⟨?_, fun hacked => hack ⟨v, hv, hacked⟩⟩⟩
    exact ht.trans_le (h.votes.votes_le (hvotes v hv))

/-- A candidate whose log is up to date with a log that holds `p` holds `p`,
unless `p` is blocked. -/
theorem Inv.upToDate (h : Inv qs tm st) {v : S} (hgood : Good tm st l)
    (hnew : UpToDate tm l (st.log v)) (hp : p <+: st.lead t) (htip : tipTerm tm p = t)
    (hlead : ∃ c, st.leads c t) (hlog : p <+: st.log v) :
    p <+: l ∨ Blocked qs st t p.length := by
  obtain ⟨c, hc⟩ := hlead
  by_cases hne : p = []
  · subst hne
    exact Or.inl List.nil_prefix
  have hlen : p.length ≤ (st.log v).length := hlog.length_le
  have hpos : 0 < p.length := List.length_pos_iff.mpr hne
  have hmono : t ≤ tipTerm tm (st.log v) :=
    htip ▸ h.logs.tipTerm_mono (h.logs.log_good v) hlog
  have htl : t ≤ tipTerm tm l := by
    rcases hnew with hlt | ⟨heq, -⟩
    · omega
    · omega
  have hl : l ≠ [] := by
    rintro rfl
    rw [UpToDate, tipTerm_nil, List.length_nil] at hnew
    omega
  obtain ⟨⟨u, hu⟩, hul⟩ := hgood l List.prefix_rfl hl
  rcases htl.lt_or_eq with hlt | heq
  · -- the candidate ends in a later term, whose leader holds `p`
    obtain ⟨b, hb⟩ := h.votes.leads_stood hu
    rcases h.elected hu hb hlt hp htip with hpb | hblocked
    · have hpu := hpb.trans (h.logs.base hu hb)
      rcases List.prefix_or_prefix_of_prefix hpu hul with hpl | hlp
      · exact Or.inl hpl
      · obtain ⟨e, he, hterm⟩ := exists_mem_tipTerm tm hl
        have := h.logs.lead_le hc (hp.subset (hlp.subset he))
        omega
    · exact Or.inr hblocked
  · -- both logs end in the term of `p`, and the candidate's is the longer one
    have hlen' : (st.log v).length ≤ l.length := by
      rcases hnew with hlt | ⟨-, hle⟩
      · omega
      · exact hle
    rw [← heq] at hul
    exact Or.inl (List.prefix_of_prefix_length_le hp hul (by omega))

/-- An acknowledged start of a leader was a start of it before the step. -/
theorem AckInv.start_of_le (h : AckInv qs tm st) (hle : st ≤ st') {v : S}
    (hack : st.acked v t p.length) (hp : p <+: st'.lead t) : p <+: st.lead t := by
  obtain ⟨c, hc⟩ := h.leads hack
  exact List.prefix_of_prefix_length_le hp (hle.lead hc) (h.length_le hack)

theorem AckInv.take_eq (h : AckInv qs tm st) (hle : st ≤ st') {v : S} (hack : st.acked v t k) :
    (st'.lead t).take k = (st.lead t).take k := by
  obtain ⟨c, hc⟩ := h.leads hack
  obtain ⟨rest, hrest⟩ := hle.lead hc
  rw [← hrest, List.take_append_of_le_length (h.length_le hack)]

/-! ## Steps -/

section

variable [DecidableEq S] {s : S}

/-- A new acknowledgement is made in the current term, for what the log holds. -/
theorem Step.acked_cases (hs : Step qs tm s st st') {v : S} (h : st'.acked v t k) :
    st.acked v t k ∨ (st'.term v = t ∧ (∃ c, st'.leads c t) ∧ k ≤ (st'.lead t).length ∧
      (st'.lead t).take k <+: st'.log v ∧ ∀ j ≤ k, st'.acked v t j) := by
  cases hs with
  | bump t ht => exact Or.inl h
  | stand => exact Or.inl h
  | grant c l hstood hfree hnew => exact Or.inl h
  | win Q hQ hvotes hstood hfree => exact Or.inl h
  | append e hlead he => exact Or.inl h
  | accept c k hlead hne => exact Or.inl h
  | ack c j hlead hk hlog =>
      rcases h with h | ⟨rfl, rfl, hkj⟩
      · exact Or.inl h
      · refine Or.inr ⟨rfl, ⟨c, hlead⟩, hkj.trans hk, ?_, fun i hi =>
          Or.inr ⟨rfl, rfl, hi.trans hkj⟩⟩
        exact (List.take_prefix_take_left hkj).trans hlog

/-- A log grows, or takes over a part of the log of the leader of its term. -/
theorem Step.log_cases (hs : Step qs tm s st st') (v : S) :
    st.log v <+: st'.log v ∨ ∃ c k, st.leads c (st.term v) ∧
      st'.log v = adopt (st.log v) ((st.lead (st.term v)).take k) := by
  cases hs with
  | bump t ht => exact Or.inl List.prefix_rfl
  | stand => exact Or.inl List.prefix_rfl
  | grant c l hstood hfree hnew => exact Or.inl List.prefix_rfl
  | win Q hQ hvotes hstood hfree => exact Or.inl List.prefix_rfl
  | append e hlead he =>
      left
      dsimp only
      by_cases hv : v = s
      · subst hv
        rw [Function.update_self]
        exact List.prefix_append _ _
      · rw [Function.update_of_ne hv]
  | accept c k hlead hne =>
      dsimp only
      by_cases hv : v = s
      · subst hv
        rw [Function.update_self]
        exact Or.inr ⟨c, k, hlead, rfl⟩
      · rw [Function.update_of_ne hv]
        exact Or.inl List.prefix_rfl
  | ack c j hlead hk hlog => exact Or.inl List.prefix_rfl

/-- A new vote goes to a candidate with a good log that is up to date. -/
theorem Step.votes_cases (h : Inv qs tm st) (hs : Step qs tm s st st') {v c : S}
    (hv : st'.votes v t c) (hc : st'.stood c t l) :
    (st.votes v t c ∧ st.stood c t l) ∨ (Good tm st l ∧ UpToDate tm l (st.log v)) := by
  cases hs with
  | bump t ht => exact Or.inl ⟨hv, hc⟩
  | stand =>
      rcases hc with hc | ⟨rfl, rfl, rfl⟩
      · rcases hv with hv | ⟨rfl, rfl, rfl⟩
        · exact Or.inl ⟨hv, hc⟩
        · exact absurd (h.votes.stood_le hc) (Nat.not_succ_le_self _)
      · rcases hv with hv | ⟨rfl, -⟩
        · obtain ⟨l, hl⟩ := h.votes.votes_stood hv
          exact absurd (h.votes.stood_le hl) (Nat.not_succ_le_self _)
        · exact Or.inr ⟨h.logs.log_good v, Or.inr ⟨rfl, le_rfl⟩⟩
  | grant c' l' hstood hfree hnew =>
      rcases hv with hv | ⟨rfl, rfl, rfl⟩
      · exact Or.inl ⟨hv, hc⟩
      · obtain rfl := h.votes.stood_unique hstood hc
        exact Or.inr ⟨h.logs.stood_good hc, hnew⟩
  | win Q hQ hvotes hstood hfree => exact Or.inl ⟨hv, hc⟩
  | append e hlead he => exact Or.inl ⟨hv, hc⟩
  | accept c k hlead hne => exact Or.inl ⟨hv, hc⟩
  | ack c j hlead hk hlog => exact Or.inl ⟨hv, hc⟩

/-- What is blocked stays blocked. -/
theorem Step.blocked (hs : Step qs tm s st st') (h : Blocked qs st t k) :
    Blocked qs st' t k := by
  obtain ⟨Q, hQ, hblock⟩ := h
  refine ⟨Q, hQ, fun v hv => ?_⟩
  obtain ⟨hlt, hnot⟩ := hblock v hv
  have hlt' := hlt.trans_le (hs.le.term v)
  refine ⟨hlt', fun hacked => ?_⟩
  rcases hs.acked_cases hacked with hacked | ⟨hterm, -⟩
  · exact hnot hacked
  · omega

/-- An acknowledged start that a log holds is kept by a step of the log. -/
theorem Step.log_keeps (hs : Step qs tm s st st') {v : S}
    (hp : p <+: st.log v) (hlead : ∀ c, st.leads c (st.term v) → p <+: st.lead (st.term v)) :
    p <+: st'.log v := by
  rcases hs.log_cases v with hlog | ⟨c, j, hc, hlog⟩
  · exact hp.trans hlog
  · rw [hlog]
    exact adopt_keeps hp (hlead c hc) j

theorem Inv.kept_step (h : Inv qs tm st) (hs : Step qs tm s st st') {v : S}
    (hack : st'.acked v t p.length) (hp : p <+: st'.lead t) (htip : tipTerm tm p = t) :
    p <+: st'.log v ∨ Blocked qs st' t p.length := by
  rcases hs.acked_cases hack with hold | ⟨-, -, -, htake, -⟩
  · have hp' := h.acks.start_of_le hs.le hold hp
    rcases h.acks.kept hold hp' htip with hlog | hblocked
    · by_cases hblocked : Blocked qs st t p.length
      · exact Or.inr (hs.blocked hblocked)
      · refine Or.inl (hs.log_keeps hlog fun c hc => ?_)
        rcases (h.acks.term_le hold).lt_or_eq with hlt | heq
        · obtain ⟨b, hb⟩ := h.votes.leads_stood hc
          have hpb := (h.elected hc hb hlt hp' htip).resolve_right hblocked
          exact hpb.trans (h.logs.base hc hb)
        · rwa [← heq]
    · exact Or.inr (hs.blocked hblocked)
  · rw [List.prefix_iff_eq_take.mp hp]
    exact Or.inl htake

theorem Inv.voted_step (h : Inv qs tm st) (hv' : VoteInv qs st') (hs : Step qs tm s st st')
    {v c : S} (hvote : st'.votes v t' c) (hstood : st'.stood c t' l) (ht : t < t')
    (hack : st'.acked v t p.length) (hp : p <+: st'.lead t) (htip : tipTerm tm p = t) :
    p <+: l ∨ Blocked qs st' t p.length := by
  rcases hs.acked_cases hack with hold | ⟨hterm, -⟩
  · have hp' := h.acks.start_of_le hs.le hold hp
    have hres : p <+: l ∨ Blocked qs st t p.length := by
      rcases Step.votes_cases h hs hvote hstood with ⟨hvote, hstood⟩ | ⟨hgood, hnew⟩
      · exact h.acks.voted hvote hstood ht hold hp' htip
      · rcases h.acks.kept hold hp' htip with hlog | hblocked
        · exact h.upToDate hgood hnew hp' htip (h.acks.leads hold) hlog
        · exact Or.inr hblocked
    exact hres.imp_right hs.blocked
  · -- a server does not vote above the term in which it acknowledges
    have := hv'.votes_le hvote
    omega

theorem Inv.current_step (h : Inv qs tm st) (hs : Step qs tm s st st') {v : S}
    (hack : st'.acked v (st'.term v) k) : (st'.lead (st'.term v)).take k <+: st'.log v := by
  rcases hs.acked_cases hack with hold | ⟨-, -, -, htake, -⟩
  · have hterm := le_antisymm (h.acks.term_le hold) (hs.le.term v)
    rw [h.acks.take_eq hs.le hold, hterm]
    rw [hterm] at hold
    exact hs.log_keeps (h.acks.current hold) fun _ _ => List.take_prefix _ _
  · exact htake

/-- The invariants are kept by every step. -/
theorem Inv.step (h : Inv qs tm st) (hs : Step qs tm s st st') : Inv qs tm st' := by
  have hv' := h.votes.step hs
  refine ⟨hv', h.logs.step h.votes hs, fun {v t k} hack => ?_, fun {v t k} hack => ?_,
    fun {v t k} hack => ?_, fun {v t k j} hack hj => ?_, fun {v k} => h.current_step hs,
    fun {v t p} => h.kept_step hs, fun {v t' c l t p} => h.voted_step hv' hs⟩
  · rcases hs.acked_cases hack with hold | ⟨hterm, -⟩
    · exact (h.acks.term_le hold).trans (hs.le.term v)
    · exact hterm.ge
  · rcases hs.acked_cases hack with hold | ⟨-, hlead, -⟩
    · obtain ⟨c, hc⟩ := h.acks.leads hold
      exact ⟨c, hs.le.leads hc⟩
    · exact hlead
  · rcases hs.acked_cases hack with hold | ⟨-, -, hlen, -⟩
    · obtain ⟨c, hc⟩ := h.acks.leads hold
      exact (h.acks.length_le hold).trans (hs.le.lead hc).length_le
    · exact hlen
  · rcases hs.acked_cases hack with hold | ⟨-, -, -, -, hdown⟩
    · exact hs.le.acked (h.acks.down hold hj)
    · exact hdown j hj

variable (qs tm) in
/-- A server takes any number of steps. -/
def Moves (s : S) : Ledger S E → Ledger S E → Prop := Relation.ReflTransGen (Step qs tm s)

theorem Moves.le (h : Moves qs tm s st st') : st ≤ st' := by
  induction h with
  | refl => exact le_rfl
  | tail _ hs ih => exact ih.trans hs.le

theorem Moves.frame (h : Moves qs tm s st st') : Frame s st st' := by
  induction h with
  | refl => exact Frame.refl s st
  | tail _ hs ih => exact ih.trans hs.frame

theorem Inv.moves (h : Inv qs tm st) (hm : Moves qs tm s st st') : Inv qs tm st' := by
  induction hm with
  | refl => exact h
  | tail _ hs ih => exact ih.step hs

/-- Win an election and acknowledge the log. -/
theorem moves_win {Q : Finset S} (hQ : qs.IsQuorum Q) (hvotes : ∀ v ∈ Q, st.votes v (st.term s) s)
    (hstood : st.stood s (st.term s) (st.log s)) (hfree : ∀ c, ¬ st.leads c (st.term s)) :
    ∃ st', Moves qs tm s st st' ∧ st'.term = st.term ∧ st'.log = st.log ∧ st'.votes = st.votes ∧
      st'.leads s (st.term s) ∧ st'.acked s (st.term s) (st.log s).length := by
  have hwin : Step qs tm s st _ := .win Q hQ hvotes hstood hfree
  have hack : Step qs tm s { st with
      leads := fun c t => st.leads c t ∨ (c = s ∧ t = st.term s)
      lead := Function.update st.lead (st.term s) (st.log s) } _ :=
    .ack s (st.log s).length (Or.inr ⟨rfl, rfl⟩) (by simp) (by simp)
  exact ⟨_, (Relation.ReflTransGen.single hwin).tail hack, rfl, rfl, rfl, Or.inr ⟨rfl, rfl⟩,
    Or.inr ⟨rfl, rfl, le_rfl⟩⟩

/-- Append an entry as the leader and acknowledge it. -/
theorem Inv.moves_append (h : Inv qs tm st) {e : E} (hlead : st.leads s (st.term s))
    (he : tm e = st.term s) :
    ∃ st', Moves qs tm s st st' ∧ st'.term = st.term ∧ st'.log s = st.log s ++ [e] ∧
      st'.votes = st.votes ∧ st'.leads = st.leads ∧
      st'.acked s (st.term s) (st.log s ++ [e]).length := by
  have happend : Step qs tm s st _ := .append e hlead he
  have hack : Step qs tm s { st with
      log := Function.update st.log s (st.log s ++ [e])
      lead := Function.update st.lead (st.term s) (st.lead (st.term s) ++ [e]) } _ :=
    .ack s (st.log s ++ [e]).length hlead (by simp [h.logs.own hlead])
      (by simpa [h.logs.own hlead] using List.take_prefix _ _)
  exact ⟨_, (Relation.ReflTransGen.single happend).tail hack, rfl, Function.update_self _ _ _, rfl,
    rfl, Or.inr ⟨rfl, rfl, le_rfl⟩⟩

/-- Adopt a part of the log of the leader and acknowledge it. -/
theorem moves_accept {c : S} (hlead : st.leads c (st.term s)) (hne : c ≠ s)
    (hk : k ≤ (st.lead (st.term s)).length) :
    ∃ st', Moves qs tm s st st' ∧ st'.term = st.term ∧
      st'.log s = adopt (st.log s) ((st.lead (st.term s)).take k) ∧ st'.votes = st.votes ∧
      st'.leads = st.leads ∧ st'.acked s (st.term s) k := by
  have haccept : Step qs tm s st _ := .accept c k hlead hne
  have hack : Step qs tm s { st with
      log := Function.update st.log s (adopt (st.log s) ((st.lead (st.term s)).take k)) } _ :=
    .ack c k hlead hk (by simpa using starts_adopt _ _)
  exact ⟨_, (Relation.ReflTransGen.single haccept).tail hack, rfl, Function.update_self _ _ _, rfl,
    rfl, Or.inr ⟨rfl, rfl, le_rfl⟩⟩

end

/-! ## Committed logs -/

variable (qs tm) in
/-- The start `p` of the leader of `t` ends in its own term and a quorum has
acknowledged it. -/
def Committed (st : Ledger S E) (t : ℕ) (p : List E) : Prop :=
  (∃ c, st.leads c t) ∧ p <+: st.lead t ∧ tipTerm tm p = t ∧
    ∃ Q, qs.IsQuorum Q ∧ ∀ v ∈ Q, st.acked v t p.length

variable (qs tm) in
/-- The log `q` is a start of what has been committed in a term up to `T`. -/
def Chosen (st : Ledger S E) (T : ℕ) (q : List E) : Prop :=
  q = [] ∨ ∃ t ≤ T, ∃ p, Committed qs tm st t p ∧ q <+: p

theorem Committed.mono (h : Committed qs tm st t p) (hle : st ≤ st') :
    Committed qs tm st' t p := by
  obtain ⟨⟨c, hc⟩, hp, htip, Q, hQ, hack⟩ := h
  exact ⟨⟨c, hle.leads hc⟩, hp.trans (hle.lead hc), htip, Q, hQ, fun v hv => hle.acked (hack v hv)⟩

theorem Chosen.mono {T T' : ℕ} (h : Chosen qs tm st T q) (hle : st ≤ st') (hT : T ≤ T') :
    Chosen qs tm st' T' q := by
  rcases h with h | ⟨t, ht, p, hp, hq⟩
  · exact Or.inl h
  · exact Or.inr ⟨t, ht.trans hT, p, hp.mono hle, hq⟩

theorem Chosen.start {T : ℕ} (h : Chosen qs tm st T q) (hp : p <+: q) : Chosen qs tm st T p := by
  rcases h with rfl | ⟨t, ht, r, hr, hq⟩
  · exact Or.inl (List.prefix_nil.mp hp)
  · exact Or.inr ⟨t, ht, r, hr, hp.trans hq⟩

theorem Committed.not_blocked (h : Committed qs tm st t p) : ¬ Blocked qs st t p.length := by
  obtain ⟨-, -, -, Q, hQ, hack⟩ := h
  rintro ⟨Q', hQ', hblock⟩
  obtain ⟨v, hv, hv'⟩ := qs.inter hQ hQ'
  exact (hblock v hv').2 (hack v hv)

/-- Leader completeness: a leader has stood with everything that is chosen in an
earlier term. -/
theorem Inv.chosen_stood (h : Inv qs tm st) {T : ℕ} {c : S} (hq : Chosen qs tm st T q)
    (hl : st.leads c t') (hs : st.stood c t' l) (hT : T < t') : q <+: l := by
  rcases hq with rfl | ⟨t, ht, p, hp, hqp⟩
  · exact List.nil_prefix
  · have hpl := (h.elected hl hs (ht.trans_lt hT) hp.2.1 hp.2.2.1).resolve_right hp.not_blocked
    exact hqp.trans hpl

theorem Inv.chosen_lead (h : Inv qs tm st) {T : ℕ} {c : S} (hq : Chosen qs tm st T q)
    (hl : st.leads c t') (hT : T ≤ t') : q <+: st.lead t' := by
  rcases hq with rfl | ⟨t, ht, p, hp, hqp⟩
  · exact List.nil_prefix
  · rcases (ht.trans hT).lt_or_eq with hlt | rfl
    · obtain ⟨l, hs⟩ := h.votes.leads_stood hl
      have hql := h.chosen_stood (Or.inr ⟨t, le_rfl, p, hp, hqp⟩) hl hs hlt
      exact hql.trans (h.logs.base hl hs)
    · exact hqp.trans hp.2.1

/-- Two chosen logs agree as far as both reach. -/
theorem Inv.chosen_agree (h : Inv qs tm st) {T T' : ℕ} {q' : List E} (hq : Chosen qs tm st T q)
    (hq' : Chosen qs tm st T' q') : q <+: q' ∨ q' <+: q := by
  rcases hq with rfl | ⟨t, -, p, hp, hqp⟩
  · exact Or.inl List.nil_prefix
  rcases hq' with rfl | ⟨t', -, p', hp', hqp'⟩
  · exact Or.inr List.nil_prefix
  obtain ⟨c, hc⟩ := hp.1
  obtain ⟨c', hc'⟩ := hp'.1
  rcases le_total t t' with ht | ht
  · have hlead := h.chosen_lead (Or.inr ⟨t, le_rfl, p, hp, hqp⟩) hc' ht
    exact List.prefix_or_prefix_of_prefix hlead (hqp'.trans hp'.2.1)
  · have hlead := h.chosen_lead (Or.inr ⟨t', le_rfl, p', hp', hqp'⟩) hc ht
    exact List.prefix_or_prefix_of_prefix (hqp.trans hp.2.1) hlead

end Ledger

end Consensus

end DistributedLabs
