import DistributedLabs.Consensus.Election

/-!
# Log matching in a ledger

A log is `Good` when every nonempty part it starts with, up to an entry of the
term `t`, is also what the leader of `t` starts with. The logs of the servers,
of the candidates and of the leaders are good, and two good logs that agree on
the term of one entry agree up to that entry.
-/

namespace DistributedLabs

namespace Consensus

namespace Ledger

variable {S E : Type*} {qs : QuorumSystem S} {tm : E → ℕ}

section

variable {st st' : Ledger S E} {l l' p p' q : List E}

variable (tm) in
/-- Every nonempty start of the log is a start of the log of a leader, the one of
the term of its last entry. -/
def Good (st : Ledger S E) (l : List E) : Prop :=
  ∀ p, p <+: l → p ≠ [] →
    (∃ c, st.leads c (tipTerm tm p)) ∧ p <+: st.lead (tipTerm tm p)

theorem good_nil : Good tm st [] := fun _ hp hne => absurd (List.prefix_nil.mp hp) hne

theorem Good.mono (h : Good tm st l) (hle : st ≤ st') : Good tm st' l := by
  intro p hp hne
  obtain ⟨⟨c, hc⟩, hlead⟩ := h p hp hne
  exact ⟨⟨c, hle.leads hc⟩, hlead.trans (hle.lead hc)⟩

theorem Good.start (h : Good tm st l) (hp : p <+: l) : Good tm st p :=
  fun q hq hne => h q (hq.trans hp) hne

theorem Good.adopt (h : Good tm st l) (h' : Good tm st p) : Good tm st (adopt l p) := by
  rcases adopt_cases l p with ⟨-, he⟩ | ⟨-, he⟩
  · rwa [he]
  · rwa [he]

/-- Two good logs that agree on the term of an entry agree up to it. -/
theorem Good.matching (h : Good tm st l) (h' : Good tm st l') (hp : p <+: l) (hp' : p' <+: l')
    (hlen : p.length = p'.length) (htip : tipTerm tm p = tipTerm tm p') : p = p' := by
  by_cases hne : p = []
  · subst hne
    exact (List.length_eq_zero_iff.mp hlen.symm).symm
  · have hne' : p' ≠ [] := by
      rintro rfl
      exact hne (List.length_eq_zero_iff.mp hlen)
    have hlead := (h p hp hne).2
    have hlead' := (h' p' hp' hne').2
    rw [← htip] at hlead'
    exact (List.prefix_of_prefix_length_le hlead hlead' hlen.le).eq_of_length hlen

theorem Good.take_eq (h : Good tm st l) (h' : Good tm st l') {i : ℕ} {e e' : E}
    (he : l[i]? = some e) (he' : l'[i]? = some e') (hterm : tm e = tm e') :
    l.take (i + 1) = l'.take (i + 1) := by
  have hl : l.take (i + 1) <+: l := List.take_prefix _ l
  have hl' : l'.take (i + 1) <+: l' := List.take_prefix _ l'
  refine h.matching h' hl hl' ?_ ?_
  · obtain ⟨hi, -⟩ := List.getElem?_eq_some_iff.mp he
    obtain ⟨hi', -⟩ := List.getElem?_eq_some_iff.mp he'
    rw [List.length_take_of_le hi, List.length_take_of_le hi']
  · rw [tipTerm_take_succ tm he, tipTerm_take_succ tm he', hterm]

variable (tm) in
/-- The logs of a ledger are good and carry terms in range, the log of a leader
extends the log it stood with, and a leader in office holds it. -/
structure LogInv (st : Ledger S E) : Prop where
  log_good : ∀ s, Good tm st (st.log s)
  stood_good : ∀ {c t l}, st.stood c t l → Good tm st l
  lead_good : ∀ {c t}, st.leads c t → Good tm st (st.lead t)
  log_le : ∀ {s e}, e ∈ st.log s → tm e ≤ st.term s
  stood_lt : ∀ {c t l e}, st.stood c t l → e ∈ l → tm e < t
  lead_le : ∀ {c t e}, st.leads c t → e ∈ st.lead t → tm e ≤ t
  base : ∀ {c t l}, st.leads c t → st.stood c t l → l <+: st.lead t
  own : ∀ {s}, st.leads s (st.term s) → st.log s = st.lead (st.term s)

theorem logInv_init : LogInv tm (init S E) where
  log_good _ := good_nil
  stood_good h := h.elim
  lead_good h := h.elim
  log_le h := by cases h
  stood_lt h := h.elim
  lead_le h := h.elim
  base h := h.elim
  own h := h.elim

/-- The terms of a good log do not decrease. -/
theorem LogInv.tipTerm_mono (h : LogInv tm st) (hgood : Good tm st q) (hp : p <+: q) :
    tipTerm tm p ≤ tipTerm tm q := by
  by_cases hne : p = []
  · subst hne
    exact Nat.zero_le _
  · have hq : q ≠ [] := fun hq => hne (List.prefix_nil.mp (hq ▸ hp))
    obtain ⟨e, he, hterm⟩ := exists_mem_tipTerm tm hne
    obtain ⟨⟨c, hc⟩, hlead⟩ := hgood q List.prefix_rfl hq
    rw [← hterm]
    exact h.lead_le hc (hlead.subset (hp.subset he))

/-! ## Steps -/

namespace LogInv

/-- A server that is in office after its term has grown was in office before. -/
theorem own_of_le (h : LogInv tm st) (hv : VoteInv qs st) {s : S} {t : ℕ}
    (ht : st.term s ≤ t) (hl : st.leads s t) : st.log s = st.lead t := by
  obtain rfl := le_antisymm ht (hv.leads_le hl)
  exact h.own hl

/-- A step that leaves the logs and the elections alone. -/
theorem of_same (h : LogInv tm st) (hv : VoteInv qs st) (hle : st ≤ st')
    (hlog : st'.log = st.log) (hstood : st'.stood = st.stood) (hleads : st'.leads = st.leads)
    (hlead : st'.lead = st.lead) : LogInv tm st' := by
  refine ⟨fun s => ?_, fun {c t l} hs => ?_, fun {c t} hl => ?_, fun {s e} he => ?_,
    fun {c t l e} hs => ?_, fun {c t e} hl => ?_, fun {c t l} hl hs => ?_, fun {s} hl => ?_⟩
  · rw [hlog]
    exact (h.log_good s).mono hle
  · rw [hstood] at hs
    exact (h.stood_good hs).mono hle
  · rw [hleads] at hl
    rw [hlead]
    exact (h.lead_good hl).mono hle
  · rw [hlog] at he
    exact (h.log_le he).trans (hle.term s)
  · rw [hstood] at hs
    exact h.stood_lt hs
  · rw [hleads] at hl
    rw [hlead]
    exact h.lead_le hl
  · rw [hleads] at hl
    rw [hstood] at hs
    rw [hlead]
    exact h.base hl hs
  · rw [hleads] at hl
    rw [hlog, hlead]
    exact h.own_of_le hv (hle.term s) hl

/-- A bound on the terms of a log holds with one more entry that meets it. -/
theorem le_of_mem_concat {e x : E} {t : ℕ} (hl : x ∈ l → tm x ≤ t) (he : tm e ≤ t)
    (hx : x ∈ l ++ [e]) : tm x ≤ t := by
  rcases List.mem_append.mp hx with hx | hx
  · exact hl hx
  · exact List.mem_singleton.mp hx ▸ he

/-- The log of the leader with one more entry of its term is good. -/
theorem good_append (h : LogInv tm st) {s : S} {e : E} (hle : st ≤ st')
    (hleads : st'.leads s (st.term s)) (he : tm e = st.term s)
    (hlead : st'.lead (st.term s) = st.log s ++ [e]) : Good tm st' (st.log s ++ [e]) := by
  intro p hp hne
  rcases List.prefix_concat_iff.mp hp with rfl | hp
  · rw [tipTerm_concat, he, hlead]
    exact ⟨⟨s, hleads⟩, List.prefix_rfl⟩
  · exact (h.log_good s).mono hle p hp hne

variable [DecidableEq S]

theorem step (h : LogInv tm st) (hv : VoteInv qs st) {s : S} (hs : Step qs tm s st st') :
    LogInv tm st' := by
  have hle := hs.le
  cases hs with
  | bump t ht => exact h.of_same hv hle rfl rfl rfl rfl
  | stand =>
      refine ⟨fun s => (h.log_good s).mono hle, ?_, fun hl => (h.lead_good hl).mono hle,
        fun {v e} he => (h.log_le he).trans (hle.term v), ?_, h.lead_le, ?_,
        fun {v} hl => h.own_of_le hv (hle.term v) hl⟩
      · rintro c t l (hs | ⟨rfl, rfl, rfl⟩)
        · exact (h.stood_good hs).mono hle
        · exact (h.log_good c).mono hle
      · rintro c t l e (hs | ⟨rfl, rfl, rfl⟩) he
        · exact h.stood_lt hs he
        · exact Nat.lt_succ_of_le (h.log_le he)
      · rintro c t l hl (hs | ⟨rfl, rfl, rfl⟩)
        · exact h.base hl hs
        · exact absurd (hv.leads_le hl) (Nat.not_succ_le_self _)
  | grant c l hstood hfree hnew => exact h.of_same hv hle rfl rfl rfl rfl
  | win Q hQ hvotes hstood hfree =>
      -- the log of an earlier leader is not overwritten
      have hold : ∀ {c t}, st.leads c t → Function.update st.lead (st.term s) (st.log s) t =
          st.lead t := by
        intro c t hl
        refine Function.update_of_ne ?_ _ _
        rintro rfl
        exact hfree c hl
      refine ⟨fun s => (h.log_good s).mono hle, fun hs => (h.stood_good hs).mono hle, ?_,
        h.log_le, h.stood_lt, ?_, ?_, ?_⟩
      · rintro c t (hl | ⟨rfl, rfl⟩)
        · exact ((hold hl).symm ▸ h.lead_good hl).mono hle
        · dsimp only
          rw [Function.update_self]
          exact (h.log_good c).mono hle
      · rintro c t e (hl | ⟨rfl, rfl⟩) he
        · exact h.lead_le hl (hold hl ▸ he)
        · dsimp only at he
          rw [Function.update_self] at he
          exact h.log_le he
      · rintro c t l (hl | ⟨rfl, rfl⟩) hs
        · dsimp only
          rw [hold hl]
          exact h.base hl hs
        · dsimp only
          rw [Function.update_self, hv.stood_unique hs hstood]
      · rintro v (hl | ⟨rfl, -⟩)
        · dsimp only
          rw [hold hl]
          exact h.own hl
        · dsimp only
          rw [Function.update_self]
  | append e hlead he =>
      have hown := h.own hlead
      have hnew : Function.update st.lead (st.term s) (st.lead (st.term s) ++ [e]) (st.term s) =
          st.log s ++ [e] := by
        rw [Function.update_self, hown]
      have hgood := h.good_append hle hlead he hnew
      exact
        { log_good := (Function.forall_update_iff st.log fun _ l => Good tm _ l).mpr
            ⟨hgood, fun v _ => (h.log_good v).mono hle⟩
          stood_good := fun hs => (h.stood_good hs).mono hle
          lead_good := fun {c t} => (Function.forall_update_iff st.lead fun t l =>
            st.leads c t → Good tm _ l).mpr
              ⟨fun _ => hown ▸ hgood, fun _ _ hl => (h.lead_good hl).mono hle⟩ t
          log_le := fun {v x} => (Function.forall_update_iff st.log fun v l =>
            x ∈ l → tm x ≤ st.term v).mpr
              ⟨le_of_mem_concat h.log_le he.le, fun _ _ hx => h.log_le hx⟩ v
          stood_lt := h.stood_lt
          lead_le := fun {c t x} => (Function.forall_update_iff st.lead fun t l =>
            st.leads c t → x ∈ l → tm x ≤ t).mpr
              ⟨fun hl => le_of_mem_concat (h.lead_le hl) he.le, fun _ _ hl hx => h.lead_le hl hx⟩ t
          base := fun hl hs => (h.base hl hs).trans (hle.lead hl)
          own := fun {v} => (Function.forall_update_iff st.log fun v l => st.leads v (st.term v) →
            l = Function.update st.lead (st.term s) (st.lead (st.term s) ++ [e]) (st.term v)).mpr
              ⟨fun _ => hnew.symm, fun v hvs hl => by
                -- another leader in office is in another term
                have ht : st.term v ≠ st.term s := fun ht =>
                  hvs (hv.leads_unique (ht ▸ hl) hlead)
                rw [Function.update_of_ne ht]
                exact h.own hl⟩ v }
  | accept c k hlead hne =>
      have hstart := (h.lead_good hlead).start <| List.take_prefix k _
      have hgood := (h.log_good s).adopt hstart
      exact
        { log_good := (Function.forall_update_iff st.log fun _ l => Good tm _ l).mpr
            ⟨hgood.mono hle, fun v _ => (h.log_good v).mono hle⟩
          stood_good := fun hs => (h.stood_good hs).mono hle
          lead_good := fun hl => (h.lead_good hl).mono hle
          log_le := fun {v x} => (Function.forall_update_iff st.log fun v l =>
            x ∈ l → tm x ≤ st.term v).mpr
              ⟨fun hx => (mem_adopt hx).elim h.log_le fun hx =>
                h.lead_le hlead (List.mem_of_mem_take hx), fun _ _ hx => h.log_le hx⟩ v
          stood_lt := h.stood_lt
          lead_le := h.lead_le
          base := h.base
          own := fun {v} => (Function.forall_update_iff st.log fun v l =>
            st.leads v (st.term v) → l = st.lead (st.term v)).mpr
              ⟨fun hl => absurd (hv.leads_unique hlead hl) hne, fun _ _ hl => h.own hl⟩ v }
  | ack c k hlead hk hlog => exact h.of_same hv hle rfl rfl rfl rfl

end LogInv

end

end Ledger

end Consensus

end DistributedLabs
