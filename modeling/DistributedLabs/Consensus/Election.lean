import DistributedLabs.Consensus.Ledger

/-!
# Elections in a ledger

A server votes once in a term, for a candidate that has stood in it, and the
leader of a term has the votes of a quorum. Since quorums intersect, a term has
at most one leader.
-/

namespace DistributedLabs

namespace Consensus

namespace Ledger

variable {S E : Type*} {qs : QuorumSystem S} {tm : E → ℕ}

theorem le_update [DecidableEq S] {f : S → ℕ} {s : S} {t : ℕ} (ht : f s ≤ t) (v : S) :
    f v ≤ Function.update f s t v := by
  by_cases hv : v = s
  · subst hv
    rwa [Function.update_self]
  · rw [Function.update_of_ne hv]

/-- Every step leads to a later state. -/
theorem Step.le [DecidableEq S] {s : S} {st st' : Ledger S E} (h : Step qs tm s st st') :
    st ≤ st' := by
  have hrfl : ∀ {c t}, st.leads c t → st.lead t <+: st.lead t := fun _ => List.prefix_rfl
  cases h with
  | bump t ht => exact ⟨le_update ht, id, id, id, hrfl, id⟩
  | stand => exact ⟨le_update (Nat.le_succ _), Or.inl, Or.inl, id, hrfl, id⟩
  | grant c l hstood hfree hnew => exact ⟨fun _ => le_rfl, Or.inl, id, id, hrfl, id⟩
  | win Q hQ hvotes hstood hfree =>
      refine ⟨fun _ => le_rfl, id, id, Or.inl, fun {c t} hl => ?_, id⟩
      have ht : t ≠ st.term s := fun ht => hfree c (ht ▸ hl)
      dsimp only
      rw [Function.update_of_ne ht]
  | append e hlead he =>
      refine ⟨fun _ => le_rfl, id, id, id, fun {c t} hl => ?_, id⟩
      dsimp only
      by_cases ht : t = st.term s
      · subst ht
        rw [Function.update_self]
        exact List.prefix_append _ _
      · rw [Function.update_of_ne ht]
  | accept c k hlead hne => exact ⟨fun _ => le_rfl, id, id, id, hrfl, id⟩
  | ack c k hlead hk hlog => exact ⟨fun _ => le_rfl, id, id, id, hrfl, Or.inl⟩

/-- A step touches only the server that takes it. -/
structure Frame (s : S) (st st' : Ledger S E) : Prop where
  term : ∀ {v}, v ≠ s → st'.term v = st.term v
  log : ∀ {v}, v ≠ s → st'.log v = st.log v
  votes : ∀ {v t c}, v ≠ s → st'.votes v t c → st.votes v t c
  leads : ∀ {v t}, v ≠ s → st'.leads v t → st.leads v t

theorem Frame.refl (s : S) (st : Ledger S E) : Frame s st st :=
  ⟨fun _ => rfl, fun _ => rfl, fun _ => id, fun _ => id⟩

theorem Frame.trans {s : S} {st st₁ st₂ : Ledger S E} (h : Frame s st st₁) (h' : Frame s st₁ st₂) :
    Frame s st st₂ :=
  ⟨fun hv => (h'.term hv).trans (h.term hv), fun hv => (h'.log hv).trans (h.log hv),
    fun hv hc => h.votes hv (h'.votes hv hc), fun hv hc => h.leads hv (h'.leads hv hc)⟩

theorem Step.frame [DecidableEq S] {s : S} {st st' : Ledger S E} (h : Step qs tm s st st') :
    Frame s st st' := by
  have hother : ∀ {v t : S} {p : Prop}, v ≠ t → (v = t ∧ p) → False := fun hv hp => hv hp.1
  cases h with
  | bump t ht =>
      exact ⟨fun hv => Function.update_of_ne hv _ _, fun _ => rfl, fun _ => id, fun _ => id⟩
  | stand =>
      refine ⟨fun hv => Function.update_of_ne hv _ _, fun _ => rfl, fun hv hc => ?_, fun _ => id⟩
      exact hc.resolve_right (hother hv)
  | grant c l hstood hfree hnew =>
      exact ⟨fun _ => rfl, fun _ => rfl, fun hv hc => hc.resolve_right (hother hv), fun _ => id⟩
  | win Q hQ hvotes hstood hfree =>
      exact ⟨fun _ => rfl, fun _ => rfl, fun _ => id, fun hv hc => hc.resolve_right (hother hv)⟩
  | append e hlead he =>
      exact ⟨fun _ => rfl, fun hv => Function.update_of_ne hv _ _, fun _ => id, fun _ => id⟩
  | accept c k hlead hne =>
      exact ⟨fun _ => rfl, fun hv => Function.update_of_ne hv _ _, fun _ => id, fun _ => id⟩
  | ack c k hlead hk hlog => exact ⟨fun _ => rfl, fun _ => rfl, fun _ => id, fun _ => id⟩

/-! ## Votes -/

variable (qs) in
/-- The votes, the candidates and the leaders of a ledger are consistent. -/
structure VoteInv (st : Ledger S E) : Prop where
  votes_le : ∀ {v t c}, st.votes v t c → t ≤ st.term v
  votes_unique : ∀ {v t c c'}, st.votes v t c → st.votes v t c' → c = c'
  votes_stood : ∀ {v t c}, st.votes v t c → ∃ l, st.stood c t l
  stood_le : ∀ {c t l}, st.stood c t l → t ≤ st.term c
  stood_unique : ∀ {c t l l'}, st.stood c t l → st.stood c t l' → l = l'
  quorum : ∀ {c t}, st.leads c t → ∃ Q, qs.IsQuorum Q ∧ ∀ v ∈ Q, st.votes v t c

theorem voteInv_init : VoteInv qs (init S E) :=
  ⟨False.elim, False.elim, False.elim, False.elim, False.elim, False.elim⟩

namespace VoteInv

variable {st st' : Ledger S E}

/-- A term has at most one leader. -/
theorem leads_unique (h : VoteInv qs st) {c c' : S} {t : ℕ} (hc : st.leads c t)
    (hc' : st.leads c' t) : c = c' := by
  obtain ⟨Q, hQ, hvotes⟩ := h.quorum hc
  obtain ⟨Q', hQ', hvotes'⟩ := h.quorum hc'
  obtain ⟨v, hv, hv'⟩ := qs.inter hQ hQ'
  exact h.votes_unique (hvotes v hv) (hvotes' v hv')

theorem leads_stood (h : VoteInv qs st) {c : S} {t : ℕ} (hc : st.leads c t) :
    ∃ l, st.stood c t l := by
  obtain ⟨Q, hQ, hvotes⟩ := h.quorum hc
  obtain ⟨v, hv, -⟩ := qs.inter hQ hQ
  exact h.votes_stood (hvotes v hv)

theorem leads_le (h : VoteInv qs st) {c : S} {t : ℕ} (hc : st.leads c t) : t ≤ st.term c := by
  obtain ⟨l, hl⟩ := h.leads_stood hc
  exact h.stood_le hl

/-- A step that leaves the votes and the candidates alone. -/
theorem of_same (h : VoteInv qs st) (hterm : ∀ v, st.term v ≤ st'.term v)
    (hvotes : st'.votes = st.votes) (hstood : st'.stood = st.stood)
    (hleads : ∀ {c t}, st'.leads c t → ∃ Q, qs.IsQuorum Q ∧ ∀ v ∈ Q, st.votes v t c) :
    VoteInv qs st' := by
  refine ⟨fun {v t c} hv => ?_, fun {v t c c'} hv hv' => ?_, fun {v t c} hv => ?_,
    fun {c t l} hs => ?_, fun {c t l l'} hs hs' => ?_, fun {c t} hl => ?_⟩
  · rw [hvotes] at hv
    exact (h.votes_le hv).trans (hterm v)
  · rw [hvotes] at hv hv'
    exact h.votes_unique hv hv'
  · rw [hvotes] at hv
    rw [hstood]
    exact h.votes_stood hv
  · rw [hstood] at hs
    exact (h.stood_le hs).trans (hterm c)
  · rw [hstood] at hs hs'
    exact h.stood_unique hs hs'
  · rw [hvotes]
    exact hleads hl

theorem grant (h : VoteInv qs st) {s c : S} {l : List E} (hstood : st.stood c (st.term s) l)
    (hfree : ∀ c', st.votes s (st.term s) c' → c' = c) : VoteInv qs { st with
      votes := fun v t c' => st.votes v t c' ∨ (v = s ∧ t = st.term s ∧ c' = c) } := by
  refine ⟨?_, ?_, ?_, h.stood_le, h.stood_unique, fun {c t} hl => ?_⟩
  · rintro v t c' (hv | ⟨rfl, rfl, rfl⟩)
    · exact h.votes_le hv
    · exact le_rfl
  · rintro v t c₁ c₂ (hv | ⟨rfl, rfl, rfl⟩) (hv' | ⟨hs, ht, rfl⟩)
    · exact h.votes_unique hv hv'
    · subst hs ht
      exact hfree _ hv
    · exact (hfree _ hv').symm
    · rfl
  · rintro v t c' (hv | ⟨rfl, rfl, rfl⟩)
    · exact h.votes_stood hv
    · exact ⟨l, hstood⟩
  · obtain ⟨Q, hQ, hvotes⟩ := h.quorum hl
    exact ⟨Q, hQ, fun v hv => Or.inl (hvotes v hv)⟩

variable [DecidableEq S]

theorem stand (h : VoteInv qs st) (s : S) : VoteInv qs { st with
    term := Function.update st.term s (st.term s + 1)
    votes := fun v t c => st.votes v t c ∨ (v = s ∧ t = st.term s + 1 ∧ c = s)
    stood := fun c t l => st.stood c t l ∨ (c = s ∧ t = st.term s + 1 ∧ l = st.log s) } := by
  have hle := le_update (Nat.le_succ (st.term s))
  -- nobody has voted or stood in a term the server has not reached
  have hvote : ∀ {c}, ¬ st.votes s (st.term s + 1) c := fun hv =>
    Nat.not_succ_le_self _ (h.votes_le hv)
  have hstood : ∀ {l}, ¬ st.stood s (st.term s + 1) l := fun hs =>
    Nat.not_succ_le_self _ (h.stood_le hs)
  refine ⟨?_, ?_, ?_, ?_, ?_, fun {c t} hl => ?_⟩
  · rintro v t c (hv | ⟨rfl, rfl, rfl⟩)
    · exact (h.votes_le hv).trans (hle v)
    · simp
  · rintro v t c c' (hv | ⟨rfl, rfl, rfl⟩) (hv' | ⟨hs, ht, rfl⟩)
    · exact h.votes_unique hv hv'
    · subst hs ht
      exact absurd hv hvote
    · exact absurd hv' hvote
    · rfl
  · rintro v t c (hv | ⟨rfl, rfl, rfl⟩)
    · obtain ⟨l, hl⟩ := h.votes_stood hv
      exact ⟨l, Or.inl hl⟩
    · exact ⟨_, Or.inr ⟨rfl, rfl, rfl⟩⟩
  · rintro c t l (hs | ⟨rfl, rfl, rfl⟩)
    · exact (h.stood_le hs).trans (hle c)
    · simp
  · rintro c t l l' (hs | ⟨rfl, rfl, rfl⟩) (hs' | ⟨hc, ht, rfl⟩)
    · exact h.stood_unique hs hs'
    · subst hc ht
      exact absurd hs hstood
    · exact absurd hs' hstood
    · rfl
  · obtain ⟨Q, hQ, hvotes⟩ := h.quorum hl
    exact ⟨Q, hQ, fun v hv => Or.inl (hvotes v hv)⟩

theorem step (h : VoteInv qs st) {s : S} (hs : Step qs tm s st st') : VoteInv qs st' := by
  have hle := hs.le
  cases hs with
  | bump t ht => exact h.of_same hle.term rfl rfl h.quorum
  | stand => exact h.stand s
  | grant c l hstood hfree hnew => exact h.grant hstood hfree
  | win Q hQ hvotes hstood hfree =>
      refine h.of_same hle.term rfl rfl ?_
      rintro c t (hl | ⟨rfl, rfl⟩)
      · exact h.quorum hl
      · exact ⟨Q, hQ, hvotes⟩
  | append e hlead he => exact h.of_same hle.term rfl rfl h.quorum
  | accept c k hlead hne => exact h.of_same hle.term rfl rfl h.quorum
  | ack c k hlead hk hlog => exact h.of_same hle.term rfl rfl h.quorum

end VoteInv

end Ledger

end Consensus

end DistributedLabs
