import DistributedLabs.Consensus.Ledger
import Mathlib.Data.List.Pairwise

/-!
# Backing up to where two logs agree

A leader looks for an index up to which the log of a follower agrees with its own,
and sends everything after it. The follower has compacted its log up to `cut` and
the leader has compacted its own up to `leadCut`, so neither can look at all of its
log. A probe of the leader settles the search or moves the index from which it
tries next; `Moves` lists how. `Pair.Converges` says from which indices the search
settles: a probe leads from such an index only to such an index, of smaller weight,
and from the other indices only to the others.
-/

namespace DistributedLabs

namespace Consensus

variable {E : Type*}

/-! ## Terms by index -/

section

variable {tm : E → ℕ} {l m : List E} {i j : ℕ}

/-- The term of the entry at an index counted from 1, and 0 at index 0. -/
def termAt (tm : E → ℕ) (l : List E) (i : ℕ) : ℕ := tipTerm tm (l.take i)

theorem termAt_zero : termAt tm l 0 = 0 := rfl

theorem exists_termAt (tm : E → ℕ) (hpos : 0 < i) (hi : i ≤ l.length) :
    ∃ e, l[i - 1]? = some e ∧ termAt tm l i = tm e := by
  obtain ⟨k, rfl⟩ : ∃ k, i = k + 1 := ⟨i - 1, by omega⟩
  have hk : l[k]? = some l[k] := List.getElem?_eq_getElem (by omega)
  exact ⟨l[k], hk, tipTerm_take_succ tm hk⟩

/-- Logs that agree up to an index have the same terms up to it. -/
theorem termAt_eq_of_take (h : l.take i = m.take i) (hj : j ≤ i) :
    termAt tm l j = termAt tm m j := by
  have htake := congrArg (List.take j) h
  rw [List.take_take, List.take_take, Nat.min_eq_left hj] at htake
  rw [termAt, htake, termAt]

theorem termAt_pos (hterms : ∀ e ∈ l, 1 ≤ tm e) (hpos : 0 < i) (hi : i ≤ l.length) :
    1 ≤ termAt tm l i := by
  obtain ⟨e, he, hterm⟩ := exists_termAt tm hpos hi
  rw [hterm]
  exact hterms e (List.mem_of_getElem? he)

theorem termAt_mono (hterms : l.Pairwise fun e e' => tm e ≤ tm e') (hij : i ≤ j)
    (hj : j ≤ l.length) : termAt tm l i ≤ termAt tm l j := by
  rcases Nat.eq_zero_or_pos i with rfl | hpos
  · exact Nat.zero_le _
  rcases hij.lt_or_eq with hlt | rfl
  · obtain ⟨e, he, hterm⟩ := exists_termAt tm hpos (hij.trans hj)
    obtain ⟨e', he', hterm'⟩ := exists_termAt tm (hpos.trans_le hij) hj
    obtain ⟨hi, rfl⟩ := List.getElem?_eq_some_iff.mp he
    obtain ⟨hj, rfl⟩ := List.getElem?_eq_some_iff.mp he'
    rw [hterm, hterm']
    exact List.pairwise_iff_getElem.mp hterms _ _ hi hj (by omega)
  · exact le_rfl

end

/-! ## Two logs of one cluster -/

/-- What one leader in each term guarantees of two logs. -/
structure Related (tm : E → ℕ) (l m : List E) : Prop where
  pos_left : ∀ e ∈ l, 1 ≤ tm e
  pos_right : ∀ e ∈ m, 1 ≤ tm e
  mono_left : l.Pairwise fun e e' => tm e ≤ tm e'
  mono_right : m.Pairwise fun e e' => tm e ≤ tm e'
  /-- Entries of one term at one index have the same log below them. -/
  matching : ∀ ⦃i e e'⦄, l[i]? = some e → m[i]? = some e' → tm e = tm e' →
    l.take (i + 1) = m.take (i + 1)
  /-- A term that both logs have starts at one index in both. -/
  start : ∀ t, (∃ e ∈ l, tm e = t) → (∃ e ∈ m, tm e = t) →
    l.findIdx (fun e => tm e = t) = m.findIdx (fun e => tm e = t)

namespace Related

variable {tm : E → ℕ} {l m : List E} {c i prev q : ℕ}

theorem take_eq (h : Related tm l m) (hi : i ≤ l.length) (hi' : i ≤ m.length)
    (hterm : termAt tm l i = termAt tm m i) : l.take i = m.take i := by
  rcases Nat.eq_zero_or_pos i with rfl | hpos
  · rw [List.take_zero, List.take_zero]
  obtain ⟨e, he, hte⟩ := exists_termAt tm hpos hi
  obtain ⟨e', he', hte'⟩ := exists_termAt tm hpos hi'
  have htake := h.matching he he' (hte.symm.trans (hterm.trans hte'))
  rwa [Nat.sub_add_cancel hpos] at htake

/-- The first index of a term, if the term occurs at `q` in one log and at `prev` in
the other. -/
theorem exists_start (h : Related tm l m) (hq : 0 < q) (hql : q ≤ l.length) (hprev : 0 < prev)
    (hpm : prev ≤ m.length) (hterm : termAt tm l q = termAt tm m prev) :
    ∃ i, i ≤ q ∧ i ≤ prev ∧ termAt tm l i = termAt tm m prev ∧
      termAt tm m i = termAt tm m prev := by
  have hfirst : ∀ {l' : List E} {k : ℕ}, 0 < k → k ≤ l'.length →
      termAt tm l' k = termAt tm m prev → (∃ e ∈ l', tm e = termAt tm m prev) ∧
        l'.findIdx (fun e => tm e = termAt tm m prev) < k ∧
        termAt tm l' (l'.findIdx (fun e => tm e = termAt tm m prev) + 1) =
          termAt tm m prev := by
    intro l' k hk hlen ht
    obtain ⟨e, he, hte⟩ := exists_termAt tm hk hlen
    have hmem : ∃ e ∈ l', tm e = termAt tm m prev :=
      ⟨e, List.mem_of_getElem? he, hte.symm.trans ht⟩
    obtain ⟨hlt, rfl⟩ := List.getElem?_eq_some_iff.mp he
    have hle : l'.findIdx (fun e => tm e = termAt tm m prev) ≤ k - 1 := by
      by_contra hcon
      exact of_decide_eq_false (List.not_of_lt_findIdx (Nat.not_le.mp hcon)) (hte.symm.trans ht)
    have hlt' := hle.trans_lt hlt
    refine ⟨hmem, by omega, ?_⟩
    have hget := List.findIdx_getElem (w := hlt')
    rw [termAt, tipTerm_take_succ tm (List.getElem?_eq_getElem hlt')]
    exact of_decide_eq_true hget
  obtain ⟨hl, hltq, hlterm⟩ := hfirst hq hql hterm
  obtain ⟨hm, hltp, hmterm⟩ := hfirst hprev hpm rfl
  have heq := h.start _ hl hm
  refine ⟨_, hltq, ?_, hlterm, ?_⟩
  · rw [heq]
    exact hltp
  · rw [heq]
    exact hmterm

/-- Where the logs differ at `prev`, an entry of `l` with the term that `m` has there
lies below `prev`, and the logs agree up to it. -/
theorem shared (h : Related tm l m) (hq : q ≤ l.length) (hpl : prev ≤ l.length)
    (hpm : prev ≤ m.length) (hterm : termAt tm l q = termAt tm m prev)
    (hne : termAt tm l prev ≠ termAt tm m prev) : q < prev ∧ l.take q = m.take q := by
  have hprev : 0 < prev := by
    rcases Nat.eq_zero_or_pos prev with rfl | hpos
    · exact absurd rfl hne
    · exact hpos
  have hqpos : 0 < q := by
    rcases Nat.eq_zero_or_pos q with rfl | hpos
    · have := termAt_pos h.pos_right hprev hpm
      rw [← hterm, termAt_zero] at this
      omega
    · exact hpos
  obtain ⟨i, hiq, hip, hil, him⟩ := h.exists_start hqpos hq hprev hpm hterm
  have hlt : q < prev := by
    by_contra hcon
    have h₁ := termAt_mono h.mono_left hip hpl
    have h₂ := termAt_mono h.mono_left (Nat.not_lt.mp hcon) hq
    omega
  have h₁ := termAt_mono h.mono_right hiq (hlt.le.trans hpm)
  have h₂ := termAt_mono h.mono_right hlt.le hpm
  exact ⟨hlt, h.take_eq hq (hlt.le.trans hpm) (by omega)⟩

/-- The last entry of `l` with a term that `m` has above a common start is not below
that start. -/
theorem le_of_last (h : Related tm l m) (hcl : c ≤ l.length) (hagree : l.take c = m.take c)
    (hc : c < prev) (hpm : prev ≤ m.length) (hterm : termAt tm l q = termAt tm m prev)
    (hlast : ∀ i, q < i → i ≤ l.length → termAt tm l i ≠ termAt tm m prev) : c ≤ q := by
  by_contra hcon
  refine hlast c (Nat.not_le.mp hcon) hcl ?_
  have h₁ := termAt_mono h.mono_left (Nat.not_le.mp hcon).le hcl
  have h₂ := termAt_mono h.mono_right hc.le hpm
  have h₃ : termAt tm l c = termAt tm m c := termAt_eq_of_take hagree le_rfl
  omega

end Related

/-! ## The search -/

/-- The log of a leader and the log of a follower, compacted up to `leadCut` and
`cut`. The follower has committed up to `commit`, and the logs agree so far. -/
structure Pair (tm : E → ℕ) where
  lead : List E
  log : List E
  leadCut : ℕ
  cut : ℕ
  commit : ℕ
  related : Related tm lead log
  leadCut_le : leadCut ≤ lead.length
  cut_le : cut ≤ commit
  commit_le_lead : commit ≤ lead.length
  commit_le_log : commit ≤ log.length
  agree : lead.take commit = log.take commit

namespace Pair

variable {tm : E → ℕ} (w : Pair tm)

/-- The follower takes entries after `prev`. -/
structure Fits (prev : ℕ) : Prop where
  leadCut_le : w.leadCut ≤ prev
  cut_le : w.cut ≤ prev
  le_log : prev ≤ w.log.length
  term_eq : termAt tm w.lead prev = termAt tm w.log prev

/-- The follower has an entry of another term at `prev`. -/
structure Conflicts (prev : ℕ) : Prop where
  leadCut_le : w.leadCut ≤ prev
  cut_le : w.cut ≤ prev
  le_lead : prev ≤ w.lead.length
  le_log : prev ≤ w.log.length
  term_ne : termAt tm w.lead prev ≠ termAt tm w.log prev

/-- The probe from `next` is not the last one, and the next one is from `next'`. -/
inductive Moves : ℕ → ℕ → Prop where
  /-- The leader has compacted `next`, and the follower does not need its snapshot. -/
  | offered {next : ℕ} (hnext : next ≤ w.leadCut) (hcommit : w.leadCut ≤ w.commit) :
      Moves next (w.leadCut + 1)
  /-- The follower has compacted `prev` and reports nothing. -/
  | below {prev : ℕ} (hlead : w.leadCut ≤ prev) (hcut : prev < w.cut) : Moves (prev + 1) 0
  /-- The log of the follower ends below `prev`. -/
  | short {prev : ℕ} (hlead : w.leadCut ≤ prev) (hlen : prev ≤ w.lead.length)
      (hlog : w.log.length < prev) : Moves (prev + 1) (w.log.length + 1)
  /-- The leader goes to its last entry of the term that the follower has. -/
  | shared {prev q : ℕ} (h : w.Conflicts prev) (hlead : w.leadCut ≤ q) (hlen : q ≤ w.lead.length)
      (hterm : termAt tm w.lead q = termAt tm w.log prev)
      (hlast : ∀ i, q < i → i ≤ w.lead.length → termAt tm w.lead i ≠ termAt tm w.log prev) :
      Moves (prev + 1) q
  /-- The leader has no entry of that term and goes to one at which the follower has
  it. -/
  | foreign {prev first : ℕ} (h : w.Conflicts prev)
      (hnone : ∀ i, w.leadCut ≤ i → i ≤ w.lead.length →
        termAt tm w.lead i ≠ termAt tm w.log prev)
      (hcommit : w.commit < first) (hle : first ≤ prev)
      (hterm : termAt tm w.log first = termAt tm w.log prev) : Moves (prev + 1) first

/-- The follower has compacted all that it has committed and continues the term of
its snapshot point above it, where the leader has another term. The leader does not
have the snapshot point compacted, and goes back to it if it probes above. -/
structure Bounced (next : ℕ) : Prop where
  cut_eq : w.cut = w.commit
  lt_next : w.commit + 1 < next
  lt_log : w.commit < w.log.length
  continued : termAt tm w.log (w.commit + 1) = termAt tm w.log w.commit
  replaced : termAt tm w.lead (w.commit + 1) ≠ termAt tm w.log (w.commit + 1)

/-- The search from `next` comes to an end. -/
def Converges (next : ℕ) : Prop :=
  w.cut ≤ w.leadCut ∨ (w.cut < next ∧ ¬ w.Bounced next)

/-- What becomes smaller with every probe of a search that comes to an end. -/
def weight (next : ℕ) : ℕ :=
  if next ≤ w.leadCut then if w.commit < w.leadCut then 0 else 2 * w.leadCut + 3
  else 2 * next

variable {w} {next next' prev : ℕ}

theorem fits_of_le_commit (hlead : w.leadCut ≤ prev) (hcut : w.cut ≤ prev)
    (hcommit : prev ≤ w.commit) : w.Fits prev :=
  ⟨hlead, hcut, hcommit.trans w.commit_le_log, termAt_eq_of_take w.agree hcommit⟩

theorem Conflicts.commit_lt (h : w.Conflicts prev) : w.commit < prev := by
  by_contra hcon
  exact h.term_ne (fits_of_le_commit h.leadCut_le h.cut_le (Nat.not_lt.mp hcon)).term_eq

theorem Fits.take_eq (h : w.Fits prev) (hlen : prev ≤ w.lead.length) :
    w.lead.take prev = w.log.take prev :=
  w.related.take_eq hlen h.le_log h.term_eq

/-- An index at which the logs agree is not above a bounced snapshot point. -/
theorem Bounced.not_agree (h : w.Bounced next) {i : ℕ} (hi : w.commit < i) :
    w.lead.take i ≠ w.log.take i :=
  fun hagree => h.replaced (termAt_eq_of_take hagree hi)

theorem Bounced.mono (h : w.Bounced next) (hnext : w.commit + 1 < next') : w.Bounced next' :=
  { h with lt_next := hnext }

/-- A probe that the follower accepts is from an index at which the search ends. -/
theorem Fits.converges (h : w.Fits prev) (hlen : prev ≤ w.lead.length) :
    w.Converges (prev + 1) := by
  refine Or.inr ⟨Nat.lt_succ_of_le h.cut_le, fun hb => ?_⟩
  have hlt := hb.lt_next
  exact hb.not_agree (by omega) (h.take_eq hlen)

/-- The follower takes the snapshot over only where the search ends. -/
theorem converges_of_commit_lt (h : w.commit < w.leadCut) : w.Converges next :=
  Or.inl (w.cut_le.trans h.le)

theorem Moves.converges (hmoves : w.Moves next next') (h : w.Converges next) :
    w.Converges next' := by
  rcases h with h | ⟨hcut, hnot⟩
  · exact Or.inl h
  by_cases hle : w.cut ≤ w.leadCut
  · exact Or.inl hle
  refine Or.inr ?_
  have hcommit := w.cut_le
  cases hmoves with
  | offered hnext _ => omega
  | below _ hbelow => omega
  | short _ _ hlog =>
      have hlen := w.commit_le_log
      exact ⟨by omega, fun hb => hnot (hb.mono (by have := hb.lt_next; omega))⟩
  | @shared prev _ hc _ hlen hterm hlast =>
      have hlt := hc.commit_lt
      obtain ⟨hqp, htake⟩ := w.related.shared hlen hc.le_lead hc.le_log hterm hc.term_ne
      have hcq := w.related.le_of_last w.commit_le_lead w.agree hlt hc.le_log hterm hlast
      refine ⟨?_, fun hb => hb.not_agree (by have := hb.lt_next; omega) htake⟩
      by_contra hcon
      -- the leader is sent back to the snapshot point of the follower
      obtain rfl : next' = w.commit := by omega
      have hsame : termAt tm w.lead w.commit = termAt tm w.log w.commit :=
        termAt_eq_of_take w.agree le_rfl
      have hlow : termAt tm w.log w.commit ≤ termAt tm w.log (w.commit + 1) :=
        termAt_mono w.related.mono_right (Nat.le_succ _) (hlt.trans_le hc.le_log)
      have hhigh : termAt tm w.log (w.commit + 1) ≤ termAt tm w.log prev :=
        termAt_mono w.related.mono_right hlt hc.le_log
      have hreplaced := hlast (w.commit + 1) (Nat.lt_succ_self _) (hlt.trans_le hc.le_lead)
      exact hnot ⟨by omega, by omega, hlt.trans_le hc.le_log, by omega, by omega⟩
  | foreign hc _ hfirst hle _ =>
      exact ⟨by omega, fun hb => hnot (hb.mono (by have := hb.lt_next; omega))⟩

theorem Moves.of_converges (hmoves : w.Moves next next') (h : w.Converges next') :
    w.Converges next := by
  rcases h with h | ⟨hcut, hnot⟩
  · exact Or.inl h
  by_cases hle : w.cut ≤ w.leadCut
  · exact Or.inl hle
  have hcommit := w.cut_le
  cases hmoves with
  | offered hnext _ => omega
  | below _ hbelow => omega
  | short _ _ hlog =>
      have hlen := w.commit_le_log
      refine Or.inr ⟨by omega, fun hb => hnot (hb.mono ?_)⟩
      have := hb.lt_log
      omega
  | shared hc _ hlen hterm hlast =>
      have hlt := hc.commit_lt
      obtain ⟨hqp, htake⟩ := w.related.shared hlen hc.le_lead hc.le_log hterm hc.term_ne
      refine Or.inr ⟨by omega, fun hb => hb.not_agree ?_ htake⟩
      rw [← hb.cut_eq]
      exact hcut
  | @foreign prev _ hc hnone hfirst hle hterm =>
      refine Or.inr ⟨by omega, fun hb => hnot (hb.mono ?_)⟩
      by_contra hcon
      -- the leader has the term at the snapshot point, which lies above its own
      obtain rfl : next' = w.commit + 1 := by omega
      have hsame : termAt tm w.lead w.commit = termAt tm w.log w.commit :=
        termAt_eq_of_take w.agree le_rfl
      exact hnone w.commit (by omega) w.commit_le_lead (hsame.trans (hb.continued.symm.trans hterm))

/-- From above both snapshot points the leader always goes back, and never behind its
first entry. -/
theorem Moves.back (hmoves : w.Moves next next') (hlead : w.leadCut < next) (hcut : w.cut < next) :
    0 < next' ∧ next' < next := by
  cases hmoves with
  | offered hnext _ => omega
  | below _ hbelow => omega
  | short _ _ hlog => omega
  | @shared prev _ hc _ hlen hterm _ =>
      have hlt := (w.related.shared hlen hc.le_lead hc.le_log hterm hc.term_ne).1
      refine ⟨Nat.pos_of_ne_zero ?_, by omega⟩
      rintro rfl
      -- there is no term 0 in the log of the follower
      have hpos := termAt_pos w.related.pos_right hlt hc.le_log
      rw [← hterm, termAt_zero] at hpos
      omega
  | foreign _ _ hcommit hle _ => omega

theorem Moves.weight_lt (hmoves : w.Moves next next') (h : w.Converges next) :
    w.weight next' < w.weight next := by
  -- what a probe above both snapshot points reports lies below it
  have hback : ∀ {prev next' : ℕ}, w.leadCut ≤ prev → w.commit < prev → next' ≤ prev →
      w.weight next' < w.weight (prev + 1) := by
    intro prev next' hlead hcommit hle
    unfold weight
    rw [if_neg (by omega : ¬ prev + 1 ≤ w.leadCut)]
    split
    · split <;> omega
    · omega
  cases hmoves with
  | offered hnext hcommit =>
      unfold weight
      rw [if_pos hnext, if_neg (Nat.not_lt.mpr hcommit), if_neg (by omega)]
      omega
  | below hlead hcut =>
      rcases h with h | ⟨h, -⟩ <;> omega
  | short hlead hlen hlog =>
      have := w.commit_le_log
      exact hback hlead (by omega) hlog
  | shared hc _ hlen hterm _ =>
      exact hback hc.leadCut_le hc.commit_lt
        (w.related.shared hlen hc.le_lead hc.le_log hterm hc.term_ne).1.le
  | foreign hc _ _ hle _ => exact hback hc.leadCut_le hc.commit_lt hle

theorem Moves.le (hmoves : w.Moves next next') : next' ≤ w.lead.length + 1 := by
  cases hmoves with
  | offered _ _ => exact Nat.succ_le_succ w.leadCut_le
  | below _ _ => exact Nat.zero_le _
  | short _ hlen hlog => omega
  | shared _ _ hlen _ _ => omega
  | foreign hc _ _ hle _ => exact (hle.trans hc.le_lead).trans (Nat.le_succ _)

end Pair

end Consensus

end DistributedLabs
