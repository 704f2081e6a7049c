import Mathlib.Data.Fintype.Card

/-!
# Quorum systems

A quorum system is a family of server sets any two of which meet. The strict
majorities of `n` servers form one.
-/

namespace DistributedLabs

/-- A family of server sets any two of which share a server. -/
structure QuorumSystem (S : Type*) where
  IsQuorum : Finset S → Prop
  inter : ∀ {Q Q' : Finset S}, IsQuorum Q → IsQuorum Q' → ∃ s, s ∈ Q ∧ s ∈ Q'

/-- The strict majorities of `n` servers. -/
def majority (n : ℕ) : QuorumSystem (Fin n) where
  IsQuorum Q := n / 2 < Q.card
  inter := by
    intro Q Q' h h'
    have hcard : (Finset.univ : Finset (Fin n)).card < Q.card + Q'.card := by
      rw [Finset.card_univ, Fintype.card_fin]
      omega
    obtain ⟨s, hs⟩ := Finset.inter_nonempty_of_card_lt_card_add_card
      (Finset.subset_univ Q) (Finset.subset_univ Q') hcard
    exact ⟨s, Finset.mem_inter.mp hs⟩

end DistributedLabs
