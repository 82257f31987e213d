/-
**Quorums.**

A quorum system is a family of finite sets any two of which meet.  The majorities of a finite set
are the standard example, and the only one used here; protocols are proved for any quorum system.

Main definitions:

* `QuorumSystem` — sets that pairwise meet;
* `QuorumSystem.majority` — the majorities of a finite set.

Main results:

* `QuorumSystem.exists_mem_of_card` — a set and a quorum that together are larger than the whole
  meet, as a count.
-/

import Mathlib.Data.Finset.Card
import Mathlib.Tactic.Common

set_option relaxedAutoImplicit false
set_option autoImplicit false

/-- A family of finite sets any two of which meet. -/
structure QuorumSystem (N : Type) where
  IsQuorum : Finset N → Prop
  meet : ∀ {Q Q' : Finset N}, IsQuorum Q → IsQuorum Q' → ∃ v, v ∈ Q ∧ v ∈ Q'

namespace QuorumSystem

variable {N : Type} [DecidableEq N]

/-- Two subsets whose sizes add up to more than the whole meet. -/
theorem exists_mem_of_card {nodes Q Q' : Finset N} (hQ : Q ⊆ nodes) (hQ' : Q' ⊆ nodes)
    (h : nodes.card < Q.card + Q'.card) : ∃ v, v ∈ Q ∧ v ∈ Q' := by
  by_contra hno
  have hdisj : Disjoint Q Q' := by
    rw [Finset.disjoint_left]
    intro v hv hv'
    exact hno ⟨v, hv, hv'⟩
  have hcard : (Q ∪ Q').card ≤ nodes.card := Finset.card_le_card (Finset.union_subset hQ hQ')
  rw [Finset.card_union_of_disjoint hdisj] at hcard
  omega

/-- **The majorities** of a finite set. -/
def majority (nodes : Finset N) : QuorumSystem N where
  IsQuorum Q := Q ⊆ nodes ∧ nodes.card / 2 + 1 ≤ Q.card
  meet := by
    rintro Q Q' ⟨hQ, hc⟩ ⟨hQ', hc'⟩
    exact exists_mem_of_card hQ hQ' (by omega)

theorem majority_iff {nodes Q : Finset N} :
    (majority nodes).IsQuorum Q ↔ Q ⊆ nodes ∧ nodes.card / 2 + 1 ≤ Q.card := Iff.rfl

end QuorumSystem
