import Mathlib

/-! Counting the places of a finite family that hold a value of some sort, and adding up a weight of
the values; how the sum follows the change of one place. -/

namespace Gnos.ProofKit

open Function Finset

variable {ι α : Type*} [Fintype ι]

/-- The number of places whose value satisfies `P`. -/
def tally (P : α → Bool) (f : ι → α) : ℕ := (Finset.univ.filter fun i => P (f i)).card

theorem tally_eq_zero {P : α → Bool} {f : ι → α} : tally P f = 0 ↔ ∀ i, P (f i) = false := by
  unfold tally
  rw [card_eq_zero, filter_eq_empty_iff]
  exact ⟨fun h i => Bool.eq_false_iff.mpr (h (mem_univ i)), fun h i _ => Bool.eq_false_iff.mp (h i)⟩

theorem sum_off {κ : Type*} [DecidableEq κ] {S : Finset κ} {k : κ} (h : k ∈ S) {f g : κ → ℕ}
    (hOff : ∀ i ∈ S, i ≠ k → f i = g i) : (∑ i ∈ S, f i) + g k = (∑ i ∈ S, g i) + f k := by
  have hRest : ∑ i ∈ S.erase k, f i = ∑ i ∈ S.erase k, g i :=
    sum_congr rfl fun i hi => hOff i (mem_of_mem_erase hi) (ne_of_mem_erase hi)
  rw [← add_sum_erase S f h, ← add_sum_erase S g h, hRest]
  omega

theorem sum_update {κ : Type*} [DecidableEq κ] {S : Finset κ} {k : κ} (h : k ∈ S) (w : α → ℕ)
    (f : κ → α) (x : α) : (∑ i ∈ S, w (update f k x i)) + w (f k) = (∑ i ∈ S, w (f i)) + w x := by
  have hSum := sum_off h (f := fun i => w (update f k x i)) (g := fun i => w (f i))
    fun i _ hi => congrArg w (update_of_ne hi x f)
  rwa [update_self] at hSum

end Gnos.ProofKit
