import Mathlib

/-!
# Proportional parts

An amount is split by weights, and each part is rounded towards zero. Rounding loses less than one
unit of the total for each part (`sum_share_bounds`), so parts by weights that make up the whole add
up to the amount but for the number of parts (`sum_share_of_total`).
-/

namespace Calibrd.Lib

/-- The part of `amount` for `weight` out of `total`, as machine integers divide. -/
def share (amount total weight : ℤ) : ℤ := (amount * weight).tdiv total

variable {amount total weight : ℤ} {weights : List ℤ}

variable (ha : 0 ≤ amount)

include ha

theorem share_bounds (ht : 0 < total) (hw : 0 ≤ weight) :
    share amount total weight * total ≤ amount * weight ∧
      amount * weight ≤ share amount total weight * total + total := by
  rw [share, Int.tdiv_eq_ediv_of_nonneg (mul_nonneg ha hw)]
  have hdiv := Int.ediv_mul_add_emod (amount * weight) total
  have hpos := Int.emod_nonneg (amount * weight) ht.ne'
  have hlt := Int.emod_lt_of_pos (amount * weight) ht
  constructor <;> omega

/-- The parts together, before the division by the total. -/
theorem sum_share_bounds (ht : 0 < total) (hw : ∀ w ∈ weights, 0 ≤ w) :
    (weights.map (share amount total)).sum * total ≤ amount * weights.sum ∧
      amount * weights.sum ≤
        (weights.map (share amount total)).sum * total + weights.length * total := by
  induction weights with
  | nil => simp
  | cons w weights ih =>
    obtain ⟨hone, hmore⟩ := List.forall_mem_cons.1 hw
    obtain ⟨hle, hge⟩ := ih hmore
    obtain ⟨hle1, hge1⟩ := share_bounds ha ht hone
    simp only [List.map_cons, List.sum_cons, List.length_cons, Nat.cast_add, Nat.cast_one]
    constructor <;> linarith

/-- Weights that make up the total split the amount but for one unit each. -/
theorem sum_share_of_total (ht : 0 < total) (hw : ∀ w ∈ weights, 0 ≤ w)
    (hsum : weights.sum = total) :
    (weights.map (share amount total)).sum ≤ amount ∧
      amount ≤ (weights.map (share amount total)).sum + weights.length := by
  obtain ⟨hle, hge⟩ := sum_share_bounds ha ht hw
  rw [hsum] at hle hge
  rw [← add_mul] at hge
  exact ⟨le_of_mul_le_mul_right hle ht, le_of_mul_le_mul_right hge ht⟩

end Calibrd.Lib
