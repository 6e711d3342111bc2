import Mathlib

/-!
# Payment by installments

An amount that is paid at a fixed rate: full installments, and a last one with the remainder, if there
is one. Whoever pays one installment after the other needs the rest only (`installments_of_pos`).
-/

namespace Calibrd.Lib

variable {amount rate : ℤ}

/-- The payments of an amount at a rate. -/
def installments (amount rate : ℤ) : List ℤ :=
  List.replicate (amount / rate).toNat rate ++ if amount % rate = 0 then [] else [amount % rate]

@[simp] theorem installments_zero (rate : ℤ) : installments 0 rate = [] := by
  simp [installments]

/-- The first installment, and those of the rest. -/
theorem installments_of_pos (hrate : 0 < rate) (hamount : 0 < amount) :
    installments amount rate =
      min amount rate :: installments (amount - min amount rate) rate := by
  rcases lt_or_ge amount rate with hlt | hge
  · have hdiv : amount / rate = 0 := Int.ediv_eq_zero_of_lt hamount.le hlt
    have hmod : amount % rate = amount := Int.emod_eq_of_lt hamount.le hlt
    rw [min_eq_left hlt.le, sub_self, installments_zero, installments, hdiv, hmod,
      if_neg hamount.ne']
    rfl
  · have hdiv : amount / rate = (amount - rate) / rate + 1 := by
      rw [← Int.add_mul_ediv_right _ _ hrate.ne', one_mul, sub_add_cancel]
    have hmod : (amount - rate) % rate = amount % rate := Int.sub_emod_right amount rate
    have hnonneg : 0 ≤ (amount - rate) / rate := Int.ediv_nonneg (by omega) hrate.le
    rw [min_eq_right hge, installments, installments, hdiv, hmod, Int.toNat_add hnonneg (by decide),
      Int.toNat_one, List.replicate_succ, List.cons_append]

theorem sum_installments (hamount : 0 ≤ amount) (hrate : 0 < rate) :
    (installments amount rate).sum = amount := by
  have hsplit := Int.mul_ediv_add_emod amount rate
  have hdiv : ((amount / rate).toNat : ℤ) = amount / rate :=
    Int.toNat_of_nonneg (Int.ediv_nonneg hamount hrate.le)
  rw [installments, List.sum_append, List.sum_replicate, Int.nsmul_eq_mul, hdiv]
  split
  · rename_i hmod
    rw [hmod] at hsplit
    rw [List.sum_nil, mul_comm]
    exact hsplit
  · rw [List.sum_singleton, mul_comm]
    exact hsplit

end Calibrd.Lib
