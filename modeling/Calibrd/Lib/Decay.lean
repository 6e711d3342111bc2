import Mathlib

/-!
# Linear decay in integers

A number loses the part `elapsed / period` of itself, rounded down. One step is within one unit above
the exact product with the factor that is left, and since factors are at most 1, errors do not grow:
after some steps the number is within as many units (`decayAll_bounds`).
-/

namespace Calibrd.Lib

/-- The number after a step. -/
def decay (x elapsed period : ℤ) : ℤ := x - x * elapsed / period

/-- The part that a step leaves; nothing is left after a whole period. -/
def decayFactor (elapsed period : ℤ) : ℚ := max 0 (1 - elapsed / period)

variable {x elapsed period : ℤ}

theorem decayFactor_le_one (helapsed : 0 ≤ elapsed) (hperiod : 0 < period) :
    decayFactor elapsed period ≤ 1 := by
  have hquotient : (0 : ℚ) ≤ elapsed / period := by positivity
  exact max_le zero_le_one (by linarith)

/-- A step that takes at most everything is within one unit of the exact product. -/
theorem decay_bounds (hx : 0 ≤ x) (hperiod : 0 < period) (hle : x * elapsed / period ≤ x) :
    x * decayFactor elapsed period ≤ decay x elapsed period ∧
      decay x elapsed period ≤ x * decayFactor elapsed period + 1 := by
  have hpos : (0 : ℚ) < period := by exact_mod_cast hperiod
  have hfloor : ((x * elapsed / period : ℤ) : ℚ) ≤ x * elapsed / period := by
    rw [le_div_iff₀ hpos]
    exact_mod_cast Int.ediv_mul_le _ hperiod.ne'
  have hceil : (x * elapsed / period : ℚ) ≤ (x * elapsed / period : ℤ) + 1 := by
    rw [div_le_iff₀ hpos]
    exact_mod_cast (Int.lt_ediv_add_one_mul_self (x * elapsed) hperiod).le
  unfold decay decayFactor
  push_cast
  rcases le_total elapsed period with hshort | hlong
  · have hquotient : (elapsed / period : ℚ) ≤ 1 := by
      rw [div_le_one hpos]
      exact_mod_cast hshort
    rw [max_eq_right (by linarith), mul_sub, mul_one, ← mul_div_assoc]
    constructor <;> linarith
  · -- everything is taken
    have hall : x * elapsed / period = x := by
      refine le_antisymm hle ((Int.le_ediv_iff_mul_le hperiod).2 ?_)
      exact mul_le_mul_of_nonneg_left hlong hx
    have hquotient : (1 : ℚ) ≤ elapsed / period := by
      rw [one_le_div hpos]
      exact_mod_cast hlong
    rw [max_eq_left (by linarith), hall, mul_zero]
    constructor <;> simp

/-- Steps one after the other, each with its time and its period. -/
def decayAll (x : ℤ) (steps : List (ℤ × ℤ)) : ℤ := steps.foldl (fun x e => decay x e.1 e.2) x

/-- No step takes more than everything. -/
def DecaysWithin : ℤ → List (ℤ × ℤ) → Prop
  | _, [] => True
  | x, e :: steps => (0 ≤ e.1 ∧ 0 < e.2 ∧ x * e.1 / e.2 ≤ x) ∧ DecaysWithin (decay x e.1 e.2) steps

theorem decayAll_bounds {steps : List (ℤ × ℤ)} (hx : 0 ≤ x) (h : DecaysWithin x steps) :
    x * (steps.map fun e => decayFactor e.1 e.2).prod ≤ decayAll x steps ∧
      decayAll x steps ≤ x * (steps.map fun e => decayFactor e.1 e.2).prod + steps.length ∧
      (steps.map fun e => decayFactor e.1 e.2).prod ≤ 1 ∧
      0 ≤ (steps.map fun e => decayFactor e.1 e.2).prod := by
  induction steps generalizing x with
  | nil => simp [decayAll]
  | cons e steps ih =>
    obtain ⟨⟨helapsed, hperiod, hle⟩, hrest⟩ := h
    obtain ⟨hlow, hhigh⟩ := decay_bounds hx hperiod hle
    have hnonneg : 0 ≤ decay x e.1 e.2 := sub_nonneg.2 hle
    obtain ⟨hlow', hhigh', hone, hzero⟩ := ih hnonneg hrest
    have hfactor := decayFactor_le_one helapsed hperiod
    have hfactor' : 0 ≤ decayFactor e.1 e.2 := le_max_left _ _
    have hstep : decayAll x (e :: steps) = decayAll (decay x e.1 e.2) steps := rfl
    rw [List.map_cons, List.prod_cons, hstep, List.length_cons, Nat.cast_succ]
    generalize (steps.map fun e => decayFactor e.1 e.2).prod = product at *
    refine ⟨?_, ?_, mul_le_one₀ hfactor hzero hone, mul_nonneg hfactor' hzero⟩
    · calc (x : ℚ) * (decayFactor e.1 e.2 * product)
          = x * decayFactor e.1 e.2 * product := (mul_assoc _ _ _).symm
        _ ≤ decay x e.1 e.2 * product := mul_le_mul_of_nonneg_right hlow hzero
        _ ≤ decayAll (decay x e.1 e.2) steps := hlow'
    · calc (decayAll (decay x e.1 e.2) steps : ℚ)
          ≤ decay x e.1 e.2 * product + steps.length := hhigh'
        _ ≤ (x * decayFactor e.1 e.2 + 1) * product + steps.length := by gcongr
        _ = x * (decayFactor e.1 e.2 * product) + product + steps.length := by ring
        _ ≤ x * (decayFactor e.1 e.2 * product) + (steps.length + 1) := by linarith

end Calibrd.Lib
