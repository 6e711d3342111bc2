import Mathlib

/-!
# Laps on a clock of fixed width

Runners on a lap of length `L`. One at position `p` with speed `v` is due in `(L - p) / (v + 1)`,
so until then it stays on the lap (`lap_le`). The clock has `n` bits; a sum that is too large for it
is seen by being less than its first summand, and is replaced by the last time there is
(`toNat_saturated`).
-/

namespace Calibrd.Lib

theorem lap_le {L p v d : ℕ} (hp : p ≤ L) (hd : d ≤ (L - p) / (v + 1)) : p + v * d ≤ L := by
  have hshare : (v + 1) * d ≤ L - p := (Nat.mul_le_mul_left _ hd).trans (Nat.mul_div_le _ _)
  have hspeed : v * d ≤ (v + 1) * d := Nat.mul_le_mul_right d (Nat.le_succ v)
  omega

section Clock

variable {n : ℕ} {a b : BitVec n}

theorem toNat_ofInt_of_lt {i : ℤ} (hi : 0 ≤ i) (hlt : i < 2 ^ n) :
    (BitVec.ofInt n i).toNat = i.toNat := by
  rw [BitVec.toNat_ofInt]
  congr 1
  exact Int.emod_eq_of_lt hi (by exact_mod_cast hlt)

/-- A sum that is not less than its summand did not wrap around. -/
theorem toNat_add_of_not_lt (h : ¬a + b < a) : (a + b).toNat = a.toNat + b.toNat := by
  have ha := a.isLt
  have hb := b.isLt
  rw [BitVec.lt_def, BitVec.toNat_add] at h
  rw [BitVec.toNat_add]
  by_cases hfits : a.toNat + b.toNat < 2 ^ n
  · exact Nat.mod_eq_of_lt hfits
  · -- the sum wraps around once, to less than `a`
    have hwrap : (a.toNat + b.toNat) % 2 ^ n = a.toNat + b.toNat - 2 ^ n := by
      rw [Nat.mod_eq_sub_mod (not_lt.1 hfits), Nat.mod_eq_of_lt (by omega)]
    omega

theorem toNat_saturated (a b : BitVec n) :
    (if a + b < a then BitVec.allOnes n else a + b).toNat = min (a.toNat + b.toNat) (2 ^ n - 1) := by
  have ha := a.isLt
  split
  · rename_i hlt
    have hwrap : 2 ^ n ≤ a.toNat + b.toNat := by
      by_contra hfits
      rw [BitVec.lt_def, BitVec.toNat_add, Nat.mod_eq_of_lt (not_le.1 hfits)] at hlt
      omega
    rw [BitVec.toNat_allOnes]
    omega
  · rename_i hge
    have hsum := toNat_add_of_not_lt hge
    have hlt := (a + b).isLt
    omega

end Clock

end Calibrd.Lib
