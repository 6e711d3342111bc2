import Mathlib

/-!
# Pools of shares

A fund that a number of shares stands for. Shares are minted against a payment and redeemed for a
payout; if both are rounded in favour of the fund, no share loses value, and a pool whose shares
have a fund behind them keeps one.

The value of a share is a ratio, so it is compared cross-multiplied.
-/

namespace Calibrd.Lib

structure Pool where
  shares : ℤ
  fund : ℤ

namespace Pool

variable {p q r : Pool} {v c : ℤ}

/-- Nothing is negative, and shares are not without a fund. -/
structure Backed (p : Pool) : Prop where
  shares_nonneg : 0 ≤ p.shares
  fund_nonneg : 0 ≤ p.fund
  fund_pos : 0 < p.shares → 0 < p.fund

/-- A share of `q` is worth at least as much as a share of `p`. -/
def KeepsValue (p q : Pool) : Prop := p.fund * q.shares ≤ q.fund * p.shares

theorem KeepsValue.refl (p : Pool) : p.KeepsValue p := le_refl (p.fund * p.shares)

theorem KeepsValue.trans (hq : 0 < q.shares) (hp : 0 ≤ p.shares) (hr : 0 ≤ r.shares)
    (h : p.KeepsValue q) (h' : q.KeepsValue r) : p.KeepsValue r := by
  have hleft : p.fund * q.shares * r.shares ≤ q.fund * p.shares * r.shares :=
    mul_le_mul_of_nonneg_right h hr
  have hright : q.fund * r.shares * p.shares ≤ r.fund * q.shares * p.shares :=
    mul_le_mul_of_nonneg_right h' hp
  refine le_of_mul_le_mul_right ?_ hq
  calc p.fund * r.shares * q.shares = p.fund * q.shares * r.shares := by ring
    _ ≤ q.fund * p.shares * r.shares := hleft
    _ = q.fund * r.shares * p.shares := by ring
    _ ≤ r.fund * q.shares * p.shares := hright
    _ = r.fund * p.shares * q.shares := by ring

/-- `v` new shares for a payment of `c`. -/
def mint (p : Pool) (v c : ℤ) : Pool := ⟨p.shares + v, p.fund + c⟩

/-- `c` is paid out for `v` shares. -/
def redeem (p : Pool) (v c : ℤ) : Pool := ⟨p.shares - v, p.fund - c⟩

theorem KeepsValue.mint (h : v * p.fund ≤ c * p.shares) : p.KeepsValue (p.mint v c) := by
  show p.fund * (p.shares + v) ≤ (p.fund + c) * p.shares
  linarith

theorem Backed.mint (h : p.Backed) (hv : 0 ≤ v) (hc : 0 ≤ c) (hpaid : v = 0 ∨ 0 < p.fund + c) :
    (p.mint v c).Backed := by
  refine ⟨add_nonneg h.shares_nonneg hv, add_nonneg h.fund_nonneg hc, fun hpos => ?_⟩
  obtain rfl | hfund := hpaid
  · have hshares : 0 < p.shares := by simpa [Pool.mint] using hpos
    exact add_pos_of_pos_of_nonneg (h.fund_pos hshares) hc
  · exact hfund

theorem KeepsValue.redeem (h : c * p.shares ≤ v * p.fund) : p.KeepsValue (p.redeem v c) := by
  show p.fund * (p.shares - v) ≤ (p.fund - c) * p.shares
  linarith

theorem Backed.redeem (h : p.Backed) (hv : 0 ≤ v) (hle : v ≤ p.shares)
    (hc : c * p.shares ≤ v * p.fund) (hnone : p.shares = 0 → c ≤ 0) : (p.redeem v c).Backed := by
  have hfund := h.fund_nonneg
  obtain hzero | hshares := h.shares_nonneg.eq_or_lt
  · -- without shares there is nothing to redeem
    have hpaid := hnone hzero.symm
    refine ⟨sub_nonneg.2 hle, sub_nonneg.2 (hpaid.trans hfund), fun hpos => ?_⟩
    have hlt : v < p.shares := sub_pos.1 hpos
    exact absurd (hv.trans_lt hlt) (by rw [← hzero]; exact lt_irrefl 0)
  · have hall : v * p.fund ≤ p.shares * p.fund := mul_le_mul_of_nonneg_right hle hfund
    refine ⟨sub_nonneg.2 hle, sub_nonneg.2 (le_of_mul_le_mul_right (by linarith) hshares),
      fun hpos => sub_pos.2 ?_⟩
    have hrest : v * p.fund < p.shares * p.fund :=
      mul_lt_mul_of_pos_right (sub_pos.1 hpos) (h.fund_pos hshares)
    exact lt_of_mul_lt_mul_right (by linarith) hshares.le

/-- Any number of redemptions. Once no shares are left there is no value to compare. -/
structure Redeemed (p q : Pool) : Prop where
  backed : q.Backed
  shares_le : q.shares ≤ p.shares
  value : 0 < q.shares → p.KeepsValue q

theorem Backed.redeemed (h : p.Backed) : p.Redeemed p := ⟨h, le_rfl, fun _ => .refl p⟩

theorem Redeemed.trans (h : p.Redeemed q) (h' : q.Redeemed r) : p.Redeemed r := by
  refine ⟨h'.backed, h'.shares_le.trans h.shares_le, fun hpos => ?_⟩
  have hq : 0 < q.shares := hpos.trans_le h'.shares_le
  exact (h.value hq).trans hq (hq.le.trans h.shares_le) hpos.le (h'.value hpos)

theorem Redeemed.redeem (h : p.Redeemed q) (hv : 0 ≤ v) (hle : v ≤ q.shares)
    (hc : c * q.shares ≤ v * q.fund) (hnone : q.shares = 0 → c ≤ 0) :
    p.Redeemed (q.redeem v c) :=
  h.trans ⟨h.backed.redeem hv hle hc hnone, sub_le_self _ hv, fun _ => .redeem hc⟩

end Pool

end Calibrd.Lib
