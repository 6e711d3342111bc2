import Calibrd.Chain.Rewards

/-!
# The reward curves

`approx_sqrt` halves the logarithm of a number, with the bits behind the leading one as its fraction. So
it is a line from each power of two to the next, rounded down. At `2 ^ k` the line has the value
`sqrtStart k / 2`: the square root for even `k`, and `3 / 2` of the one before for odd `k`, which is
more than the square root (`approx_sqrt_eight`).

No curve leaves 128 bits for rshares of 63 bits, and none falls, so neither does the weight of a comment
with a vote for it (`curves_monotone`).
-/

namespace Calibrd.Chain.Rewards

open Calibrd.Lib Calibrd.Protocol Ledger

/-! ## The approximate square root -/

/-- The function with the value `f k` at the `k`-th power of two that is linear in between. -/
noncomputable def interpolate (f : ℕ → ℝ) (x : ℕ) : ℝ :=
  f x.log2 + (x - 2 ^ x.log2) / 2 ^ x.log2 * (f (x.log2 + 1) - f x.log2)

/-- What halving the logarithm gives for the `k`-th power of two, doubled. -/
def sqrtStart (k : ℕ) : ℕ := 2 ^ (k / 2 + 1) + if k % 2 = 1 then 2 ^ (k / 2) else 0

/-- The line through these values. -/
noncomputable def sqrtLine (x : ℕ) : ℝ := interpolate (fun k => sqrtStart k / 2) x

/-- The position of `x` behind the power of two below it, in the steps of `approx_sqrt`. -/
def sqrtSteps (x : ℕ) : ℕ := (x - 2 ^ x.log2) / 2 ^ (x.log2 - x.log2 / 2)

section Sqrt

theorem sqrtStart_succ (k : ℕ) : sqrtStart (k + 1) = sqrtStart k + 2 ^ (k / 2) := by
  unfold sqrtStart
  obtain ⟨m, rfl | rfl⟩ : ∃ m, k = 2 * m ∨ k = 2 * m + 1 := ⟨k / 2, by omega⟩
  · have hhalf : (2 * m + 1) / 2 = m := by omega
    simp [hhalf]
  · have hhalf : (2 * m + 1) / 2 = m := by omega
    have hnext : (2 * m + 1 + 1) / 2 = m + 1 := by omega
    rw [hhalf, hnext, if_neg (by omega), if_pos (by omega), pow_succ, pow_succ]
    omega

theorem two_pow_halves (k : ℕ) : 2 ^ (k / 2) * 2 ^ (k - k / 2) = 2 ^ k := by
  rw [← pow_add]
  congr 1
  omega

variable {x : ℕ} (h0 : x ≠ 0)

include h0

theorem sub_leading_lt : x - 2 ^ x.log2 < 2 ^ x.log2 := by
  have hlow := Nat.log2_self_le h0
  have hhigh := Nat.lt_log2_self (n := x)
  rw [pow_succ] at hhigh
  omega

theorem sqrtSteps_lt : sqrtSteps x < 2 ^ (x.log2 / 2) := by
  refine Nat.div_lt_of_lt_mul ?_
  rw [mul_comm, two_pow_halves]
  exact sub_leading_lt h0

/-- The bits of the mantissa do not overlap with those above them, so the result is a sum. -/
theorem approx_sqrt_eq (h : x < 2 ^ 128) : approx_sqrt x = (sqrtStart x.log2 + sqrtSteps x) / 2 := by
  have hlog : x.log2 < 128 := (Nat.log2_lt h0).2 h
  have hlo := sqrtSteps_lt h0
  have hmod : x % 2 ^ x.log2 = x - 2 ^ x.log2 := by
    rw [Nat.mod_eq_sub_mod (Nat.log2_self_le h0), Nat.mod_eq_of_lt (sub_leading_lt h0)]
  have hword : sqrtSteps x % 2 ^ 64 = sqrtSteps x :=
    Nat.mod_eq_of_lt (hlo.trans_le (Nat.pow_le_pow_right two_pos (by omega)))
  have hmantissa : ((if x.log2 % 2 = 1 then 2 ^ (x.log2 / 2) else 0) ||| sqrtSteps x) =
      (if x.log2 % 2 = 1 then 2 ^ (x.log2 / 2) else 0) + sqrtSteps x := by
    split
    · simpa using (Nat.two_pow_add_eq_or_of_lt hlo 1).symm
    · simp
  have hhalf : ((if x.log2 % 2 = 1 then 2 ^ (x.log2 / 2) else 0) + sqrtSteps x) / 2 <
      2 ^ (x.log2 / 2) := by
    split <;> omega
  have hor := Nat.two_pow_add_eq_or_of_lt hhalf 1
  rw [mul_one] at hor
  unfold approx_sqrt sqrtStart
  rw [if_neg h0]
  dsimp only
  rw [hmod]
  change 2 ^ (x.log2 / 2) ||| (_ ||| sqrtSteps x % 2 ^ 64) / 2 = _
  rw [hword, hmantissa, ← hor, pow_succ]
  omega

theorem sqrtLine_eq : sqrtLine x =
    ((x - 2 ^ x.log2 : ℕ) / (2 ^ (x.log2 - x.log2 / 2) : ℕ) + sqrtStart x.log2) / 2 := by
  have hsplit : (2 : ℝ) ^ x.log2 = 2 ^ (x.log2 / 2) * 2 ^ (x.log2 - x.log2 / 2) := by
    exact_mod_cast (two_pow_halves x.log2).symm
  rw [sqrtLine, interpolate, sqrtStart_succ, Nat.cast_sub (Nat.log2_self_le h0)]
  push_cast
  nth_rewrite 2 [hsplit]
  field_simp
  ring

theorem approx_sqrt_eq_floor (h : x < 2 ^ 128) :
    approx_sqrt x = ⌊sqrtLine x⌋₊ := by
  rw [sqrtLine_eq h0, Nat.floor_div_ofNat, Nat.floor_add_natCast (by positivity),
    Nat.floor_div_eq_div, approx_sqrt_eq h0 h, add_comm]
  rfl

/-- The line runs above the square root, by a factor of `√(9 / 8)` at most. -/
theorem sq_sqrtLine : (x : ℝ) ≤ sqrtLine x ^ 2 ∧
    8 * sqrtLine x ^ 2 ≤ 9 * x := by
  set u : ℝ := 2 ^ (x.log2 / 2)
  set t : ℝ := (x - 2 ^ x.log2) / 2 ^ x.log2 with ht
  have hx : (x : ℝ) = 2 ^ x.log2 * (1 + t) := by
    rw [ht]
    field_simp
    ring
  have hlow : (2 : ℝ) ^ x.log2 ≤ x := by exact_mod_cast Nat.log2_self_le h0
  have hhigh : (x : ℝ) < 2 ^ x.log2 * 2 := by exact_mod_cast Nat.lt_log2_self (n := x)
  have hpow : (0 : ℝ) < 2 ^ x.log2 := by positivity
  have ht0 : 0 ≤ t := by nlinarith
  have ht1 : 0 ≤ 1 - t := by nlinarith
  have hu : 0 ≤ u * u := mul_self_nonneg u
  have hline : sqrtLine x = (sqrtStart x.log2 + t * u) / 2 := by
    rw [sqrtLine, interpolate, sqrtStart_succ]
    push_cast
    ring
  have h1 := mul_nonneg hu (sq_nonneg t)
  have h2 := mul_nonneg hu (mul_nonneg ht0 ht1)
  have h3 := mul_nonneg hu ht1
  have h4 := mul_nonneg hu (sq_nonneg (1 - t))
  rw [hline, hx]
  obtain hm | hm : x.log2 % 2 = 0 ∨ x.log2 % 2 = 1 := by omega
  · have hstart : (sqrtStart x.log2 : ℝ) = 2 * u := by
      simp [sqrtStart, hm, pow_succ, u, mul_comm]
    have hsq : (2 : ℝ) ^ x.log2 = u * u := by
      rw [← pow_add]
      congr 1
      omega
    rw [hstart, hsq]
    constructor <;> nlinarith
  · have hstart : (sqrtStart x.log2 : ℝ) = 3 * u := by
      simp only [sqrtStart, hm, if_true, pow_succ]
      push_cast
      ring
    have hsq : (2 : ℝ) ^ x.log2 = 2 * (u * u) := by
      rw [← pow_add, ← pow_succ']
      congr 1
      omega
    rw [hstart, hsq]
    constructor <;> nlinarith

end Sqrt

theorem approx_sqrt_mono {x y : ℕ} (hxy : x ≤ y) (hy : y < 2 ^ 128) :
    approx_sqrt x ≤ approx_sqrt y := by
  obtain rfl | hx0 := eq_or_ne x 0
  · exact Nat.zero_le _
  have hy0 : y ≠ 0 := by omega
  rw [approx_sqrt_eq hx0 (hxy.trans_lt hy), approx_sqrt_eq hy0 hy]
  refine Nat.div_le_div_right ?_
  have hlog : x.log2 ≤ y.log2 := (Nat.le_log2 hy0).2 ((Nat.log2_self_le hx0).trans hxy)
  rcases hlog.eq_or_lt with hsame | hlt
  · unfold sqrtSteps
    rw [hsame]
    gcongr
  · have hmono : Monotone sqrtStart :=
      monotone_nat_of_le_succ fun k => (Nat.le_add_right _ _).trans (sqrtStart_succ k).ge
    calc sqrtStart x.log2 + sqrtSteps x
        ≤ sqrtStart x.log2 + 2 ^ (x.log2 / 2) := Nat.add_le_add_left (sqrtSteps_lt hx0).le _
      _ = sqrtStart (x.log2 + 1) := (sqrtStart_succ _).symm
      _ ≤ sqrtStart y.log2 := hmono hlt
      _ ≤ sqrtStart y.log2 + sqrtSteps y := Nat.le_add_right _ _

theorem approx_sqrt_four_pow {k : ℕ} (hk : k < 64) : approx_sqrt (4 ^ k) = 2 ^ k := by
  have hpow : 4 ^ k = 2 ^ (2 * k) := (pow_mul 2 2 k).symm
  have hlt : 2 ^ (2 * k) < 2 ^ 128 := Nat.pow_lt_pow_right one_lt_two (by omega)
  rw [hpow, approx_sqrt_eq (Nat.two_pow_pos _).ne' hlt, sqrtSteps, Nat.log2_two_pow, Nat.sub_self,
    Nat.zero_div, sqrtStart, if_neg (by omega), pow_succ]
  have hhalf : 2 * k / 2 = k := by omega
  rw [hhalf]
  omega

theorem approx_sqrt_bounds {x : ℕ} (hx : x < 2 ^ 128) :
    Nat.sqrt x ≤ approx_sqrt x ∧ 8 * approx_sqrt x ^ 2 ≤ 9 * x := by
  obtain rfl | h0 := eq_or_ne x 0
  · decide
  obtain ⟨hlow, hhigh⟩ := sq_sqrtLine h0
  have hnonneg : 0 ≤ sqrtLine x := by
    rw [sqrtLine_eq h0]
    positivity
  rw [approx_sqrt_eq_floor h0 hx, ← Real.nat_floor_real_sqrt_eq_nat_sqrt]
  refine ⟨Nat.floor_le_floor ((Real.sqrt_le_left hnonneg).2 hlow), ?_⟩
  have hsq := mul_self_le_mul_self (Nat.cast_nonneg _) (Nat.floor_le hnonneg)
  have hcast : (8 * (⌊sqrtLine x⌋₊ : ℝ) ^ 2) ≤ 9 * x := by nlinarith
  exact_mod_cast hcast

/-- `approx_sqrt` is the line through the halved logarithms of the powers of two, rounded down. -/
theorem approx_sqrt_interpolates {x : ℕ} (hx : x < 2 ^ 128) :
    (x = 0 ∧ approx_sqrt x = 0 ∨
      x ≠ 0 ∧ approx_sqrt x = ⌊sqrtLine x⌋₊) ∧
    (∀ y, x ≤ y → y < 2 ^ 128 → approx_sqrt x ≤ approx_sqrt y) ∧
    (∀ k, x = 4 ^ k → approx_sqrt x = 2 ^ k) ∧
    Nat.sqrt x ≤ approx_sqrt x ∧ 8 * approx_sqrt x ^ 2 ≤ 9 * x := by
  have hfour : ∀ k, x = 4 ^ k → approx_sqrt x = 2 ^ k := by
    rintro k rfl
    refine approx_sqrt_four_pow ((Nat.pow_lt_pow_iff_right (by decide : 1 < 4)).1 ?_)
    exact hx.trans_eq (by norm_num)
  refine ⟨?_, fun y hxy hy => approx_sqrt_mono hxy hy, hfour, approx_sqrt_bounds hx⟩
  obtain rfl | h0 := eq_or_ne x 0
  · exact .inl ⟨rfl, rfl⟩
  · exact .inr ⟨h0, approx_sqrt_eq_floor h0 hx⟩

theorem approx_sqrt_interpolates_eight : approx_sqrt 8 ≤ approx_sqrt 9 ∧ 8 * approx_sqrt 8 ^ 2 ≤ 9 * 8 :=
  have h := approx_sqrt_interpolates (x := 8) (by decide)
  ⟨h.2.1 9 (by decide) (by decide), h.2.2.2.2⟩

/-- At the power of two 8 the line through the square roots gives 2. -/
theorem approx_sqrt_eight : approx_sqrt 8 = 3 ∧ ⌊interpolate (fun k => √(2 ^ k)) 8⌋₊ = 2 := by
  have hlog : Nat.log2 8 = 3 := by decide
  refine ⟨by decide, ?_⟩
  have hline : interpolate (fun k => √(2 ^ k)) 8 = √8 := by
    norm_num [interpolate, hlog]
  rw [hline, Nat.floor_eq_iff (Real.sqrt_nonneg _)]
  constructor
  · exact Real.le_sqrt' (by norm_num) |>.2 (by norm_num)
  · exact Real.sqrt_lt' (by norm_num) |>.2 (by norm_num)

/-! ## The curves -/

/-- The curve in integers. -/
def exactCurve (r s : ℤ) : CurveId → ℤ
  | .quadratic => (r + s) * (r + s) - s * s
  | .quadratic_curation => r * 2 ^ 64 / (s * 2 + r)
  | .linear => r
  | .square_root => approx_sqrt r.toNat

section Curves

variable {r r' s : ℤ} (hr : 0 ≤ r) (hs : 0 < s)

include hr hs

theorem evaluate_reward_curve_eq (hr' : r < 2 ^ 63) (hs' : s < 2 ^ 62) (curve : CurveId) :
    evaluate_reward_curve r curve s = exactCurve r s curve := by
  have huint : uint128 r = r := uint128_of_nonneg hr (by omega)
  cases curve with
  | quadratic => exact uint128_of_nonneg (by nlinarith) (by nlinarith)
  | quadratic_curation =>
    rw [evaluate_reward_curve, huint, uint128_of_nonneg (by omega) (by omega),
      Int.emod_eq_of_lt hr (by omega)]
    rfl
  | linear => exact huint
  | square_root =>
    rw [evaluate_reward_curve, huint]
    rfl

theorem exactCurve_mono (hle : r ≤ r') (hr' : r' < 2 ^ 63) (curve : CurveId) :
    exactCurve r s curve ≤ exactCurve r' s curve := by
  cases curve with
  | quadratic =>
    unfold exactCurve
    nlinarith
  | quadratic_curation =>
    have hpos : 0 < s * 2 + r := by omega
    have hmul := Int.ediv_mul_le (r * 2 ^ 64) hpos.ne'
    have hquotient : r * 2 ^ 64 / (s * 2 + r) ≤ 2 ^ 64 := Int.ediv_le_of_le_mul hpos (by omega)
    refine (Int.le_ediv_iff_mul_le (by omega)).2 ?_
    unfold exactCurve
    nlinarith
  | linear => exact hle
  | square_root =>
    exact Int.ofNat_le.2 (approx_sqrt_mono (Int.toNat_le_toNat hle) (by omega))

/-- A weight for curation rewards is a `uint64_t`. -/
theorem exactCurve_lt (hr' : r < 2 ^ 63) {curve : CurveId}
    (hcurve : curve = .quadratic_curation ∨ curve = .square_root) : exactCurve r s curve < 2 ^ 64 := by
  obtain rfl | rfl := hcurve
  · exact Int.ediv_lt_of_lt_mul (by omega) (by omega)
  · have hbound := (approx_sqrt_bounds (x := r.toNat) (by omega)).2
    have hlt : approx_sqrt r.toNat < 2 ^ 64 := by
      by_contra! hge
      nlinarith [Int.toNat_of_nonneg hr]
    exact Int.ofNat_lt.2 hlt

end Curves

/-- No curve overflows or falls, and for the curves of curation rewards the weight of a vote is the
difference of two weights of the comment, without a loss. -/
theorem curves_monotone {s r r' : ℤ} (hs : 0 < s) (hs' : s < 2 ^ 62) (hr : 0 ≤ r) (hle : r ≤ r')
    (hr' : r' < 2 ^ 63) (curve : CurveId) :
    evaluate_reward_curve 0 curve s = 0 ∧
    (evaluate_reward_curve r curve s = exactCurve r s curve ∧ (r + s) * (r + s) < 2 ^ 128 ∧
      r * 2 ^ 64 < 2 ^ 128 ∧ s * 2 + r < 2 ^ 128) ∧
    evaluate_reward_curve r curve s ≤ evaluate_reward_curve r' curve s ∧
    (curve = .quadratic_curation ∨ curve = .square_root →
      evaluate_reward_curve r' curve s < 2 ^ 64 ∧
      ∀ (st : State) (c : Comment) (fund : RewardFund) (rshares : ℤ),
        STEEMIT_HARDFORK_0_6_REVERSE_AUCTION_TIME ≤ c.created → st.get_reward_fund = .ok fund →
        (if !st.has_hardfork 19 && decide (STEEMIT_HF_19_SQRT_PRE_CALC < c.created) then
          .square_root else fund.curation_reward_curve) = curve →
        fund.content_constant = s → c.vote_rshares = r' →
        st.voteWeight c r rshares =
          .ok (evaluate_reward_curve r' curve s - evaluate_reward_curve r curve s)) := by
  have hexact := evaluate_reward_curve_eq hr hs (by omega) hs' curve
  have hexact' := evaluate_reward_curve_eq (hr.trans hle) hs hr' hs' curve
  have hmono := exactCurve_mono hr hs hle hr' curve
  have hzero : exactCurve 0 s curve = 0 := by
    cases curve <;> simp [exactCurve, approx_sqrt]
  refine ⟨?_, ⟨hexact, by nlinarith, by omega, by omega⟩, ?_, fun hcurve => ?_⟩
  · rw [evaluate_reward_curve_eq le_rfl hs (by decide) hs', hzero]
  · rw [hexact, hexact']
    exact hmono
  · have hlt := exactCurve_lt (hr.trans hle) hs hr' hcurve
    rw [hexact, hexact']
    refine ⟨hlt, fun st c fund rshares hlate hfund hset hconstant hrshares => ?_⟩
    have hnonneg := hzero ▸ exactCurve_mono le_rfl hs hr (by omega) curve
    rw [State.voteWeight, if_neg (Nat.not_lt.2 hlate)]
    refine bind_ok.2 ⟨fund, hfund, ?_⟩
    dsimp only
    rw [hset, hconstant, hrshares, hexact, hexact']
    refine check_decide_ok.2 ⟨by omega, check_decide_ok.2 ⟨hlt, ?_⟩⟩
    rw [Int.emod_eq_of_lt (by omega) (by omega)]

theorem curves_monotone_square_root : evaluate_reward_curve 8 .square_root 1 ≤
    evaluate_reward_curve 9 .square_root 1 :=
  (curves_monotone (s := 1) (by decide) (by decide) (by decide) (by decide : (8 : ℤ) ≤ 9)
    (by decide) .square_root).2.2.1

end Calibrd.Chain.Rewards
