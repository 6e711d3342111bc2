import Calibrd.Chain.VirtualSupply
import Calibrd.Lib.Decay

/-!
# The decay of recent claims

`process_comment_cashout` takes from the recent claims of the fund the part that the time since its
last update makes of the decay time, in `uint128_t`. Nothing bounds that time: when more has passed
than the decay time (a block after a long stop of the chain), the difference wraps
(`stopped_chain_wraps`). A step is as meant exactly if the product fits and the time is not longer than
the decay time, or only by so little that no whole unit is taken for it (`decays_iff`).
-/

namespace Calibrd.Chain.Rewards

open Calibrd.Lib Calibrd.Protocol
open Calibrd.Chain.Ledger (RewardFund)

theorem State.decayRate_bounds (s : State) : 0 < s.decayRate ∧ s.decayRate < 2 ^ 128 := by
  unfold State.decayRate
  split <;> decide

/-- The seconds since the last update of the fund. -/
def State.elapsed (s : State) (f : RewardFund) : ℤ := (s.head_block_time : ℤ) - f.last_update

/-- The step takes off the part that the time makes, and nothing wraps. -/
structure DecaysSoundly (s : State) (f : RewardFund) : Prop where
  eq : (s.decayed f).recent_claims = decay f.recent_claims (s.elapsed f) s.decayRate
  nonneg : 0 ≤ decay f.recent_claims (s.elapsed f) s.decayRate
  le : (s.decayed f).recent_claims ≤ f.recent_claims

/-- The product fits into a `uint128_t`, and the time is not longer than the decay time, or not by
enough for another unit. -/
def DecayFits (s : State) (f : RewardFund) : Prop :=
  f.recent_claims * s.elapsed f < 2 ^ 128 ∧
    (s.elapsed f ≤ s.decayRate ∨ f.recent_claims * (s.elapsed f - s.decayRate) < s.decayRate)

instance (s : State) (f : RewardFund) : Decidable (DecayFits s f) :=
  inferInstanceAs (Decidable (_ ∧ _))

/-- A fund as the database holds it, at the time of the state or before. -/
structure FundAt (s : State) (f : RewardFund) : Prop where
  nonneg : 0 ≤ f.recent_claims
  lt : f.recent_claims < 2 ^ 128
  last_update : f.last_update ≤ s.head_block_time

section Step

variable {s : State} {f : RewardFund}

theorem recent_claims_decayed (s : State) (f : RewardFund) :
    (s.decayed f).recent_claims =
      uint128 (f.recent_claims - uint128 (f.recent_claims * s.elapsed f) / s.decayRate) := rfl

theorem FundAt.elapsed_nonneg (h : FundAt s f) : 0 ≤ s.elapsed f := by
  have hlast := h.last_update
  unfold State.elapsed
  omega

theorem part_le_iff (h : FundAt s f) :
    f.recent_claims * s.elapsed f / s.decayRate ≤ f.recent_claims ↔
      s.elapsed f ≤ s.decayRate ∨ f.recent_claims * (s.elapsed f - s.decayRate) < s.decayRate := by
  have hrate := s.decayRate_bounds.1
  rw [← Int.lt_add_one_iff, Int.ediv_lt_iff_lt_mul hrate, add_mul, one_mul, mul_sub, sub_lt_iff_lt_add']
  refine ⟨.inr, fun hshort => hshort.elim (fun hle => ?_) id⟩
  exact lt_add_of_le_of_pos (mul_le_mul_of_nonneg_left hle h.nonneg) hrate

theorem recent_claims_of_fits (h : FundAt s f) (hfits : DecayFits s f) :
    (s.decayed f).recent_claims = decay f.recent_claims (s.elapsed f) s.decayRate := by
  obtain ⟨hproduct, hshort⟩ := hfits
  have hpart := (part_le_iff h).2 hshort
  have hnonneg : 0 ≤ f.recent_claims * s.elapsed f := mul_nonneg h.nonneg h.elapsed_nonneg
  have htaken : 0 ≤ f.recent_claims * s.elapsed f / s.decayRate :=
    Int.ediv_nonneg hnonneg s.decayRate_bounds.1.le
  have hlt := h.lt
  rw [recent_claims_decayed, uint128_of_nonneg hnonneg hproduct]
  exact uint128_of_nonneg (by omega) (by omega)

/-- If the product wraps, too little is taken. -/
theorem wrapped_part_lt {p d : ℤ} (hd : 0 < d) (hlt : d < 2 ^ 128) (hp : 2 ^ 128 ≤ p) :
    uint128 p / d < p / d := by
  have hle : uint128 p + d ≤ p := by
    unfold uint128
    omega
  calc uint128 p / d < uint128 p / d + 1 := Int.lt_succ _
    _ = (uint128 p + d) / d := by rw [Int.add_ediv_of_dvd_right dvd_rfl, Int.ediv_self hd.ne']
    _ ≤ p / d := Int.ediv_le_ediv hd hle

theorem decaysSoundly_iff (h : FundAt s f) : DecaysSoundly s f ↔ DecayFits s f := by
  obtain ⟨hrate, hsmall⟩ := s.decayRate_bounds
  constructor
  · intro hsound
    have hpart : f.recent_claims * s.elapsed f / s.decayRate ≤ f.recent_claims :=
      sub_nonneg.1 hsound.nonneg
    refine ⟨not_le.1 fun hwraps => ?_, (part_le_iff h).1 hpart⟩
    have hless := wrapped_part_lt hrate hsmall hwraps
    have hnonneg : 0 ≤ uint128 (f.recent_claims * s.elapsed f) / s.decayRate :=
      Int.ediv_nonneg (Int.emod_nonneg _ (by decide)) hrate.le
    have heq := hsound.eq
    have hlt := h.lt
    rw [recent_claims_decayed, uint128_of_nonneg (by omega) (by omega)] at heq
    unfold decay at heq
    omega
  · intro hfits
    have heq := recent_claims_of_fits h hfits
    have hnonneg : 0 ≤ decay f.recent_claims (s.elapsed f) s.decayRate := sub_nonneg.2 ((part_le_iff h).2 hfits.2)
    have htaken : 0 ≤ f.recent_claims * s.elapsed f / s.decayRate :=
      Int.ediv_nonneg (mul_nonneg h.nonneg h.elapsed_nonneg) hrate.le
    refine ⟨heq, hnonneg, ?_⟩
    rw [heq]
    unfold decay
    omega

end Step

/-! ## Several steps -/

/-- The fund after steps at the given states. -/
def decayedAll (f : RewardFund) (states : List State) : RewardFund :=
  states.foldl (fun f s => s.decayed f) f

/-- Every step, in the order of the states, has the property. -/
def EachDecay (P : State → RewardFund → Prop) : RewardFund → List State → Prop
  | _, [] => True
  | f, s :: states => P s f ∧ EachDecay P (s.decayed f) states

/-- The time and the period of every step. -/
def decaySteps : RewardFund → List State → List (ℤ × ℤ)
  | _, [] => []
  | f, s :: states => (s.elapsed f, s.decayRate) :: decaySteps (s.decayed f) states

variable {states : List State} {f : RewardFund}

theorem eachDecay_congr {P Q R : State → RewardFund → Prop} (hPQ : ∀ {s f}, R s f → (P s f ↔ Q s f))
    (h : EachDecay R f states) :
    EachDecay P f states ↔ EachDecay Q f states := by
  induction states generalizing f with
  | nil => exact Iff.rfl
  | cons s states ih => exact and_congr (hPQ h.1) (ih h.2)

theorem decayedAll_eq (h : EachDecay FundAt f states) (hfits : EachDecay DecayFits f states) :
    (decayedAll f states).recent_claims = decayAll f.recent_claims (decaySteps f states) ∧
      DecaysWithin f.recent_claims (decaySteps f states) := by
  induction states generalizing f with
  | nil => exact ⟨rfl, trivial⟩
  | cons s states ih =>
    obtain ⟨heq, hwithin⟩ := ih h.2 hfits.2
    have hstep := recent_claims_of_fits h.1 hfits.1
    rw [hstep] at heq hwithin
    exact ⟨heq, ⟨h.1.elapsed_nonneg, s.decayRate_bounds.1, (part_le_iff h.1).2 hfits.1.2⟩, hwithin⟩

theorem length_decaySteps (f : RewardFund) (states : List State) :
    (decaySteps f states).length = states.length := by
  induction states generalizing f with
  | nil => rfl
  | cons s states ih => exact congrArg (· + 1) (ih _)

/-- What a step writes is a `uint128_t`, so only the times have to be in order. -/
theorem eachDecay_fundAt (hnonneg : 0 ≤ f.recent_claims) (hlt : f.recent_claims < 2 ^ 128)
    (htimes : (f.last_update :: states.map State.head_block_time).IsChain (· ≤ ·)) :
    EachDecay FundAt f states := by
  induction states generalizing f with
  | nil => trivial
  | cons s states ih =>
    obtain ⟨hlast, hrest⟩ := List.isChain_cons_cons.1 htimes
    refine ⟨⟨hnonneg, hlt, hlast⟩, ih ?_ ?_ hrest⟩
    · exact Int.emod_nonneg _ (by decide)
    · exact Int.emod_lt_of_pos _ (by decide)

/-- For decay steps at any times that do not decrease: each is as meant exactly if it fits; and if all
do, the claims are at most one unit for each step above the exact product with the factors. -/
theorem decays_iff {states : List State} (hnonneg : 0 ≤ f.recent_claims)
    (hlt : f.recent_claims < 2 ^ 128)
    (htimes : (f.last_update :: states.map State.head_block_time).IsChain (· ≤ ·)) :
    (EachDecay DecaysSoundly f states ↔ EachDecay DecayFits f states) ∧
      (EachDecay DecayFits f states →
        f.recent_claims * ((decaySteps f states).map fun e => decayFactor e.1 e.2).prod ≤
            (decayedAll f states).recent_claims ∧
          (decayedAll f states).recent_claims ≤
            f.recent_claims * ((decaySteps f states).map fun e => decayFactor e.1 e.2).prod +
              states.length) := by
  have h := eachDecay_fundAt hnonneg hlt htimes
  refine ⟨eachDecay_congr decaysSoundly_iff h, fun hfits => ?_⟩
  obtain ⟨heq, hwithin⟩ := decayedAll_eq h hfits
  obtain ⟨hlow, hhigh, -, -⟩ := decayAll_bounds hnonneg hwithin
  rw [heq, ← length_decaySteps f states]
  exact ⟨hlow, hhigh⟩

/-- All hardforks are applied, and it is midnight of the day. -/
def midnight (day : ℕ) : State := { ledger := { time := day * 86400, last_hardfork := 19 } }

theorem decays_iff_midnight :
    EachDecay DecaysSoundly { recent_claims := 1000 } [midnight 1, midnight 3] ∧
      (decayedAll { recent_claims := 1000 } [midnight 1, midnight 3]).recent_claims = 810 :=
  ⟨((decays_iff (by decide) (by decide) (by decide)).1).2 ⟨by decide, by decide, trivial⟩, by decide⟩

def claimsGrow (s : State) : Bool :=
  s.ledger.post_fund.any fun f =>
    decide (f.last_update < s.head_block_time) &&
      decide (f.recent_claims < (s.decayed f).recent_claims)

/-- The chain goes on 16 days after its hardforks. -/
theorem stopped_chain_wraps :
    ∃ s f, (minerBlock (16 * 86400) []).beforeCashout
        (runBlocks (init_genesis (10 ^ 15)) (escrowBlocks.take 1)) = .ok s ∧
      s.ledger.post_fund = some f ∧ f.last_update < s.head_block_time ∧
      f.recent_claims < (s.decayed f).recent_claims := by
  have hrun : ((minerBlock (16 * 86400) []).beforeCashout
      (runBlocks (init_genesis (10 ^ 15)) (escrowBlocks.take 1))).toOption.any claimsGrow = true := by
    decide +kernel
  obtain ⟨s, hs, hgrow⟩ := exists_ok_of_any hrun
  obtain ⟨f, hfund, hgrow⟩ := (Option.any_eq_true _ _).1 hgrow
  simp only [Bool.and_eq_true, decide_eq_true_eq] at hgrow
  exact ⟨s, f, hs, hfund, hgrow.1, hgrow.2⟩

end Calibrd.Chain.Rewards
