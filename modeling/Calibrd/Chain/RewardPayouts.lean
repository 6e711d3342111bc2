import Calibrd.Chain.Issuance

/-!
# What the payouts of a block take from the reward fund

From hardfork 17 on, all comments that are due are paid from one fund, and each gets its part of the
balance as it was before. `process_comment_cashout` adds their claims to the recent ones first, so the
parts add up to no more than the whole, however they are rounded (`Payouts.bounded`).

What the fund loses in awards is vested, held or no longer part of the supply (`Awarded.paid`).
-/

namespace Calibrd.Chain.Ledger

open Calibrd.Lib Calibrd.Protocol

/-! ## Where STEEM is -/

/-- The STEEM of an account that payouts write. -/
def Account.liquid (a : Account) : ℤ := a.purse.steem + a.reward_steem_balance

/-- The STEEM that accounts hold or have vested, and will have vested, beyond the current supply. What
the reward fund holds is missing from it. -/
def State.placed (s : State) : ℤ :=
  s.accounts.sum Account.liquid + s.total_vesting_fund_steem + s.pending_rewarded_vesting_steem -
    s.current_supply

section Placed

variable {s s' : State} {name : AccountName} {steem : ℤ}

theorem placed_putAccount {a : Account} (ha : s.accounts.find? name = some a) (a' : Account) :
    (s.putAccount name a').placed = s.placed + (a'.liquid - a.liquid) := by
  have hsum := OrdMap.sum_insert_of_some Account.liquid a' ha
  simp only [State.placed, State.putAccount, hsum]
  omega

theorem placed_modifyAccount {f : Account → Account} (hf : ∀ a, (f a).liquid = a.liquid + steem)
    (h : s.modifyAccount name f = .ok s') : s'.placed = s.placed + steem := by
  obtain ⟨a, ha, h⟩ := bind_ok.1 h
  cases h
  rw [placed_putAccount (find_of_get_account ha), hf a, add_sub_cancel_left]

variable {to_reward_balance : Bool} {delta : Asset}

theorem placed_create_vesting (h : s.create_vesting name steem to_reward_balance = .ok s') :
    s'.placed = s.placed + steem := by
  obtain ⟨new_vesting, -, h⟩ := bind_ok.1 h
  obtain ⟨t, ht, h⟩ := bind_ok.1 h
  have hplaced : t.placed = s.placed + 0 := by
    refine placed_modifyAccount (fun a => ?_) ht
    split
    · exact (add_zero _).symm
    · exact (add_zero _).symm
  rw [add_zero] at hplaced
  split at h
  · cases h
    rw [← hplaced, State.placed, State.placed]
    dsimp only
    omega
  · cases h
    rw [← hplaced, State.placed, State.placed]
    dsimp only
    omega

theorem placed_adjust_balance (h : s.adjust_balance name delta = .ok s') :
    s'.placed = s.placed + if delta.symbol = .STEEM then delta.amount else 0 := by
  obtain ⟨a, ha, h⟩ := bind_ok.1 h
  obtain ⟨⟨p, t⟩, hp, h⟩ := bind_ok.1 h
  cases h
  have ha := find_of_get_account ha
  obtain ⟨amount, symbol⟩ := delta
  cases symbol with
  | STEEM =>
    cases hp
    rw [placed_putAccount ha, if_pos rfl]
    simp only [Account.liquid]
    omega
  | SBD =>
    obtain ⟨⟨b, u⟩, hu, hp⟩ := bind_ok.1 hp
    -- interest is SBD, and changes no STEEM
    obtain ⟨-, value, hu, -⟩ := payInterest_ok hu
    have hplaced : u.placed = s.placed := by rw [hu]; rfl
    have haccounts : u.accounts = s.accounts := by rw [hu]
    cases hp
    rw [← haccounts] at ha
    rw [placed_putAccount ha, hplaced, if_neg nofun]
    exact congrArg _ (sub_self _)
  | VESTS => cases hp

theorem placed_adjust_reward_balance (h : s.adjust_reward_balance name delta = .ok s') :
    s'.placed = s.placed + if delta.symbol = .STEEM then delta.amount else 0 := by
  obtain ⟨amount, symbol⟩ := delta
  cases symbol with
  | STEEM =>
    refine placed_modifyAccount (fun a => ?_) h
    simp only [Account.liquid, if_true]
    omega
  | SBD =>
    rw [if_neg nofun]
    refine placed_modifyAccount (fun a => ?_) h
    exact (add_zero _).symm
  | VESTS => cases h

theorem placed_adjust_supply (h : s.adjust_supply delta false = .ok s') :
    s'.placed = s.placed - if delta.symbol = .STEEM then delta.amount else 0 := by
  obtain ⟨amount, symbol⟩ := delta
  cases symbol with
  | STEEM =>
    cases h
    simp only [State.placed, State.newVesting, Bool.false_and, Bool.false_eq_true, if_false, if_true]
    omega
  | SBD =>
    obtain ⟨value, -, h⟩ := bind_ok.1 h
    cases h
    exact (sub_zero _).symm
  | VESTS => cases h

theorem placed_paySbd {sbd : Asset} (hsbd : sbd.symbol = .SBD)
    (h : s.paySbd name sbd steem to_reward_balance = .ok s') : s'.placed = s.placed + steem := by
  unfold State.paySbd at h
  split at h
  · obtain ⟨t, ht, h⟩ := bind_ok.1 h
    rw [placed_adjust_reward_balance h, placed_adjust_reward_balance ht, hsbd]
    simp
  · obtain ⟨t, ht, h⟩ := bind_ok.1 h
    rw [placed_adjust_balance h, placed_adjust_balance ht, hsbd]
    simp

/-- STEEM that is turned into SBD leaves the supply; the rest is held. -/
theorem placed_create_sbd {r : ℤ × ℤ} (hfeed : s.FeedOk)
    (h : s.create_sbd name steem to_reward_balance = .ok (r, s')) :
    s'.placed = s.placed + steem := by
  unfold State.create_sbd at h
  split at h
  · rename_i hzero
    cases h
    rw [hzero, add_zero]
  · split at h
    · obtain ⟨t, ht, h⟩ := bind_ok.1 h
      cases h
      rw [placed_adjust_balance ht, if_pos rfl]
    · rename_i hnull
      simp only [bind_ok] at h
      obtain ⟨product, -, sbd, hsbd, t1, h1, t2, h2, t3, h3, h⟩ := h
      cases h
      have hsymbol : sbd.symbol = .SBD :=
        Asset.symbol_of_mul (hfeed.resolve_left hnull) (withError_eq_ok.1 hsbd)
      rw [placed_adjust_supply h3, placed_adjust_supply h2, placed_paySbd hsymbol h1, hsymbol,
        if_pos rfl, if_neg nofun]
      dsimp only
      omega

end Placed

end Calibrd.Chain.Ledger

namespace Calibrd.Chain.Rewards

open Calibrd.Lib Calibrd.Protocol
open Calibrd.Chain.Ledger (RewardFund CurveId InPercent toShare)

/-! ## Awards -/

section Awards

variable {s s' : State} {awards : List Award}

theorem Award.placed {a : Award} (hfeed : s.ledger.FeedOk) (h : a.apply s = .ok s') :
    s'.ledger.placed = s.ledger.placed + a.steem := by
  unfold Award.apply at h
  split at h
  · obtain ⟨⟨r, l⟩, hl, h⟩ := bind_ok.1 h
    cases h
    exact Ledger.placed_create_sbd hfeed (withError_eq_ok.1 hl)
  · obtain ⟨l, hl, h⟩ := bind_ok.1 h
    cases h
    exact Ledger.placed_create_vesting (withError_eq_ok.1 hl)

/-- The awards are placed, and nothing else of the state changes. -/
theorem Awarded.paid (hfeed : s.ledger.FeedOk) (h : Awarded s awards s') :
    Paid s s' ∧ s'.ledger.placed = s.ledger.placed + awardedSteem awards := by
  refine ⟨h.spent.toPaid, ?_⟩
  induction awards generalizing s with
  | nil =>
    cases h
    exact (add_zero _).symm
  | cons a awards ih =>
    rw [Awarded, List.foldlM_cons] at h
    obtain ⟨t, ht, h⟩ := bind_ok.1 h
    rw [ih ((Award.spent ht).ledger.feedOk hfeed) h, Award.placed hfeed ht, awardedSteem, awardedSteem,
      List.map_cons, List.sum_cons, add_assoc]

end Awards

/-! ## One reward -/

section Reward

variable {s s' : State} {ctx : Context} {c : Comment} {id : CommentId} {f : RewardFund}

theorem evaluate_reward_curve_nonneg (rshares : ℤ) (curve : CurveId) (content_constant : ℤ) :
    0 ≤ evaluate_reward_curve rshares curve content_constant := by
  have huint : ∀ n : ℤ, 0 ≤ uint128 n := fun n => Int.emod_nonneg n (by decide)
  cases curve with
  | quadratic => exact huint _
  | quadratic_curation =>
    exact Int.ediv_nonneg (mul_nonneg (Int.emod_nonneg _ (by decide)) (by decide)) (huint _)
  | linear => exact huint _
  | square_root => exact Int.natCast_nonneg _

theorem percent_le {x weight : ℤ} (hx : 0 ≤ x) (hweight : InPercent weight) :
    0 ≤ x * weight / STEEMIT_100_PERCENT ∧ x * weight / STEEMIT_100_PERCENT ≤ x := by
  obtain ⟨hlow, hhigh⟩ := hweight
  refine ⟨Int.ediv_nonneg (mul_nonneg hx hlow) (by decide), ?_⟩
  exact Int.ediv_le_of_le_mul (by decide) (mul_le_mul_of_nonneg_left hhigh hx)

/-- The part of the curators, as a `share_type`. -/
theorem curation_tokens_le {reward percent tokens : ℤ} (hreward : 0 ≤ reward) (hlt : reward < 2 ^ 63)
    (hpercent : InPercent percent)
    (h : toShare (uint128 (reward * percent) / STEEMIT_100_PERCENT) = .ok tokens) :
    0 ≤ tokens ∧ tokens ≤ reward := by
  have hprod : reward * percent < 2 ^ 128 := by
    have hle : reward * percent ≤ reward * STEEMIT_100_PERCENT :=
      mul_le_mul_of_nonneg_left hpercent.2 hreward
    simp only [STEEMIT_100_PERCENT] at hle
    omega
  obtain ⟨hnonneg, hle⟩ := percent_le hreward hpercent
  rw [uint128_of_nonneg (mul_nonneg hreward hpercent.1) hprod] at h
  replace h := ok_of_check h
  cases h
  rw [int64, if_pos (hle.trans_lt hlt)]
  exact ⟨hnonneg, hle⟩

/-- A reward is a part of the fund, rounded down. -/
theorem get_rshare_reward_le {reward : ℤ} (h : s.get_rshare_reward ctx c = .ok reward)
    (hfund : 0 ≤ ctx.total_reward_fund_steem) (hweight : InPercent c.reward_weight) :
    0 ≤ reward ∧ reward < 2 ^ 63 ∧ 0 < ctx.total_reward_shares2 ∧
      reward * ctx.total_reward_shares2 ≤ ctx.total_reward_fund_steem *
        evaluate_reward_curve c.net_rshares ctx.reward_curve ctx.content_constant := by
  simp only [State.get_rshare_reward, bind_ok, exists_check_eq_ok] at h
  obtain ⟨-, htotal, hfits, dust, -, max_steem, -, h⟩ := h
  have htotal := of_decide_eq_true htotal
  have hfits := of_decide_eq_true hfits
  cases h
  obtain ⟨hclaim, hclaimLe⟩ :=
    percent_le (evaluate_reward_curve_nonneg c.net_rshares ctx.reward_curve ctx.content_constant) hweight
  have hprod : 0 ≤ ctx.total_reward_fund_steem * claimOf ctx c := mul_nonneg hfund hclaim
  have hpayout : 0 ≤ ctx.total_reward_fund_steem * claimOf ctx c % 2 ^ 256 / ctx.total_reward_shares2 :=
    Int.ediv_nonneg (Int.emod_nonneg _ (by decide)) htotal.le
  have hpart : ctx.total_reward_fund_steem * claimOf ctx c % 2 ^ 256 / ctx.total_reward_shares2 *
      ctx.total_reward_shares2 ≤ ctx.total_reward_fund_steem *
        evaluate_reward_curve c.net_rshares ctx.reward_curve ctx.content_constant := by
    calc _ ≤ ctx.total_reward_fund_steem * claimOf ctx c % 2 ^ 256 := Int.ediv_mul_le _ htotal.ne'
      _ ≤ ctx.total_reward_fund_steem * claimOf ctx c := by omega
      _ ≤ _ := mul_le_mul_of_nonneg_left hclaimLe hfund
  generalize ctx.total_reward_fund_steem * claimOf ctx c % 2 ^ 256 / ctx.total_reward_shares2 = payout at *
  have hle : min (if dust then 0 else payout) (max_steem % 2 ^ 64) ≤ payout := by
    refine (min_le_left _ _).trans ?_
    split
    · exact hpayout
    · exact le_rfl
  have hnonneg : 0 ≤ min (if dust then 0 else payout) (max_steem % 2 ^ 64) := by
    refine le_min ?_ (Int.emod_nonneg _ (by decide))
    split
    · exact le_rfl
    · exact hpayout
  exact ⟨hnonneg, hle.trans_lt hfits, htotal, (mul_le_mul_of_nonneg_right hle htotal.le).trans hpart⟩

/-- What a comment claims when it is paid. -/
def claimShare (f : RewardFund) (c : Comment) : ℤ :=
  if 0 < c.net_rshares then
    evaluate_reward_curve c.net_rshares f.author_reward_curve f.content_constant
  else 0

theorem claimShare_nonneg (f : RewardFund) (c : Comment) : 0 ≤ claimShare f c := by
  unfold claimShare
  split
  · exact evaluate_reward_curve_nonneg _ _ _
  · exact le_rfl

/-- Hardfork 17 is applied, the fund has the terms of `f`, and no part is more than the whole. -/
structure Funded (s : State) (f : RewardFund) : Prop where
  hardfork : s.has_hardfork 17 = true
  fund : s.ledger.post_fund = some f
  percent : InPercent f.percent_curation_rewards
  weights : ∀ id c, s.comments.find? id = some c → InPercent c.reward_weight
  feed : s.ledger.FeedOk

/-- What one payout takes from the fund. -/
theorem payRewards_le (hs : Funded s f) (hweight : InPercent c.reward_weight)
    (hbalance : 0 ≤ ctx.total_reward_fund_steem) {claimed : ℤ}
    (h : s.payRewards ctx id c = .ok (claimed, s')) :
    (∃ awards, Awarded s awards s' ∧ (∀ a ∈ awards, Entitled s id c a) ∧
      awardedSteem awards = claimed) ∧ 0 ≤ claimed ∧
    claimed * ctx.total_reward_shares2 ≤ ctx.total_reward_fund_steem * claimShare f c ∧
    (claimed = 0 ∨ 0 < ctx.total_reward_shares2) := by
  unfold State.payRewards at h
  unfold claimShare
  split_ifs at h with hpos
  · rw [if_pos hpos]
    obtain ⟨ctx', hctx, h⟩ := bind_ok.1 h
    have hctx : ctx' = { ctx with
        reward_curve := f.author_reward_curve, content_constant := f.content_constant } := by
      rw [State.fundContext, if_pos hs.hardfork] at hctx
      obtain ⟨g, hg, hctx⟩ := bind_ok.1 hctx
      rw [State.get_reward_fund, hs.fund] at hg
      cases hg
      cases hctx
      rfl
    rw [hctx] at h
    obtain ⟨reward, hreward, h⟩ := bind_ok.1 h
    obtain ⟨⟨claimed', t⟩, ht, h⟩ := bind_ok.1 h
    obtain ⟨hnonneg, hlt, htotal, hle⟩ := get_rshare_reward_le hreward hbalance hweight
    -- the awards of this payout, and the claimed reward
    have hpaid : (∃ awards, Awarded s awards t ∧ (∀ a ∈ awards, Entitled s id c a) ∧
        awardedSteem awards = claimed') ∧ 0 ≤ claimed' ∧ claimed' ≤ reward := by
      unfold State.payTokens at ht
      split at ht
      · obtain ⟨awards, hawarded, hentitled, hsum, percent, tokens, hpercent, htokens, hclaimed⟩ :=
          payReward_awards ht
        have hpercent : percent = f.percent_curation_rewards := by
          rw [State.get_curation_rewards_percent, if_pos hs.hardfork, State.get_reward_fund,
            hs.fund] at hpercent
          exact (Except.ok.inj hpercent).symm
        rw [hpercent] at htokens
        obtain ⟨htokensNonneg, htokensLe⟩ := curation_tokens_le hnonneg hlt hs.percent htokens
        refine ⟨⟨awards, hawarded, hentitled, hsum⟩, ?_⟩
        rw [hclaimed]
        split <;> omega
      · cases ht
        exact ⟨⟨[], rfl, nofun, rfl⟩, le_rfl, hnonneg⟩
    obtain ⟨⟨awards, hawarded, hentitled, hsum⟩, hclaimed, hclaimedLe⟩ := hpaid
    have hfork : t.has_hardfork 17 = true := by
      rw [(hawarded.paid hs.feed).1.has_hardfork]
      exact hs.hardfork
    dsimp only at h
    rw [if_pos hfork] at h
    cases h
    refine ⟨⟨awards, hawarded, hentitled, hsum⟩, hclaimed, ?_, .inr htotal⟩
    exact (mul_le_mul_of_nonneg_right hclaimedLe htotal.le).trans hle
  · cases h
    rw [if_neg hpos]
    exact ⟨⟨[], rfl, nofun, rfl⟩, le_rfl, by simp, .inl rfl⟩

end Reward

/-! ## The loop -/

/-- A comment that is paid: the reward that it claims and what becomes of it. -/
structure Cashout where
  id : CommentId
  claimed : ℤ
  awards : List Award

/-- The comments that the loop pays, with the states between them. -/
inductive Payouts (ctx : Context) : State → List Cashout → State → Prop
  | nil (s : State) : Payouts ctx s [] s
  | cons {s t u s' : State} {p : Cashout} {rest : List Cashout} {c : Comment}
      (hc : s.comments.find? p.id = some c) (hdue : c.cashout_time ≤ s.head_block_time)
      (hcashout : s.cashout_comment_helper ctx p.id c = .ok (p.claimed, t))
      (hawarded : Awarded s p.awards u)
      (ht : t = (u.putComment p.id (u.settled c)).settleVotes p.id (u.nextCashout c))
      (hentitled : ∀ a ∈ p.awards, Entitled s p.id c a)
      (hclaimed : awardedSteem p.awards = p.claimed) (hrest : Payouts ctx t rest s') :
      Payouts ctx s (p :: rest) s'

/-- The claimed rewards of the payouts. -/
def claimedRewards (log : List Cashout) : ℤ := (log.map Cashout.claimed).sum

theorem claimedRewards_cons (p : Cashout) (log : List Cashout) :
    claimedRewards (p :: log) = p.claimed + claimedRewards log :=
  List.sum_cons

section Loop

variable {s s' : State} {ctx : Context} {c : Comment} {id : CommentId} {f : RewardFund}

/-- What a comment claims now. -/
def dueShare (s : State) (f : RewardFund) (c : Comment) : ℤ :=
  if c.cashout_time ≤ s.head_block_time then claimShare f c else 0

theorem dueClaims_eq (s : State) (f : RewardFund) : s.dueClaims f = s.comments.sum (dueShare s f) := by
  have hsum := OrdMap.sumRows_ite (fun _ c => c.cashout_time ≤ s.head_block_time ∧ 0 < c.net_rshares)
    (fun _ c => evaluate_reward_curve c.net_rshares f.author_reward_curve f.content_constant) s.comments
  simp only [Bool.decide_and] at hsum
  rw [State.dueClaims, ← hsum, OrdMap.sumRows, OrdMap.sum]
  congr 1
  refine List.map_congr_left fun r _ => ?_
  simp only [dueShare, claimShare]
  split_ifs <;> simp_all

theorem dueClaims_nonneg (s : State) (f : RewardFund) : 0 ≤ s.dueClaims f := by
  rw [dueClaims_eq]
  refine OrdMap.sum_nonneg fun _ c _ => ?_
  unfold dueShare
  split
  · exact claimShare_nonneg f c
  · exact le_rfl

/-- A payout of the loop: its bound, and what is left to pay. -/
theorem cashout_step (hs : Funded s f) (hbalance : 0 ≤ ctx.total_reward_fund_steem)
    (hc : s.comments.find? id = some c) (hdue : c.cashout_time ≤ s.head_block_time) {claimed : ℤ}
    {t : State} (h : s.cashout_comment_helper ctx id c = .ok (claimed, t)) :
    Funded t f ∧ (∃ awards u, Awarded s awards u ∧
      t = (u.putComment id (u.settled c)).settleVotes id (u.nextCashout c) ∧
      (∀ a ∈ awards, Entitled s id c a) ∧ awardedSteem awards = claimed) ∧ 0 ≤ claimed ∧
    claimed * ctx.total_reward_shares2 + ctx.total_reward_fund_steem * t.dueClaims f ≤
      ctx.total_reward_fund_steem * s.dueClaims f ∧
    (claimed = 0 ∨ 0 < ctx.total_reward_shares2) := by
  obtain ⟨⟨claimed', u⟩, hu, h⟩ := bind_ok.1 h
  cases h
  obtain ⟨⟨awards, hawarded, hentitled, hsum⟩, hnonneg, hle, htotal⟩ :=
    payRewards_le hs (hs.weights id c hc) hbalance hu
  obtain ⟨hpaid, -⟩ := hawarded.paid hs.feed
  have hledger : ((u.putComment id (u.settled c)).settleVotes id (u.nextCashout c)).ledger = u.ledger :=
    State.settleVotes_ledger _ _ _
  have hcomments : ((u.putComment id (u.settled c)).settleVotes id (u.nextCashout c)).comments =
      s.comments.insert id (u.settled c) := by
    rw [State.settleVotes_comments, ← hpaid.comments]
    rfl
  generalize ht : (u.putComment id (u.settled c)).settleVotes id (u.nextCashout c) = t at hledger hcomments ⊢
  have htime : t.head_block_time = s.head_block_time := by
    rw [State.head_block_time, hledger]
    exact hpaid.head_block_time
  have hfunded : Funded t f := by
    refine ⟨?_, ?_, hs.percent, ?_, ?_⟩
    · rw [State.has_hardfork, hledger, hpaid.ledger.has_hardfork]
      exact hs.hardfork
    · rw [hledger, hpaid.ledger.post_fund]
      exact hs.fund
    · rw [hcomments]
      exact OrdMap.forall_insert hs.weights (hs.weights id c hc)
    · rw [hledger]
      exact hpaid.ledger.feedOk hs.feed
  refine ⟨hfunded, ⟨awards, u, hawarded, ht.symm, hentitled, hsum⟩, hnonneg, ?_, htotal⟩
  -- the comment that is paid claims nothing any more
  have hdueClaims : t.dueClaims f = s.dueClaims f - claimShare f c := by
    have hsame : dueShare t f = dueShare s f := by
      funext d
      rw [dueShare, dueShare, htime]
    have hsettled : dueShare s f (u.settled c) = 0 := by
      have hnet : ¬ 0 < (u.settled c).net_rshares := not_lt.2 (min_le_right _ _)
      rw [dueShare, claimShare, if_neg hnet, ite_self]
    have hbefore : dueShare s f c = claimShare f c := if_pos hdue
    rw [dueClaims_eq, dueClaims_eq, hsame, hcomments, OrdMap.sum_insert_of_some _ _ hc, hsettled, hbefore]
    omega
  rw [hdueClaims, mul_sub]
  omega

/-- The loop from hardfork 17 on. What is claimed, as a part of the fund, is taken from what was due. -/
theorem payDue_payouts {g : RewardFund} {fuel : ℕ} {r r' : ℤ × State} (hs : Funded r.2 f)
    (hbalance : 0 ≤ g.reward_balance) (h : State.payDue (some g) fuel r = .ok r') :
    ∃ log, Payouts ⟨g.recent_claims, g.reward_balance, .quadratic, STEEMIT_CONTENT_CONSTANT_HF0⟩
        r.2 log r'.2 ∧ Funded r'.2 f ∧ r'.1 = r.1 + claimedRewards log ∧ 0 ≤ claimedRewards log ∧
      claimedRewards log * g.recent_claims + g.reward_balance * r'.2.dueClaims f ≤
        g.reward_balance * r.2.dueClaims f ∧
      (claimedRewards log = 0 ∨ 0 < g.recent_claims) := by
  induction fuel generalizing r with
  | zero => cases h
  | succ fuel ih =>
    obtain ⟨awarded, s⟩ := r
    have hdone : ∃ log, Payouts ⟨g.recent_claims, g.reward_balance, .quadratic,
        STEEMIT_CONTENT_CONSTANT_HF0⟩ s log s ∧ Funded s f ∧ awarded = awarded + claimedRewards log ∧
        0 ≤ claimedRewards log ∧
        claimedRewards log * g.recent_claims + g.reward_balance * s.dueClaims f ≤
          g.reward_balance * s.dueClaims f ∧
        (claimedRewards log = 0 ∨ 0 < g.recent_claims) :=
      ⟨[], .nil s, hs, (add_zero _).symm, le_rfl, by simp [claimedRewards], .inl rfl⟩
    unfold State.payDue at h
    split at h
    · cases h
      exact hdone
    · rename_i id c hfirst
      split at h
      · rename_i hdue
        rw [if_pos hs.hardfork] at h
        obtain ⟨⟨reward, t⟩, ht, h⟩ := bind_ok.1 h
        have hc := State.find_of_firstCashout hfirst
        obtain ⟨hfunded, ⟨awards, u, hawarded, hu, hentitled, hsum⟩, hnonneg, hle, htotal⟩ :=
          cashout_step hs hbalance hc hdue ht
        obtain ⟨log, hlog, hlast, hawardedSum, hlogNonneg, hlogLe, hlogTotal⟩ := ih hfunded h
        refine ⟨⟨id, reward, awards⟩ :: log, .cons hc hdue ht hawarded hu hentitled hsum hlog, hlast, ?_⟩
        dsimp only at hawardedSum hlogLe hle
        rw [claimedRewards_cons]
        dsimp only
        refine ⟨by omega, by omega, ?_, ?_⟩
        · rw [add_mul]
          omega
        · rcases htotal with hzero | htotal
          · rcases hlogTotal with hzero' | htotal
            · exact .inl (by omega)
            · exact .inr htotal
          · exact .inr htotal
      · cases h
        exact hdone

theorem Payouts.placed {log : List Cashout} (hfeed : s.ledger.FeedOk) (h : Payouts ctx s log s') :
    s'.ledger.placed = s.ledger.placed + claimedRewards log := by
  induction h with
  | nil s => exact (add_zero _).symm
  | cons hc hdue hcashout hawarded ht hentitled hclaimed hrest ih =>
    obtain ⟨hpaid, hplaced⟩ := hawarded.paid hfeed
    have hledger := (congrArg State.ledger ht).trans (State.settleVotes_ledger _ _ _)
    have hrestPlaced := ih (hledger ▸ hpaid.ledger.feedOk hfeed)
    rw [hrestPlaced, hledger, claimedRewards_cons, ← hclaimed, ← add_assoc, ← hplaced]
    rfl

end Loop

/-! ## All payouts of a block -/

def withFund (s : State) (f : RewardFund) : State :=
  { s with ledger := { s.ledger with post_fund := some f } }

/-- The fund that the payouts are made from: its claims, and those that are due. -/
def snapshot (s : State) (f : RewardFund) : RewardFund :=
  { s.decayed f with recent_claims := uint128 ((s.decayed f).recent_claims + s.dueClaims f) }

/-- The payouts of `process_comment_cashout` from the fund `f`. -/
structure FundSafe (s s' : State) (f : RewardFund) (log : List Cashout) : Prop where
  payouts : ∃ t, Payouts ⟨(snapshot s f).recent_claims, f.reward_balance, .quadratic,
      STEEMIT_CONTENT_CONSTANT_HF0⟩ (withFund s (s.decayed f)) log t ∧
    s' = t.writeFund (claimedRewards log) (snapshot s f)
  /-- The claimed rewards are covered. -/
  covered : claimedRewards log ≤ f.reward_balance
  /-- They are all that the fund loses. -/
  fund : ∃ f', s'.ledger.post_fund = some f' ∧
    f'.reward_balance = f.reward_balance - claimedRewards log ∧ 0 ≤ f'.reward_balance
  /-- They are vested, held, or no longer part of the supply. -/
  placed : s'.ledger.placed = s.ledger.placed + claimedRewards log

theorem process_comment_cashout_eq {s : State} {f : RewardFund} (hfork : s.has_hardfork 17 = true)
    (hfund : s.ledger.post_fund = some f) :
    s.process_comment_cashout = (do
      let r ← State.payDue (some (snapshot s f)) (s.comments.rows.length + 1)
        (0, withFund s (s.decayed f))
      .ok (r.2.writeFund r.1 (snapshot s f))) := by
  have hseven : s.has_hardfork 7 = true := by
    have hfork := of_decide_eq_true hfork
    exact decide_eq_true (by omega)
  have hsnapshot : (if (withFund s (s.decayed f)).has_hardfork 17 = true then snapshot s f
      else s.decayed f) = snapshot s f := if_pos hfork
  unfold State.process_comment_cashout
  rw [hseven]
  simp only [Bool.not_true, Bool.false_eq_true, if_false, hfund]
  exact congrArg (fun g => State.payDue (some g) (s.comments.rows.length + 1)
    (0, withFund s (s.decayed f)) >>= fun r => .ok (r.2.writeFund r.1 g)) hsnapshot

theorem process_comment_cashout_fundSafe {s s' : State} {f : RewardFund} (hs : Funded s f)
    (hbalance : 0 ≤ f.reward_balance)
    (hfits : (s.decayed f).recent_claims + s.dueClaims f < 2 ^ 128)
    (h : s.process_comment_cashout = .ok s') : ∃ log, FundSafe s s' f log := by
  rw [process_comment_cashout_eq hs.hardfork hs.fund] at h
  obtain ⟨⟨awarded, t⟩, ht, h⟩ := bind_ok.1 h
  cases h
  have hfunded : Funded (withFund s (s.decayed f)) (s.decayed f) :=
    ⟨hs.hardfork, rfl, hs.percent, hs.weights, hs.feed⟩
  obtain ⟨log, hlog, hlast, hsum, hnonneg, hle, htotal⟩ :=
    payDue_payouts (g := snapshot s f) (r := (0, withFund s (s.decayed f))) hfunded hbalance ht
  obtain rfl : awarded = claimedRewards log := hsum.trans (zero_add _)
  have hdue := dueClaims_nonneg s f
  have hrecent : 0 ≤ (s.decayed f).recent_claims := Int.emod_nonneg _ (by decide)
  have hclaims : (snapshot s f).recent_claims = (s.decayed f).recent_claims + s.dueClaims f :=
    uint128_of_nonneg (by omega) hfits
  have hcovered : claimedRewards log ≤ f.reward_balance := by
    rcases htotal with hzero | htotal
    · rw [hzero]
      exact hbalance
    · refine le_of_mul_le_mul_right ?_ htotal
      have hleft : 0 ≤ f.reward_balance * t.dueClaims (s.decayed f) :=
        mul_nonneg hbalance (dueClaims_nonneg t _)
      have hpart : f.reward_balance * s.dueClaims f ≤ f.reward_balance * (snapshot s f).recent_claims :=
        mul_le_mul_of_nonneg_left (by omega) hbalance
      have hle : claimedRewards log * (snapshot s f).recent_claims +
        f.reward_balance * t.dueClaims (s.decayed f) ≤ f.reward_balance * s.dueClaims f := hle
      omega
  have hfund : t.ledger.post_fund = some (s.decayed f) := hlast.fund
  have hpost : (t.writeFund (claimedRewards log) (snapshot s f)).ledger.post_fund =
      some { s.decayed f with
        recent_claims := (snapshot s f).recent_claims
        reward_balance := f.reward_balance - claimedRewards log } := by
    simp only [State.writeFund, hfund, Option.map_some]
    rfl
  have hplaced := hlog.placed hfunded.feed
  exact ⟨log, ⟨t, hlog, rfl⟩, hcovered, ⟨_, hpost, rfl, sub_nonneg.2 hcovered⟩, hplaced⟩

end Calibrd.Chain.Rewards
