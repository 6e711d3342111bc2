import Calibrd.Chain.RewardShares
import Calibrd.Chain.VirtualSupply

/-!
# What a block adds to the current supply

`Capped s s' x`: a step keeps the price and the hardforks, and adds at most `x` to the current supply.
Steps compose with the sum of their bounds, so a block is bounded by what `process_funds` and
`process_conversions` issue, as long as its operations add nothing.

One operation adds something: `pow_apply` calls `adjust_supply` for its reward, and the check that
refused `pow` after hardfork 13 is commented out. `evaluate_current_supply_iff` says when it pays, and
`apply_boundedIssuance_iff` that the issuance of a block is bounded exactly if it does not.
-/

namespace Calibrd.Chain.Ledger

open Calibrd.Lib Calibrd.Protocol

/-- The price, the hardforks and the terms of the fund stay; accounts may be created. -/
structure Kept (s s' : State) : Prop where
  last_hardfork : s'.last_hardfork = s.last_hardfork
  current_median_history : s'.current_median_history = s.current_median_history
  accounts : s.accounts.KeysLe s'.accounts
  fund : s'.post_fund.map RewardFund.terms = s.post_fund.map RewardFund.terms
  print_rate : InPercent s.sbd_print_rate → InPercent s'.sbd_print_rate

/-- At most `issued` is added to the current supply. -/
structure Capped (s s' : State) (issued : ℤ) : Prop extends Kept s s' where
  current_supply : s.FeedOk → s'.current_supply ≤ s.current_supply + issued

section Capped

variable {s s' s'' : State} {i j : ℤ} {name : AccountName}

theorem Kept.trans (h : Kept s s') (h' : Kept s' s'') : Kept s s'' :=
  ⟨h'.last_hardfork.trans h.last_hardfork,
    h'.current_median_history.trans h.current_median_history, h.accounts.trans h'.accounts,
    h'.fund.trans h.fund, h'.print_rate ∘ h.print_rate⟩

theorem Kept.refl (s : State) : Kept s s := ⟨rfl, rfl, .refl _, rfl, id⟩

theorem Kept.feedOk (h : Kept s s') (hs : s.FeedOk) : s'.FeedOk := by
  rw [State.FeedOk, h.current_median_history]
  exact hs

theorem Kept.has_hardfork (h : Kept s s') (n : ℕ) : s'.has_hardfork n = s.has_hardfork n := by
  rw [State.has_hardfork, State.has_hardfork, h.last_hardfork]

theorem SameChain.kept (h : SameChain s s') : Kept s s' :=
  ⟨h.last_hardfork, h.current_median_history, h.accounts, by rw [h.post_fund],
    by rw [h.sbd_print_rate]; exact id⟩

theorem Capped.trans (h : Capped s s' i) (h' : Capped s' s'' j) : Capped s s'' (i + j) where
  toKept := h.toKept.trans h'.toKept
  current_supply hfeed := by
    have := h.current_supply hfeed
    have := h'.current_supply (h.feedOk hfeed)
    omega

theorem Capped.of_eq (h : Kept s s') (heq : s'.current_supply = s.current_supply) :
    Capped s s' 0 :=
  ⟨h, fun _ => by rw [heq, add_zero]⟩

theorem Capped.refl (s : State) : Capped s s 0 := .of_eq (.refl s) rfl

theorem Moved.capped (h : Moved s s') : Capped s s' 0 := .of_eq h.toSameChain.kept h.current_supply

/-- Steps that add nothing compose to one that adds nothing. -/
theorem Capped.trans_zero (h : Capped s s' 0) (h' : Capped s' s'' 0) : Capped s s'' 0 := by
  have hboth := h.trans h'
  rwa [add_zero] at hboth

/-! ## Before the funds -/

theorem printRate_inPercent (percent : ℤ) : InPercent (State.printRate percent) := by
  unfold State.printRate
  split
  · decide
  · split
    · decide
    · rename_i hstart hstop
      simp only [InPercent, STEEMIT_SBD_START_PERCENT, STEEMIT_SBD_STOP_PERCENT, STEEMIT_1_PERCENT,
        STEEMIT_100_PERCENT] at hstart hstop ⊢
      omega

theorem capped_update_virtual_supply (h : s.update_virtual_supply = .ok s') : Capped s s' 0 := by
  unfold State.update_virtual_supply at h
  split at h
  · cases h
    exact .of_eq ⟨rfl, rfl, .refl _, rfl, id⟩ rfl
  · obtain ⟨value, -, h⟩ := bind_ok.1 h
    dsimp only at h
    split at h
    · obtain ⟨percent, -, h⟩ := bind_ok.1 h
      cases h
      exact .of_eq ⟨rfl, rfl, .refl _, rfl, fun _ => printRate_inPercent percent⟩ rfl
    · cases h
      exact .of_eq ⟨rfl, rfl, .refl _, rfl, id⟩ rfl

variable {amount : ℤ} {pay : WitnessPay}

theorem capped_whenPositive {step : State → Result State}
    (hstep : 0 < amount → step s = .ok s' → Capped s s' 0) (h : whenPositive amount step s = .ok s')
    : Capped s s' 0 := by
  unfold whenPositive at h
  split at h
  · rename_i hpos
    exact hstep hpos h
  · cases h
    exact .refl _

theorem capped_burnShares {a : Account} {converted : ℤ}
    (h : s.burnShares a = .ok (converted, s')) : Capped s s' 0 := by
  unfold State.burnShares at h
  split at h
  · obtain ⟨value, -, h⟩ := bind_ok.1 h
    obtain ⟨t, ht, h⟩ := bind_ok.1 h
    cases h
    have hmoved := moved_modifyAccount ht
    have hkept := hmoved.toSameChain.kept
    exact .of_eq ⟨hkept.last_hardfork, hkept.current_median_history, hkept.accounts, hkept.fund,
      hkept.print_rate⟩ hmoved.current_supply
  · cases h
    exact .refl _

theorem capped_burnRewardShares {a : Account} (h : State.burnRewardShares a s = .ok s') :
    Capped s s' 0 := by
  have hmoved := moved_modifyAccount h
  have hkept := hmoved.toSameChain.kept
  exact .of_eq ⟨hkept.last_hardfork, hkept.current_median_history, hkept.accounts, hkept.fund,
    hkept.print_rate⟩ hmoved.current_supply

theorem capped_burn (hpos : 0 < amount) (h : s.adjust_supply ⟨-amount, .STEEM⟩ false = .ok s') :
    Capped s s' 0 where
  toKept := (sameChain_adjust_supply h).kept
  current_supply _ := by
    rw [current_supply_adjust_steem h]
    simp only [State.newVesting, Bool.false_and, Bool.false_eq_true, ↓reduceIte]
    omega

theorem capped_clear_null_account_balance (h : s.clear_null_account_balance = .ok s') :
    Capped s s' 0 := by
  unfold State.clear_null_account_balance at h
  split at h
  · cases h
    exact .refl _
  · simp only [bind_ok] at h
    obtain ⟨a, -, t1, h1, t2, h2, t3, h3, t4, h4, ⟨converted, t5⟩, h5, t6, h6, t7, h7, t8, h8, t9,
      h9, h⟩ := h
    have c1 := capped_whenPositive (fun _ h => (moved_adjust_balance h).capped) h1
    have c2 := capped_whenPositive (fun _ h => (moved_adjust_savings_balance h).capped) h2
    have c3 := capped_whenPositive (fun _ h => (moved_adjust_balance h).capped) h3
    have c4 := capped_whenPositive (fun _ h => (moved_adjust_savings_balance h).capped) h4
    have c6 := capped_whenPositive (fun _ h => (moved_adjust_reward_balance h).capped) h6
    have c7 := capped_whenPositive (fun _ h => (moved_adjust_reward_balance h).capped) h7
    have c8 := capped_whenPositive (fun _ h => capped_burnRewardShares h) h8
    have c9 := capped_whenPositive capped_burn h9
    have c10 := capped_whenPositive (fun _ h => .of_eq (sameChain_adjust_supply h).kept
      (current_supply_adjust_sbd h)) h
    have hbalances := c1.trans_zero (c2.trans_zero (c3.trans_zero c4))
    have hrewards := (capped_burnShares h5).trans_zero (c6.trans_zero (c7.trans_zero c8))
    exact hbalances.trans_zero (hrewards.trans_zero (c9.trans_zero c10))

/-! ## The funds -/

theorem capped_payContent {reward used : ℤ} (h : s.payContent reward = .ok (used, s')) :
    Capped s s' 0 := by
  unfold State.payContent State.pay_reward_funds at h
  split at h
  · split at h
    · cases h
      exact .refl _
    · rename_i f hf
      obtain ⟨product, -, h⟩ := bind_ok.1 h
      replace h := ok_of_check h
      cases h
      exact .of_eq ⟨rfl, rfl, .refl _, by rw [hf]; rfl, id⟩ rfl
  · cases h
    exact .refl _

theorem capped_issueShares {issue : Issue} (h : s.issueShares pay = .ok (issue, s')) :
    Capped s s' 0 := by
  simp only [State.issueShares, bind_ok, exists_check_eq_ok] at h
  obtain ⟨_, -, _, -, ⟨content, t⟩, ht, _, -, _, -, _, -, -, h⟩ := h
  cases h
  exact capped_payContent ht

/-- After hardfork 16 the funds add the three shares. -/
theorem capped_process_funds (hfork : s.has_hardfork 16 = true) (h : s.process_funds pay = .ok s') :
    ∃ issue t, s.issueShares pay = .ok (issue, t) ∧ Capped s s' issue.total := by
  unfold State.process_funds at h
  rw [if_pos hfork] at h
  obtain ⟨⟨issue, t⟩, ht, h⟩ := bind_ok.1 h
  have henter : Capped t (t.enterIssue issue) issue.total := ⟨⟨rfl, rfl, .refl _, rfl, id⟩, fun _ => le_rfl⟩
  have hvesting : Capped (t.enterIssue issue) s' 0 := (moved_create_vesting h).capped
  have hall := ((capped_issueShares ht).trans henter).trans hvesting
  rw [zero_add, add_zero] at hall
  exact ⟨issue, t, ht, hall⟩

theorem kept_process_funds (h : s.process_funds pay = .ok s') : Kept s s' := by
  by_cases hfork : s.has_hardfork 16 = true
  · obtain ⟨_, _, -, hcapped⟩ := capped_process_funds hfork h
    exact hcapped.toKept
  · unfold State.process_funds at h
    rw [if_neg hfork] at h
    obtain ⟨_, -, h⟩ := bind_ok.1 h
    obtain ⟨_, -, h⟩ := bind_ok.1 h
    obtain ⟨⟨witness_pay, t⟩, ht, h⟩ := bind_ok.1 h
    have hpaid : Kept s t := by
      obtain ⟨_, -, ht⟩ := bind_ok.1 ht
      obtain ⟨a, -, ht⟩ := bind_ok.1 ht
      split at ht
      · obtain ⟨u, hu, ht⟩ := bind_ok.1 ht
        cases ht
        exact (moved_create_vesting hu).toSameChain.kept
      · cases ht
        exact (moved_putAccount s _ _).toSameChain.kept
    cases h
    exact ⟨hpaid.last_hardfork, hpaid.current_median_history, hpaid.accounts, hpaid.fund,
      hpaid.print_rate⟩

/-! ## Conversions and the rest -/

theorem moved_payConversions {l : List ConvertRequest} {r r' : (ℤ × ℤ) × State}
    (h : State.payConversions l r = .ok r') : Moved r.2 r'.2 := by
  induction l generalizing r with
  | nil =>
    cases h
    exact .refl _
  | cons q l ih =>
    obtain ⟨⟨net_sbd, net_steem⟩, s⟩ := r
    obtain ⟨to_issue, -, h⟩ := bind_ok.1 h
    obtain ⟨t, ht, h⟩ := bind_ok.1 h
    replace h := ok_of_check h
    have hrest := ih h
    refine (moved_adjust_balance ht).trans (Moved.trans ?_ hrest)
    refine ⟨?_, rfl⟩
    constructor <;> rfl

/-- The STEEM that conversions pay out is new. -/
theorem capped_process_conversions {paid : ℤ} (h : s.process_conversions = .ok (paid, s')) :
    Capped s s' paid := by
  unfold State.process_conversions at h
  split at h
  · cases h
    exact .refl _
  · obtain ⟨⟨⟨net_sbd, net_steem⟩, t⟩, ht, h⟩ := bind_ok.1 h
    obtain ⟨value, -, h⟩ := bind_ok.1 h
    cases h
    have hmoved : Moved s t := moved_payConversions ht
    have hkept := hmoved.toSameChain.kept
    refine ⟨⟨hkept.last_hardfork, hkept.current_median_history, hkept.accounts, hkept.fund,
      hkept.print_rate⟩, fun _ => ?_⟩
    exact (congrArg (· + paid) hmoved.current_supply).le

theorem capped_payWithdrawals {l : List Withdrawal} (h : State.payWithdrawals l s = .ok s') :
    Capped s s' 0 := by
  induction l generalizing s with
  | nil =>
    cases h
    exact .refl _
  | cons w l ih =>
    obtain ⟨t, ht, h⟩ := bind_ok.1 h
    have hrest := ih h
    refine (moved_modifyAccount ht).capped.trans_zero (Capped.trans_zero ?_ hrest)
    exact .of_eq ⟨rfl, rfl, .refl _, rfl, id⟩ rfl

theorem moved_paySavings {l : List SavingsWithdraw} (h : State.paySavings l s = .ok s') :
    Moved s s' := by
  induction l generalizing s with
  | nil =>
    cases h
    exact .refl _
  | cons w l ih =>
    obtain ⟨t, ht, h⟩ := bind_ok.1 h
    obtain ⟨u, hu, h⟩ := bind_ok.1 h
    have hrest := ih h
    exact (moved_adjust_balance ht).trans ((moved_dropRequest hu).trans hrest.of_withdraws)

theorem kept_pay_liquidity_reward {owner : Option AccountName}
    (h : s.pay_liquidity_reward owner = .ok s') : Kept s s' := by
  unfold State.pay_liquidity_reward at h
  split at h
  · obtain ⟨reward, -, h⟩ := bind_ok.1 h
    split at h
    · cases h
      exact .refl _
    · split at h
      · cases h
        exact .refl _
      · obtain ⟨t, ht, h⟩ := bind_ok.1 h
        exact (sameChain_adjust_supply ht).kept.trans (moved_adjust_balance h).toSameChain.kept
  · cases h
    exact .refl _

/-- After hardfork 12 there is no liquidity reward. -/
theorem capped_pay_liquidity_reward {owner : Option AccountName} (hfork : s.has_hardfork 12 = true)
    (h : s.pay_liquidity_reward owner = .ok s') : Capped s s' 0 := by
  refine .of_eq (kept_pay_liquidity_reward h) ?_
  unfold State.pay_liquidity_reward State.get_liquidity_reward at h
  rw [if_pos hfork] at h
  split at h
  · obtain ⟨reward, hreward, h⟩ := bind_ok.1 h
    cases hreward
    split at h
    · cases h
      rfl
    · rw [if_pos rfl] at h
      cases h
      rfl
  · cases h
    rfl

/-! ## The proof of work -/

/-- A `pow` is paid once there were enough of them, or a week after the genesis. -/
def State.PowPays (s : State) : Prop :=
  ¬(s.num_pow_witnesses + 1 < STEEMIT_MAX_WITNESSES ∧
    s.head_block_number < STEEMIT_START_VESTING_BLOCK)

instance (s : State) : Decidable s.PowPays := inferInstanceAs (Decidable (¬_))

theorem get_pow_reward_pos {t : State} {r : ℤ}
    (hcount : t.num_pow_witnesses = s.num_pow_witnesses + 1)
    (hnumber : t.head_block_number = s.head_block_number) (h : t.get_pow_reward = .ok r) :
    0 ≤ r ∧ (0 < r ↔ s.PowPays) := by
  unfold State.get_pow_reward at h
  rw [hcount, hnumber] at h
  unfold State.PowPays
  split at h
  · rename_i hearly
    cases h
    simp [hearly]
  · rename_i hlate
    obtain ⟨percent, -, h⟩ := bind_ok.1 h
    cases h
    have hmin : STEEMIT_MIN_POW_REWARD ≤ max percent STEEMIT_MIN_POW_REWARD := le_max_right _ _
    have hpos : 0 < STEEMIT_MIN_POW_REWARD := by decide
    exact ⟨by omega, iff_of_true (by omega) hlate⟩

/-- A reward that is issued raises the supply exactly if it is positive. -/
theorem current_supply_issue_iff (hamount : 0 ≤ amount)
    (h : s.adjust_supply ⟨amount, .STEEM⟩ true = .ok s') :
    s.current_supply < s'.current_supply ↔ 0 < amount := by
  rw [current_supply_adjust_steem h]
  unfold State.newVesting
  split <;> omega

/-- The payment, in a state with one more proof of work. -/
theorem payPow_spec {t : State} (hmoved : Moved s t)
    (hcount : t.num_pow_witnesses = s.num_pow_witnesses + 1) (h : t.payPow = .ok s') :
    SameChain s s' ∧ (s.current_supply < s'.current_supply ↔ s.PowPays) := by
  obtain ⟨r, hr, h⟩ := bind_ok.1 h
  obtain ⟨hnonneg, hpays⟩ := get_pow_reward_pos hcount hmoved.head_block_number hr
  rw [← hmoved.current_supply, ← hpays]
  split at h
  · obtain ⟨u, hu, h⟩ := bind_ok.1 h
    have hpaid := moved_adjust_balance h
    have htimes : (0 : ℤ) < r * STEEMIT_MAX_WITNESSES ↔ 0 < r := by
      simp only [STEEMIT_MAX_WITNESSES]
      omega
    refine ⟨hmoved.toSameChain.trans ((sameChain_adjust_supply hu).trans hpaid.toSameChain), ?_⟩
    rw [hpaid.current_supply, current_supply_issue_iff ?_ hu, htimes]
    simp only [STEEMIT_MAX_WITNESSES]
    omega
  · obtain ⟨u, hu, h⟩ := bind_ok.1 h
    have hpaid := moved_create_vesting h
    refine ⟨hmoved.toSameChain.trans ((sameChain_adjust_supply hu).trans hpaid.toSameChain), ?_⟩
    rw [hpaid.current_supply, current_supply_issue_iff hnonneg hu]

theorem pow_spec {o : PowOperation} (h : s.pow o = .ok s') :
    SameChain s s' ∧ (s.current_supply < s'.current_supply ↔ s.PowPays) := by
  replace h := ok_of_check h
  obtain ⟨_, -, h⟩ := bind_ok.1 h
  obtain ⟨t, ht, h⟩ := bind_ok.1 h
  have henter := moved_enterWorker s o.worker_account o.worker
  have hqueue := queueMiner_eq_ok ht
  subst hqueue
  refine payPow_spec (henter.trans ((moved_countPow _).trans (moved_putMiner _ _ _))) ?_ h
  change (s.enterWorker o.worker_account o.worker).num_pow_witnesses + 1 = _
  unfold State.enterWorker
  split <;> rfl

end Capped

end Calibrd.Chain.Ledger

namespace Calibrd.Chain.Rewards

open Calibrd.Lib Calibrd.Protocol
open Calibrd.Chain.Ledger (Kept Capped Issue)

/-! ## Operations -/

section Operations

variable {s s' : State} {id : CommentId}

/-- A `pow` with a reward. -/
def Operation.PaysPow (s : State) : Operation → Prop
  | pow _ => s.ledger.PowPays
  | _ => False

instance (s : State) (op : Operation) : Decidable (op.PaysPow s) := by
  unfold Operation.PaysPow
  split <;> infer_instance

theorem moved_onLedger {step : Ledger.State → Ledger.Result Ledger.State}
    (h : s.onLedger step = .ok s')
    (hstep : ∀ {l : Ledger.State}, step s.ledger = .ok l → Ledger.Moved s.ledger l) :
    Ledger.Moved s.ledger s'.ledger := by
  obtain ⟨l, hl, rfl⟩ := onLedger_eq_ok.1 h
  exact hstep hl

/-- A new account with a delegation changes the ledger and the voters. -/
theorem createDelegated_eq_ok {x y : AccountName} {fee delegation : ℤ}
    {active : Ledger.ActiveAuthority} (h : s.createDelegated x y fee delegation active = .ok s') :
    ∃ l voters, s.ledger.account_create_with_delegation x y fee delegation
        ((s.voters x).delegated_vesting_shares + (s.voters x).withdrawing) active = .ok l ∧
      s' = { s with ledger := l, voters } := by
  obtain ⟨t, ht, h⟩ := bind_ok.1 h
  obtain ⟨l, hl, rfl⟩ := onLedger_eq_ok.1 ht
  exact ⟨l, _, hl, (Except.ok.inj h).symm⟩

theorem moved_of_eq {l l' : Ledger.State} (h : l' = l) : Ledger.Moved l l' := h ▸ .refl l

/-- Every operation but `pow` moves value, and issues no STEEM. -/
theorem evaluate_moved {op : Operation} (hpow : ∀ o, op ≠ .pow o)
    (h : s.evaluate op = .ok s') : Ledger.Moved s.ledger s'.ledger := by
  cases op <;> dsimp only [State.evaluate] at h
  case transfer => exact moved_onLedger h Ledger.moved_transfer
  case transfer_to_vesting => exact moved_onLedger h Ledger.moved_transfer_to_vesting
  case account_create => exact moved_onLedger h Ledger.moved_account_create
  case account_create_with_delegation =>
    obtain ⟨l, _, hl, rfl⟩ := createDelegated_eq_ok h
    exact Ledger.moved_account_create_with_delegation hl
  case account_update => exact moved_onLedger h Ledger.moved_account_update
  case witness_update => exact moved_onLedger h Ledger.moved_witness_update
  case escrow_transfer => exact moved_onLedger h Ledger.moved_escrow_transfer
  case escrow_approve => exact moved_onLedger h Ledger.moved_escrow_approve
  case escrow_dispute => exact moved_onLedger h Ledger.moved_escrow_dispute
  case escrow_release => exact moved_onLedger h Ledger.moved_escrow_release
  case convert => exact moved_onLedger h Ledger.moved_convert_sbd
  case limit_order_create => exact moved_onLedger h Ledger.moved_limit_order_create
  case limit_order_create2 => exact moved_onLedger h Ledger.moved_limit_order_create2
  case limit_order_cancel => exact moved_onLedger h Ledger.moved_limit_order_cancel
  case transfer_to_savings => exact moved_onLedger h Ledger.moved_transfer_to_savings
  case transfer_from_savings => exact moved_onLedger h Ledger.moved_transfer_from_savings
  case cancel_transfer_from_savings =>
    exact moved_onLedger h Ledger.moved_cancel_transfer_from_savings
  case claim_reward_balance => exact moved_onLedger h Ledger.moved_claim_reward_balance
  case pow o => exact absurd rfl (hpow o)
  case pow2 => exact moved_onLedger h Ledger.moved_pow2
  case comment =>
    obtain ⟨_, -, h⟩ := bind_ok.1 h
    replace h := ok_of_check h
    cases h
    exact .refl _
  case comment_options =>
    obtain ⟨_, _, -, -, rfl⟩ := State.comment_options_eq h
    exact .refl _
  case delete_comment =>
    simp only [State.delete_comment, bind_ok, exists_check_eq_ok] at h
    obtain ⟨c, -, -, -, -, h⟩ := h
    cases h
    exact .refl _
  case vote =>
    obtain ⟨_, _, -, -, ⟨-, rfl⟩ | ⟨-, -, _, _, -, hvoted⟩⟩ := State.vote_voted h
    · exact .refl _
    · exact moved_of_eq hvoted.ledger
  case voter =>
    cases h
    exact .refl _
  case other =>
    cases h
    exact .refl _

/-- What an operation does to the price and to the supply. -/
theorem evaluate_spec {op : Operation} (h : s.evaluate op = .ok s') :
    Ledger.SameChain s.ledger s'.ledger ∧
      (s'.ledger.current_supply ≤ s.ledger.current_supply ↔ ¬op.PaysPow s) := by
  by_cases hpow : ∃ o, op = .pow o
  · obtain ⟨o, rfl⟩ := hpow
    dsimp only [State.evaluate] at h
    obtain ⟨l, hl, rfl⟩ := onLedger_eq_ok.1 h
    obtain ⟨hsame, hsupply⟩ := Ledger.pow_spec hl
    exact ⟨hsame, not_lt.symm.trans (not_congr hsupply)⟩
  · have hne : ∀ o, op ≠ .pow o := fun o heq => hpow ⟨o, heq⟩
    have hmoved := evaluate_moved hne h
    have hpays : ¬op.PaysPow s := by
      unfold Operation.PaysPow
      split
      · exact absurd rfl (hne _)
      · exact id
    exact ⟨hmoved.toSameChain, iff_of_true hmoved.current_supply.le hpays⟩

end Operations

/-! ## Blocks -/

section Blocks

variable {b : Block} {s s' : State}

theorem kept_operations {ops : List Operation} (h : ops.foldlM State.evaluate s = .ok s') :
    Kept s.ledger s'.ledger := by
  refine foldlM_rule (P := fun t : State => Kept s.ledger t.ledger) (fun ht heq => ?_) (.refl _) h
  exact ht.trans (evaluate_spec heq).1.kept

theorem capped_operations {ops : List Operation}
    (hpow : Along State.evaluate (fun t op => ¬op.PaysPow t) s ops)
    (h : ops.foldlM State.evaluate s = .ok s') : Capped s.ledger s'.ledger 0 := by
  induction ops generalizing s with
  | nil =>
    cases h
    exact .refl _
  | cons op ops ih =>
    rw [List.foldlM_cons] at h
    obtain ⟨t, ht, h⟩ := bind_ok.1 h
    obtain ⟨hfirst, hrest⟩ := hpow
    rw [performCall_of_ok ht] at hrest
    obtain ⟨hsame, hsupply⟩ := evaluate_spec ht
    have hle := hsupply.2 (hfirst (by rw [accepts, ht]))
    have hop : Capped s.ledger t.ledger 0 := ⟨hsame.kept, fun _ => by rwa [add_zero]⟩
    exact hop.trans_zero (ih hrest h)

theorem capped_process_comment_cashout (h : s.process_comment_cashout = .ok s') :
    Capped s.ledger s'.ledger 0 := by
  refine State.process_comment_cashout_rule (P := fun t => Capped s.ledger t.ledger 0)
    (fun ht hc heq => ?_) (fun _ _ hrules ht => ?_) (.refl _) h
  · obtain ⟨u, hu, rfl⟩ := cashout_comment_helper_eq heq
    have hspent : Capped _ u.ledger 0 :=
      ⟨hu.ledger.kept, fun hfeed => by rw [add_zero]; exact hu.current_supply hfeed⟩
    rw [State.settleVotes_ledger]
    split
    all_goals exact ht.trans_zero hspent
  · have hterms := Ledger.RewardFund.terms_of_rules hrules
    exact ⟨⟨ht.last_hardfork, ht.current_median_history, ht.accounts, hterms.trans ht.fund,
      ht.print_rate⟩, ht.current_supply⟩

theorem feedOk_setMedians {l : Ledger.State} (h : l.FeedOk) : (b.setMedians l).FeedOk := by
  unfold Block.setMedians Ledger.State.FeedOk
  cases hfeed : b.median_feed with
  | none => exact h
  | some p => exact .inr p.2

/-- Up to the funds; the price may be a new one. -/
theorem beforeFunds_spec {l l' : Ledger.State} (h : b.beforeFunds l = .ok l') :
    l'.last_hardfork = l.last_hardfork ∧
      l'.post_fund.map Ledger.RewardFund.terms = l.post_fund.map Ledger.RewardFund.terms ∧
      (l.FeedOk → l'.FeedOk ∧ l'.current_supply ≤ l.current_supply) := by
  obtain ⟨t, ht, h⟩ := bind_ok.1 h
  obtain ⟨u, hu, h⟩ := bind_ok.1 h
  have horders := (Ledger.moved_clear_expired_orders ht).capped
  have hlater := (Ledger.capped_update_virtual_supply hu).trans_zero
    (Ledger.capped_clear_null_account_balance h)
  refine ⟨hlater.last_hardfork.trans horders.last_hardfork, hlater.fund.trans horders.fund,
    fun hfeed => ?_⟩
  have hset := feedOk_setMedians (b := b) (horders.feedOk hfeed)
  have hfirst := horders.current_supply hfeed
  have hsecond := hlater.current_supply hset
  refine ⟨hlater.feedOk hset, ?_⟩
  change l'.current_supply ≤ t.current_supply + 0 at hsecond
  omega

theorem kept_afterCashout {l l' : Ledger.State} (h : b.afterCashout l = .ok l') : Kept l l' := by
  obtain ⟨t, ht, h⟩ := bind_ok.1 h
  obtain ⟨u, hu, h⟩ := bind_ok.1 h
  have hsavings := (Ledger.moved_paySavings hu).capped
  exact (Ledger.capped_payWithdrawals ht).toKept.trans
    (hsavings.toKept.trans (Ledger.kept_pay_liquidity_reward h))

theorem capped_afterCashout {l l' : Ledger.State} (hfork : l.has_hardfork 12 = true)
    (h : b.afterCashout l = .ok l') : Capped l l' 0 := by
  obtain ⟨t, ht, h⟩ := bind_ok.1 h
  obtain ⟨u, hu, h⟩ := bind_ok.1 h
  have hpaid := (Ledger.capped_payWithdrawals ht).trans_zero (Ledger.moved_paySavings hu).capped
  rw [← hpaid.has_hardfork] at hfork
  exact hpaid.trans_zero (Ledger.capped_pay_liquidity_reward hfork h)

theorem beforeCashout_steps (h : b.beforeCashout s = .ok s') :
    ∃ (t : State) (l2 l3 l4 : Ledger.State) (paid : ℤ),
      b.applyOperations s = .ok t ∧ b.beforeFunds (b.enter t).ledger = .ok l2 ∧
      l2.process_funds b.pay = .ok l3 ∧ l3.process_conversions = .ok (paid, l4) ∧
      s' = { b.enter t with ledger := l4 } := by
  replace h := ok_of_check h
  obtain ⟨t, ht, h⟩ := bind_ok.1 h
  obtain ⟨t2, h2, h⟩ := bind_ok.1 h
  obtain ⟨t3, h3, h⟩ := bind_ok.1 h
  obtain ⟨l2, hl2, rfl⟩ := onLedger_eq_ok.1 h2
  obtain ⟨l3, hl3, rfl⟩ := onLedger_eq_ok.1 h3
  obtain ⟨l4, hl4, rfl⟩ := onLedger_eq_ok.1 h
  obtain ⟨⟨paid, l4⟩, hpaid, rfl⟩ := map_eq_ok.1 hl4
  exact ⟨t, l2, l3, l4, paid, ht, hl2, hl3, hpaid, rfl⟩

theorem apply_steps (h : b.apply s = .ok s') :
    ∃ (t4 t5 : State) (l6 l7 l8 : Ledger.State),
      b.beforeCashout s = .ok t4 ∧ t4.process_comment_cashout = .ok t5 ∧
      b.afterCashout t5.ledger = .ok l6 ∧ l6.update_virtual_supply = .ok l7 ∧
      l7.expire_escrow_ratification = .ok l8 ∧
      Block.applyHardforks b.hardforks { t5 with ledger := l8 } = .ok s' := by
  obtain ⟨t7, h7, h⟩ := bind_ok.1 h
  obtain ⟨t8, h8, h⟩ := bind_ok.1 h
  obtain ⟨t4, h4, h7⟩ := bind_ok.1 h7
  obtain ⟨t5, h5, h7⟩ := bind_ok.1 h7
  obtain ⟨t6, h6, h7⟩ := bind_ok.1 h7
  obtain ⟨l6, hl6, rfl⟩ := onLedger_eq_ok.1 h6
  obtain ⟨l7, hl7, rfl⟩ := onLedger_eq_ok.1 h7
  obtain ⟨l8, hl8, rfl⟩ := onLedger_eq_ok.1 h8
  exact ⟨t4, t5, l6, l7, l8, h4, h5, hl6, hl7, hl8, h⟩

/-- Up to the payouts, the price stays one of the feeds. -/
theorem beforeCashout_feedOk (hs : s.ledger.FeedOk) (h : b.beforeCashout s = .ok s') :
    s'.ledger.FeedOk := by
  obtain ⟨t, l2, l3, l4, paid, h1, h2, h3, h4, rfl⟩ := beforeCashout_steps h
  have f1 : t.ledger.FeedOk := (kept_operations h1).feedOk hs
  have f2 : l2.FeedOk := ((beforeFunds_spec h2).2.2 f1).1
  have f3 : l3.FeedOk := (Ledger.kept_process_funds h3).feedOk f2
  exact (Ledger.capped_process_conversions h4).feedOk f3

/-- Every block keeps the price one of the feeds. -/
theorem apply_feedOk (hs : s.ledger.FeedOk) (h : b.apply s = .ok s') : s'.ledger.FeedOk := by
  obtain ⟨t4, t5, l6, l7, l8, h4, h5, h6, h7, h8, h⟩ := apply_steps h
  have f4 : t4.ledger.FeedOk := beforeCashout_feedOk hs h4
  have f5 : t5.ledger.FeedOk := (capped_process_comment_cashout h5).feedOk f4
  have f6 : l6.FeedOk := (kept_afterCashout h6).feedOk f5
  have f7 : l7.FeedOk := (Ledger.capped_update_virtual_supply h7).feedOk f6
  have f8 : l8.FeedOk := (Ledger.expire_escrow_ratification_spec h8).moved.toSameChain.feedOk f7
  have hprice : s'.ledger.current_median_history = l8.current_median_history :=
    congrArg (fun x => x.2.2.2) (supplies_applyHardforks h)
  rw [Ledger.State.FeedOk, hprice]
  exact f8

theorem runBlocks_feedOk (init_supply : ℤ) (blocks : List Block) :
    (runBlocks (init_genesis init_supply) blocks).ledger.FeedOk := by
  have hgenesis : (init_genesis init_supply).ledger.FeedOk := .inl rfl
  exact runCalls_rule_all (P := fun t : State => t.ledger.FeedOk) (fun hs h => apply_feedOk hs h)
    hgenesis blocks

/-- What `process_funds` issues in the block, and the STEEM that its conversions pay out. -/
def Block.minted (b : Block) (s : State) : Result (Issue × ℤ) := do
  let s ← b.applyOperations s
  let s ← (b.enter s).onLedger b.beforeFunds
  let (issue, _) ← withError .ledger (s.ledger.issueShares b.pay)
  let s ← s.onLedger (·.process_funds b.pay)
  let (paid, _) ← withError .ledger s.ledger.process_conversions
  .ok (issue, paid)

/-- Where the operations of the block start. -/
def Block.start (b : Block) (s : State) : State :=
  { s with ledger := { s.ledger with current_witness := b.witness } }

/-- No operation raises the current supply, and the block raises it by the three shares of the funds
and the conversions at most. -/
structure Block.BoundedIssuance (b : Block) (s s' : State) : Prop where
  operations : Along State.evaluate (fun t op =>
    (performCall State.evaluate t op).ledger.current_supply ≤ t.ledger.current_supply)
      (b.start s) b.operations
  block : ∃ issue paid, b.minted s = .ok (issue, paid) ∧ s'.ledger.current_supply ≤
    s.ledger.current_supply + (issue.content + issue.vesting + issue.witness) + paid

/-- No operation of the block is a `pow` with a reward. -/
def Block.NoPaidPow (b : Block) (s : State) : Prop :=
  Along State.evaluate (fun t op => ¬op.PaysPow t) (b.start s) b.operations

theorem operations_noPaidPow_iff (s : State) (ops : List Operation) :
    Along State.evaluate (fun t op =>
      (performCall State.evaluate t op).ledger.current_supply ≤ t.ledger.current_supply) s ops ↔
      Along State.evaluate (fun t op => ¬op.PaysPow t) s ops := by
  refine along_congr (fun {t t' op} h => ?_) s ops
  rw [performCall_of_ok h]
  exact (evaluate_spec h).2

/-- A block without a paid `pow`, once hardfork 16 is applied. -/
theorem apply_current_supply_le (hfeed : s.ledger.FeedOk)
    (hforks : STEEMIT_NUM_HARDFORKS ≤ s.ledger.last_hardfork) (hpow : b.NoPaidPow s)
    (h : b.apply s = .ok s') :
    ∃ issue paid, b.minted s = .ok (issue, paid) ∧ s'.ledger.current_supply ≤
      s.ledger.current_supply + (issue.content + issue.vesting + issue.witness) + paid := by
  obtain ⟨_, t5, l6, l7, l8, hstart, h5, h6, h7, h8, h⟩ := apply_steps h
  obtain ⟨t1, l2, l3, l4, paid, h1, h2, h3, h4, rfl⟩ := beforeCashout_steps hstart
  have c1 : Capped s.ledger t1.ledger 0 := by
    have hops := capped_operations hpow h1
    exact ⟨⟨hops.last_hardfork, hops.current_median_history, hops.accounts, hops.fund,
      hops.print_rate⟩, hops.current_supply⟩
  obtain ⟨hfork2, -, hbefore⟩ := beforeFunds_spec h2
  obtain ⟨f2, hle2⟩ := hbefore (c1.feedOk hfeed)
  have hlast : l2.last_hardfork = s.ledger.last_hardfork := hfork2.trans c1.last_hardfork
  have hfork16 : l2.has_hardfork 16 = true := by
    simp only [Ledger.State.has_hardfork, hlast, decide_eq_true_eq]
    exact le_trans (by decide) hforks
  obtain ⟨issue, u, hissue, c3⟩ := Ledger.capped_process_funds hfork16 h3
  have c5 := (c3.trans (Ledger.capped_process_conversions h4)).trans
    (capped_process_comment_cashout h5)
  have hfork12 : t5.ledger.has_hardfork 12 = true := by
    simp only [Ledger.State.has_hardfork, c5.last_hardfork, hlast, decide_eq_true_eq]
    exact le_trans (by decide) hforks
  have c8 := (capped_afterCashout hfork12 h6).trans_zero
    ((Ledger.capped_update_virtual_supply h7).trans_zero
      (Ledger.expire_escrow_ratification_spec h8).moved.capped)
  have hlater := (c5.trans c8).current_supply f2
  have hfirst := c1.current_supply hfeed
  have hlast' : s'.ledger.current_supply = l8.current_supply :=
    congrArg (fun x => x.1) (supplies_applyHardforks h)
  refine ⟨issue, paid, ?_, ?_⟩
  · refine bind_ok.2 ⟨t1, h1, ?_⟩
    refine bind_ok.2 ⟨_, onLedger_eq_ok.2 ⟨l2, h2, rfl⟩, ?_⟩
    refine bind_ok.2 ⟨(issue, u), withError_eq_ok.2 hissue, ?_⟩
    refine bind_ok.2 ⟨_, onLedger_eq_ok.2 ⟨l3, h3, rfl⟩, ?_⟩
    exact bind_ok.2 ⟨(paid, l4), withError_eq_ok.2 h4, rfl⟩
  · change l2.current_supply ≤ t1.ledger.current_supply at hle2
    simp only [Issue.total] at hlater
    omega

/-- In every state that blocks reach from a genesis, once all hardforks are applied, a block keeps to
the bounds exactly if no operation in it is a `pow` with a reward. -/
theorem apply_boundedIssuance_iff {init_supply : ℤ} {blocks : List Block}
    (hforks : (runBlocks (init_genesis init_supply) blocks).ledger.last_hardfork =
      STEEMIT_NUM_HARDFORKS)
    (h : b.apply (runBlocks (init_genesis init_supply) blocks) = .ok s') :
    b.BoundedIssuance (runBlocks (init_genesis init_supply) blocks) s' ↔
      b.NoPaidPow (runBlocks (init_genesis init_supply) blocks) := by
  refine ⟨fun hbounded => (operations_noPaidPow_iff _ _).1 hbounded.operations, fun hpow => ?_⟩
  have hfeed := runBlocks_feedOk init_supply blocks
  exact ⟨(operations_noPaidPow_iff _ _).2 hpow, apply_current_supply_le hfeed hforks.ge hpow h⟩

instance (b : Block) (s : State) : Decidable (b.NoPaidPow s) :=
  inferInstanceAs (Decidable (Along _ _ _ _))

/-- The first block, with all hardforks. -/
def forkBlock : Block := { minerBlock 3 [] with id := 2 ^ 128, hardforks := STEEMIT_NUM_HARDFORKS }

/-- Proofs of work for the first block by new accounts `worka`, `workb` and so on. -/
def powBlock (workers : ℕ) : Block :=
  minerBlock 6 ((List.range workers).map fun i => .pow
    { worker_account := (0x776f726b61 + i) * 2 ^ 88, block_id := forkBlock.id, worker := 2 + i
      work := 1 + i })

/-- The twenty-first `pow` is paid 21000, where the funds issue nothing. -/
theorem pow_issues_supply :
    (runBlocks (init_genesis 0) [forkBlock]).ledger.last_hardfork = STEEMIT_NUM_HARDFORKS ∧
      (runBlocks (init_genesis 0) [forkBlock]).ledger.current_supply = 3000 ∧
      ((powBlock 21).minted (runBlocks (init_genesis 0) [forkBlock])).toOption =
        some ({ content := 0, vesting := 0, witness := 0 }, 0) ∧
      ((powBlock 21).apply (runBlocks (init_genesis 0) [forkBlock])).toOption.map
        (fun s => s.ledger.current_supply) = some 24000 := by
  decide +kernel

/-- Twenty proofs of work are not paid. -/
theorem apply_boundedIssuance_iff_powBlock :
    (runBlocks (init_genesis 0) [forkBlock]).ledger.last_hardfork = STEEMIT_NUM_HARDFORKS ∧
      ∃ s', (powBlock 20).apply (runBlocks (init_genesis 0) [forkBlock]) = .ok s' ∧
        (powBlock 20).BoundedIssuance (runBlocks (init_genesis 0) [forkBlock]) s' := by
  have hforks : (runBlocks (init_genesis 0) [forkBlock]).ledger.last_hardfork =
      STEEMIT_NUM_HARDFORKS := by decide +kernel
  obtain ⟨s', h⟩ := exists_eq_ok
    (x := (powBlock 20).apply (runBlocks (init_genesis 0) [forkBlock])) (by decide +kernel)
  exact ⟨hforks, s', h, (apply_boundedIssuance_iff hforks h).2 (by decide +kernel)⟩

end Blocks

end Calibrd.Chain.Rewards
