import Calibrd.Chain.VoteCounts
import Calibrd.Chain.VestingSteps

/-!
# The shares add up

In every state of a run of the vesting model the shares of the accounts are not negative and their
sum is `total_vesting_shares`, and the votes are tallied (`run_balanced`). So no account has more
shares than there are, and no witness a negative number of votes.
-/

namespace Calibrd.Chain.WitnessVotes.State

open Calibrd.Lib Calibrd.Lib.Forest

variable {s s' : State} {a : AccountId}

structure Balanced (s : State) : Prop where
  core : s.Core
  nonneg : ∀ x, 0 ≤ s.shares x
  total : s.total_vesting_shares = ∑ x ∈ s.nodes, s.shares x

namespace Balanced

section

variable (h : s.Balanced)

include h

theorem shares_le_total (a : AccountId) : s.shares a ≤ s.total_vesting_shares := by
  rw [h.total]
  by_cases ha : a < s.num_accounts
  · exact Finset.single_le_sum (fun x _ => h.nonneg x) (Finset.mem_range.2 ha)
  · rw [h.core.links.fresh_shares (not_lt.1 ha)]
    exact Finset.sum_nonneg fun x _ => h.nonneg x

theorem levelBelow_nonneg (parent : AccountId → Option AccountId) (k : ℕ)
    (x : AccountId) : 0 ≤ s.levelBelow parent k x := by
  unfold State.levelBelow level
  refine Finset.sum_nonneg fun y _ => ?_
  split
  · exact h.nonneg y
  · exact le_rfl

/-- After hardfork 1 the votes wait for the next count, so they are not the tally then. -/
theorem votes_nonneg (hfork : s.last_hardfork ≠ 1) (w : WitnessId) :
    0 ≤ s.votes w := by
  rw [h.core.tallied.votes hfork w]
  refine Finset.sum_nonneg fun x _ => ?_
  split
  · exact Finset.sum_nonneg fun k _ => h.levelBelow_nonneg s.proxyOf k x
  · exact le_rfl

theorem changedBy {d : AccountId → ℤ} {t : ℤ} (hcore : s'.Core)
    (hc : ChangedBy s s' d t) (ht : ∑ x ∈ s.nodes, d x = t) (hd : ∀ x, 0 ≤ s.shares x + d x) :
    s'.Balanced where
  core := hcore
  nonneg x := by
    rw [hc.shares]
    exact hd x
  total := by
    have hnodes : s'.nodes = s.nodes := congrArg Finset.range hc.num_accounts
    simp only [hc.total, h.total, hnodes, hc.shares, Finset.sum_add_distrib, ht]

theorem sameShares (hcore : s'.Core) (hs : SameShares s s') : s'.Balanced :=
  h.changedBy hcore hs.changedBy (by simp) fun x => by simpa using h.nonneg x

theorem addShares {v : ℤ} (hv : 0 ≤ v) (hs : s.addShares a v = .ok s') :
    s'.Balanced := by
  have ha : a ∈ s.nodes := Finset.mem_range.2 (check_decide_ok.1 hs).1
  refine h.changedBy (h.core.addShares hs) (.addShares hs) ?_ fun x => ?_
  · rw [Finset.sum_ite_eq' s.nodes a fun _ => v, if_pos ha]
  · refine add_nonneg (h.nonneg x) ?_
    split
    · exact hv
    · exact le_rfl

end

/-- What the routes vest arrives at accounts. -/
theorem sum_vested {to_withdraw n : ℕ} {routes : List Route}
    (h : ∀ x, n ≤ x → vested to_withdraw routes x = 0) :
    ∑ x ∈ Finset.range n, vested to_withdraw routes x = deposited true to_withdraw routes := by
  induction routes with
  | nil => simp [vested, deposited]
  | cons r rest ih =>
    -- both summands vanish outside of the accounts
    have hparts : ∀ x, n ≤ x →
        (if r.auto_vest ∧ r.to_account = x then (r.to_deposit to_withdraw : ℤ) else 0) = 0 ∧
          vested to_withdraw rest x = 0 := by
      intro x hx
      have hsum := h x hx
      have hrest := vested_nonneg to_withdraw rest x
      rw [vested] at hsum
      split at hsum
      · rename_i hr
        rw [if_pos hr]
        omega
      · rename_i hr
        rw [if_neg hr]
        omega
    simp only [vested, Finset.sum_add_distrib, ih fun x hx => (hparts x hx).2]
    cases hauto : r.auto_vest with
    | false => simp [deposited, hauto]
    | true =>
      have hfirst : ∑ x ∈ Finset.range n,
          (if r.to_account = x then (r.to_deposit to_withdraw : ℤ) else 0) =
            r.to_deposit to_withdraw := by
        rw [Finset.sum_ite_eq]
        split
        · rfl
        · rename_i hout
          have hzero := (hparts r.to_account (by simpa using hout)).1
          rw [if_pos ⟨hauto, rfl⟩] at hzero
          exact hzero.symm
      simp [deposited, hauto, hfirst]

variable (h : s.Balanced)

include h

theorem withdrawVesting {to_withdraw : ℕ} {routes : List Route}
    (hle : (to_withdraw : ℤ) ≤ s.shares a) (hs : s.withdrawVesting a to_withdraw routes = .ok s') :
    s'.Balanced := by
  have ha : a ∈ s.nodes := Finset.mem_range.2 (check_decide_ok.1 hs).1
  have hdeposit : ∀ x, s.num_accounts ≤ x → vested to_withdraw routes x = 0 := by
    replace hs := ok_of_check hs
    obtain ⟨s1, h1, -⟩ := bind_ok.1 hs
    exact (ChangedBy.depositVests h1).fresh
  refine h.changedBy (h.core.withdrawVesting hs) (.withdrawVesting hs) ?_ fun x => ?_
  · rw [Finset.sum_add_distrib, Finset.sum_ite_eq' s.nodes a fun _ => -(to_withdraw : ℤ), if_pos ha,
      State.nodes, sum_vested hdeposit, sub_eq_add_neg]
  · have hvested := vested_nonneg to_withdraw routes x
    have hnonneg := h.nonneg x
    split
    · rename_i hx
      rw [hx] at hvested ⊢
      omega
    · omega

theorem clear_null_account_balance : s.clear_null_account_balance.Balanced := by
  have hcore := h.core.clear_null_account_balance
  unfold State.clear_null_account_balance at hcore ⊢
  dsimp only at hcore ⊢
  split
  · rename_i hcond
    rw [if_pos hcond] at hcore
    have hstate : { s.modifyAccount STEEMIT_NULL_ACCOUNT fun acc => { acc with vesting_shares := 0 }
        with total_vesting_shares :=
          s.total_vesting_shares - (s.accounts STEEMIT_NULL_ACCOUNT).vesting_shares } =
        s.withShares STEEMIT_NULL_ACCOUNT (-s.shares STEEMIT_NULL_ACCOUNT)
          (s.total_vesting_shares + -s.shares STEEMIT_NULL_ACCOUNT) := by
      simp [withShares, modifyAccount, shares, sub_eq_add_neg]
    rw [hstate] at hcore ⊢
    have hnull := h.core.links.null_lt
    refine h.changedBy hcore (.withShares hnull _ _) ?_ fun x => ?_
    · rw [Finset.sum_ite_eq' s.nodes STEEMIT_NULL_ACCOUNT,
        if_pos (show STEEMIT_NULL_ACCOUNT ∈ s.nodes from Finset.mem_range.2 hnull)]
    · have hnonneg := h.nonneg x
      split
      · rename_i hx
        rw [hx]
        omega
      · omega
  · exact h

theorem createAccount : s.createAccount.Balanced := by
  have hlinks := h.core.links
  have hshares : s.createAccount.shares = s.shares := shares_createAccount hlinks
  have hnodes : s.createAccount.nodes = Finset.range (s.num_accounts + 1) := rfl
  refine ⟨h.core.createAccount, fun x => ?_, ?_⟩
  · rw [hshares]
    exact h.nonneg x
  · rw [hshares, hnodes, Finset.sum_range_succ, hlinks.fresh_shares le_rfl, add_zero]
    exact h.total

theorem applyNextHardfork (hs : s.applyNextHardfork = .ok s') : s'.Balanced := by
  obtain ⟨hsplit, -⟩ := SplitBy.applyNextHardfork hs
  have hone := one_le_nextSplit s
  refine ⟨h.core.applyNextHardfork hs, fun x => ?_, ?_⟩
  · rw [hsplit.shares]
    exact mul_nonneg (h.nonneg x) (by omega)
  · have hnodes : s'.nodes = s.nodes := congrArg Finset.range hsplit.num_accounts
    simp only [hsplit.total, hsplit.shares, hnodes, h.total, Finset.sum_mul]

end Balanced

end Calibrd.Chain.WitnessVotes.State

namespace Calibrd.Chain.Vesting

open Calibrd.Lib
open Calibrd.Chain.WitnessVotes (AccountId STEEMIT_NULL_ACCOUNT)
open Calibrd.Chain.WitnessVotes.State (Balanced SameShares)

variable {s s' : State}

namespace State

theorem withdrawalAmount_le (s : State) (a : AccountId) : s.withdrawalAmount a ≤ s.shares a := by
  unfold withdrawalAmount
  dsimp only
  split <;> exact min_le_left _ _

/-! ## What each call does to shares and fund -/

/-- `steem` is vested for `a` at the share price, which may be a new account. -/
structure Vested (s s' : State) (a : AccountId) (steem vests : ℤ) : Prop where
  price : s.toVests steem = .ok vests
  base : s.base.addShares a vests = .ok s'.base ∨ s.base.createAccount.addShares a vests = .ok s'.base
  fund : s'.total_vesting_fund_steem = s.total_vesting_fund_steem + steem

end State

/-- What an accepted call does to the shares and to the fund behind them. -/
inductive StakeEffect (s : State) : Call → State → Prop
  | same {c : Call} {s' : State} (base : s'.base = s.base)
      (fund : s'.total_vesting_fund_steem = s.total_vesting_fund_steem) : StakeEffect s c s'
  | created {c : Call} {s' : State} (base : s'.base = s.base.createAccount)
      (fund : s'.total_vesting_fund_steem = s.total_vesting_fund_steem) : StakeEffect s c s'
  | vested {c : Call} {s' : State} {a : AccountId} {steem : ℕ} {vests : ℤ}
      (h : s.Vested s' a steem vests) : StakeEffect s c s'
  | claimed {s' : State} {account : AccountId} {reward_vests : ℕ}
      (base : s.base.addShares account reward_vests = .ok s'.base)
      (fund : s'.total_vesting_fund_steem =
        s.total_vesting_fund_steem + s.steemToMove account reward_vests) :
      StakeEffect s (.claim_reward_balance account reward_vests) s'
  | processed {s' : State} (h : s.process_vesting_withdrawals = .ok s') :
      StakeEffect s .process_vesting_withdrawals s'
  | cleared {s' : State} (h : s.clear_null_account_balance = .ok s') :
      StakeEffect s .clear_null_account_balance s'
  | votes {c : Call} {s' : State} (core : s.base.Core → s'.base.Core)
      (shares : SameShares s.base s'.base)
      (fund : s'.total_vesting_fund_steem = s.total_vesting_fund_steem) : StakeEffect s c s'
  | hardfork {s' : State} (base : s.base.applyNextHardfork = .ok s'.base)
      (fund : s'.total_vesting_fund_steem = s.total_vesting_fund_steem) :
      StakeEffect s .apply_hardfork s'
  | funded {s' : State} {steem : ℕ} (base : s'.base = s.base)
      (fund : s'.total_vesting_fund_steem = s.total_vesting_fund_steem + steem) :
      StakeEffect s (.add_to_fund steem) s'

variable {c : Call} {a : AccountId}

namespace StakeEffect

theorem create_vesting {steem : ℕ} (hs : s.create_vesting a steem = .ok s') :
    StakeEffect s c s' := by
  obtain ⟨v, hv, hs⟩ := bind_ok.1 hs
  obtain ⟨base, hbase, hs⟩ := bind_ok.1 hs
  cases hs
  exact .vested ⟨hv, .inl (withError_eq_ok.1 hbase), rfl⟩

theorem fee {s1 : State} {fee : ℕ} (hbase : s1.base = s.base.createAccount)
    (hfund : s1.total_vesting_fund_steem = s.total_vesting_fund_steem)
    (hs : (if 0 < fee then s1.create_vesting a fee else .ok s1) = .ok s') : StakeEffect s c s' := by
  split at hs
  · obtain ⟨v, hv, hs⟩ := bind_ok.1 hs
    obtain ⟨base, hadd, hs⟩ := bind_ok.1 hs
    have hprice : s1.toVests fee = s.toVests fee := by
      rw [State.toVests, hbase, hfund]
      rfl
    have hshares := withError_eq_ok.1 hadd
    rw [WitnessVotes.State.create_vesting, hbase] at hshares
    cases hs
    refine .vested ⟨hprice ▸ hv, .inr hshares, ?_⟩
    dsimp only
    rw [hfund]
  · cases hs
    exact .created hbase hfund

theorem of_votes {x : Except WitnessVotes.VoteError WitnessVotes.State}
    (hcore : ∀ {base}, s.base.Core → x = .ok base → base.Core)
    (hx : ∀ {base}, x = .ok base → SameShares s.base base)
    (hs : (do .ok { s with base := ← withError VestingError.votes x }) = Except.ok s') :
    StakeEffect s c s' := by
  obtain ⟨base, hbase, hs⟩ := bind_ok.1 hs
  cases hs
  exact .votes (fun h => hcore h (withError_eq_ok.1 hbase)) (hx (withError_eq_ok.1 hbase)) rfl

end StakeEffect

theorem Call.stakeEffect (hs : c.apply s = .ok s') : StakeEffect s c s' := by
  have hsigner := Call.signer_ne_null hs
  replace hs := (check_bind_ok.1 hs).2
  cases c with
  | create_vesting to_account steem => exact .create_vesting hs
  | createReward to_account steem =>
    replace hs := ok_of_check hs
    obtain ⟨v, -, hs⟩ := bind_ok.1 hs
    cases hs
    exact .same rfl rfl
  | claim_reward_balance account reward_vests =>
    replace hs := ok_of_check hs
    replace hs := ok_of_check hs
    obtain ⟨base, hbase, hs⟩ := bind_ok.1 hs
    cases hs
    exact .claimed (withError_eq_ok.1 hbase) rfl
  | account_create creator fee =>
    replace hs := ok_of_check hs
    replace hs := ok_of_check hs
    replace hs := ok_of_check hs
    exact .fee (by rfl) (by rfl) hs
  | account_create_with_delegation creator fee delegation =>
    replace hs := ok_of_check hs
    replace hs := ok_of_check hs
    replace hs := ok_of_check hs
    replace hs := ok_of_check hs
    obtain ⟨target, -, hs⟩ := bind_ok.1 hs
    obtain ⟨current, -, hs⟩ := bind_ok.1 hs
    replace hs := ok_of_check hs
    replace hs := ok_of_check hs
    exact .fee (by rfl) (by rfl) hs
  | delegate_vesting_shares delegator delegatee v =>
    obtain ⟨-, -, -, -, hcases⟩ := State.delegate_vesting_shares_cases hs
    obtain ⟨-, -, rfl⟩ | ⟨d, -, -, -, rfl⟩ | ⟨d, -, -, rfl⟩ := hcases <;> exact .same rfl rfl
  | clear_expired_delegations =>
    cases hs
    have hsame : s.clear_expired_delegations.base = s.base ∧
        s.clear_expired_delegations.total_vesting_fund_steem = s.total_vesting_fund_steem :=
      State.returnDelegations_rule (P := fun t => t.base = s.base ∧
        t.total_vesting_fund_steem = s.total_vesting_fund_steem) (fun h _ => h) ⟨rfl, rfl⟩
    exact .same hsame.1 hsame.2
  | withdraw_vesting account v =>
    obtain ⟨-, -, ⟨-, rfl⟩ | ⟨-, rfl⟩⟩ := State.withdraw_vesting_cases hs <;> exact .same rfl rfl
  | set_withdraw_vesting_route from_account to_account percent auto_vest =>
    obtain ⟨-, -, hs, -⟩ := State.set_withdraw_vesting_route_eq_ok hs
    rcases State.changeRoute_cases hs with ⟨-, -, rfl⟩ | ⟨_, -, rfl⟩ | ⟨_, -, rfl⟩ <;>
      exact .same rfl rfl
  | process_vesting_withdrawals => exact .processed hs
  | clear_null_account_balance => exact .cleared hs
  | create_witness =>
    cases hs
    exact .votes (fun h => h.createWitness) ⟨rfl, rfl, rfl, rfl⟩ rfl
  | account_witness_proxy account proxy =>
    exact .of_votes (fun h => h.account_witness_proxy fun e => hsigner (congrArg some e))
      .account_witness_proxy hs
  | account_witness_vote account witness approve =>
    exact .of_votes (fun h => h.account_witness_vote fun e => hsigner (congrArg some e))
      .account_witness_vote hs
  | decline_voting_rights account =>
    exact .of_votes (fun h => h.declineVotingRights fun e => hsigner (congrArg some e))
      .declineVotingRights hs
  | apply_hardfork =>
    obtain ⟨base, hbase, hs⟩ := bind_ok.1 hs
    cases hs
    exact .hardfork (withError_eq_ok.1 hbase) rfl
  | add_to_fund steem =>
    cases hs
    exact .funded rfl rfl
  | advance_time _ =>
    replace hs := ok_of_check hs
    cases hs
    exact .same rfl rfl
  | set_account_creation_fee _ | adjust_balance _ _ =>
    cases hs
    exact .same rfl rfl

/-! ## The shares add up -/

theorem State.base_clear_null_account_balance (hs : s.clear_null_account_balance = .ok s') :
    s'.base = s.base.clear_null_account_balance := by
  cases State.NullCleared.of_ok hs with
  | early hfork => exact (if_neg fun h => hfork h.1).symm
  | balance hzero => exact (if_neg fun h => hzero h.2).symm
  | shares => rfl

theorem State.balanced_processWithdrawal (h : s.base.Balanced) (hs : s.processWithdrawal a = .ok s')
    : s'.base.Balanced := by
  simp only [State.processWithdrawal, bind_ok, exists_check_eq_ok] at hs
  obtain ⟨hamount, base, hbase, paid, -, converted, -, hs⟩ := hs
  cases hs
  refine h.withdrawVesting ?_ (withError_eq_ok.1 hbase)
  rw [Int.toNat_of_nonneg (of_decide_eq_true hamount)]
  exact s.withdrawalAmount_le a

theorem StakeEffect.balanced (h : s.base.Balanced) (he : StakeEffect s c s') :
    s'.base.Balanced := by
  cases he with
  | same base fund => rwa [base]
  | created base fund =>
    rw [base]
    exact h.createAccount
  | vested hv =>
    obtain hbase | hbase := hv.base
    · exact h.addShares (mulPrice_nonneg hv.price) hbase
    · exact h.createAccount.addShares (mulPrice_nonneg hv.price) hbase
  | claimed base fund => exact h.addShares (Int.natCast_nonneg _) base
  | processed hs =>
    exact State.process_vesting_withdrawals_rule (P := fun t => t.base.Balanced)
      (fun h _ _ hw => State.balanced_processWithdrawal h hw) h hs
  | cleared hs =>
    rw [State.base_clear_null_account_balance hs]
    exact h.clear_null_account_balance
  | votes core shares fund => exact h.sameShares (core h.core) shares
  | hardfork base fund => exact h.applyNextHardfork base
  | funded base fund => rwa [base]

theorem genesis_balanced : genesis.base.Balanced where
  core := WitnessVotes.genesis_inv.core
  nonneg _ := le_rfl
  total := by decide

end Calibrd.Chain.Vesting
