import Calibrd.Chain.Config
import Calibrd.Lib.Check
import Calibrd.Lib.OrdMap
import Calibrd.Lib.Runs
import Calibrd.Chain.WitnessVotes

/-!
# Vesting: delegation and withdrawal

The evaluators and maintenance steps that change an account's vesting shares, its delegations and
its withdrawal: `create_vesting` and `claim_reward_balance`, `account_create` with and without
delegation, `delegate_vesting_shares`, `clear_expired_delegations`, `withdraw_vesting`,
`set_withdraw_vesting_route`, `process_vesting_withdrawals`, `clear_null_account_balance` and the
hardforks.

Shares, proxies and votes are those of `WitnessVotes.State`, which is a part of the state here. The
STEEM of rewards and fees is an argument. Amounts are integers; that a sum leaves 64 bits is not modelled.
-/

namespace Calibrd.Chain.Vesting

open Calibrd.Lib
open Calibrd.Chain.WitnessVotes (AccountId WitnessId VoteError Route STEEMIT_NULL_ACCOUNT)

def STEEMIT_VESTING_WITHDRAW_INTERVALS_PRE_HF_16 : ℤ := 104

def STEEMIT_VESTING_WITHDRAW_INTERVALS : ℤ := 13

def STEEMIT_VESTING_WITHDRAW_INTERVAL_SECONDS : ℕ := 60 * 60 * 24 * 7

def STEEMIT_MAX_WITHDRAW_ROUTES : ℕ := 10

/-- `fc::days( 30 )`. -/
def STEEMIT_CREATE_ACCOUNT_DELEGATION_TIME : ℕ := 60 * 60 * 24 * 30

/-- `STEEMIT_MIN_ACCOUNT_CREATION_FEE`, the default of `median_props.account_creation_fee`. -/
def STEEMIT_MIN_ACCOUNT_CREATION_FEE : ℤ := 1

/-- The fields of `account_object` for delegation and withdrawal, and the STEEM balance they are
paid into. For `next_vesting_withdrawal`, `none` is `time_point_sec::maximum()`. -/
structure Power where
  balance : ℤ := 0
  delegated_vesting_shares : ℤ := 0
  received_vesting_shares : ℤ := 0
  vesting_withdraw_rate : ℤ := 0
  next_vesting_withdrawal : Option ℕ := none
  withdrawn : ℤ := 0
  to_withdraw : ℤ := 0
  withdraw_routes : ℕ := 0

/-- `vesting_delegation_object`. -/
structure Delegation where
  delegator : AccountId
  delegatee : AccountId
  vesting_shares : ℤ
  min_delegation_time : ℕ

/-- `vesting_delegation_expiration_object`. -/
structure Expiration where
  delegator : AccountId
  vesting_shares : ℤ
  expiration : ℕ

/-- The fields of `account_object` for rewards in vesting shares. -/
structure Reward where
  reward_vesting_balance : ℕ := 0
  reward_vesting_steem : ℕ := 0

structure State where
  base : WitnessVotes.State
  power : AccountId → Power
  rewards : AccountId → Reward
  pending_rewarded_vesting_shares : ℤ
  pending_rewarded_vesting_steem : ℤ
  /-- By `by_delegation`: delegator and delegatee. -/
  delegations : OrdMap (AccountId ×ₗ AccountId) Delegation
  /-- By `by_expiration`: time and id. -/
  expirations : OrdMap (ℕ ×ₗ ℕ) Expiration
  next_expiration_id : ℕ
  /-- By `by_withdraw_route`: source and destination. -/
  routes : OrdMap (AccountId ×ₗ AccountId) Route
  total_vesting_fund_steem : ℤ
  /-- `median_props.account_creation_fee` of the witness schedule. -/
  account_creation_fee : ℤ
  head_block_time : ℕ

inductive VestingError where
  | votes (e : VoteError)
  | price
  | unknown_account
  | insufficient_balance
  | insufficient_delegation_shares
  | insufficient_delegation
  | insufficient_fee
  | negative_amount
  | insufficient_power
  | below_minimum_power
  | rate_unchanged
  | zero_destination
  | too_many_routes
  | over_hundred_percent
  | invalid_percent
  | delegation_to_self
  | insufficient_shares
  | below_minimum_delegation
  | small_increase
  | small_decrease
  | below_minimum_rest
  | already_zero
  | negative_withdrawal
  | claim_too_large
  | time_limit
  | out_of_steps
deriving DecidableEq, Repr

/-- `asset * price` in 128 bits, over the side of the price that the asset is not on. -/
def mulPrice (amount num den : ℤ) : Except VestingError ℤ := do
  check (decide (0 < den)) .price
  let result := amount % 2 ^ 128 * (num % 2 ^ 128) % 2 ^ 128 / den
  check (decide (result < 2 ^ 64)) .price
  .ok result

/-- `get_vesting_share_price` for a total of shares and a fund, as VESTS and STEEM. -/
def vestingSharePrice (total fund : ℤ) : ℤ × ℤ :=
  if fund = 0 ∨ total = 0 then (1000000, 1000) else (total, fund)

def vestsToSteem (total fund vests : ℤ) : Except VestingError ℤ :=
  mulPrice vests (vestingSharePrice total fund).2 (vestingSharePrice total fund).1

def steemToVests (total fund steem : ℤ) : Except VestingError ℤ :=
  mulPrice steem (vestingSharePrice total fund).1 (vestingSharePrice total fund).2

namespace State

variable (s : State)

def shares (a : AccountId) : ℤ := (s.base.accounts a).vesting_shares

def get_account (a : AccountId) : Except VestingError Unit :=
  check (decide (a < s.base.num_accounts)) .unknown_account

def modifyPower (a : AccountId) (f : Power → Power) : State :=
  { s with power := Function.update s.power a (f (s.power a)) }

def toVests (steem : ℤ) : Except VestingError ℤ :=
  steemToVests s.base.total_vesting_shares s.total_vesting_fund_steem steem

/-- What an account may still delegate. -/
def available (a : AccountId) : ℤ :=
  s.shares a - (s.power a).delegated_vesting_shares -
    ((s.power a).to_withdraw - (s.power a).withdrawn)

/-! ## Shares -/

/-- `create_vesting` to the vesting balance. -/
def create_vesting (to_account : AccountId) (steem : ℤ) : Except VestingError State := do
  let new_vesting ← s.toVests steem
  let base ← withError .votes (s.base.create_vesting to_account new_vesting)
  .ok { s with base := base, total_vesting_fund_steem := s.total_vesting_fund_steem + steem }

def setReward (a : AccountId) (r : Reward) (shares steem : ℤ) : State :=
  { s with
    rewards := Function.update s.rewards a r
    pending_rewarded_vesting_shares := s.pending_rewarded_vesting_shares + shares
    pending_rewarded_vesting_steem := s.pending_rewarded_vesting_steem + steem }

/-- `create_vesting` to the reward balance, at `get_reward_vesting_share_price`. -/
def createReward (to_account : AccountId) (steem : ℕ) : Except VestingError State := do
  s.get_account to_account
  let new_vesting ← mulPrice steem
    (s.base.total_vesting_shares + s.pending_rewarded_vesting_shares)
    (s.total_vesting_fund_steem + s.pending_rewarded_vesting_steem)
  let r := s.rewards to_account
  .ok (s.setReward to_account
    { reward_vesting_balance := r.reward_vesting_balance + new_vesting.toNat
      reward_vesting_steem := r.reward_vesting_steem + steem } new_vesting steem)

/-- `reward_vesting_steem_to_move`. -/
def steemToMove (account : AccountId) (reward_vests : ℕ) : ℕ :=
  let r := s.rewards account
  if reward_vests = r.reward_vesting_balance then r.reward_vesting_steem
  else reward_vests * r.reward_vesting_steem % 2 ^ 128 / r.reward_vesting_balance % 2 ^ 64

/-- `claim_reward_balance` for the reward in vesting shares. -/
def claim_reward_balance (account : AccountId) (reward_vests : ℕ) : Except VestingError State := do
  s.get_account account
  let r := s.rewards account
  check (decide (reward_vests ≤ r.reward_vesting_balance)) .claim_too_large
  let steem := s.steemToMove account reward_vests
  let s' := s.setReward account
    { reward_vesting_balance := r.reward_vesting_balance - reward_vests
      reward_vesting_steem := r.reward_vesting_steem - steem } (-reward_vests) (-steem)
  let base ← withError .votes (s.base.claim_reward_balance account reward_vests)
  .ok { s' with base := base, total_vesting_fund_steem := s.total_vesting_fund_steem + steem }

/-! ## Accounts and delegations -/

def account_create (creator : AccountId) (fee : ℕ) : Except VestingError State := do
  s.get_account creator
  check (decide (fee ≤ (s.power creator).balance)) .insufficient_balance
  check (decide (s.account_creation_fee * STEEMIT_CREATE_ACCOUNT_WITH_STEEM_MODIFIER ≤ fee))
    .insufficient_fee
  let s' := s.modifyPower creator fun p => { p with balance := p.balance - fee }
  let s' := { s' with
    base := s'.base.createAccount
    power := Function.update s'.power s.base.num_accounts {} }
  if 0 < fee then s'.create_vesting s.base.num_accounts fee else .ok s'

def account_create_with_delegation (creator : AccountId) (fee : ℕ) (delegation : ℤ) :
    Except VestingError State := do
  check (decide (0 ≤ delegation)) .negative_amount
  s.get_account creator
  check (decide (fee ≤ (s.power creator).balance)) .insufficient_balance
  check (decide (delegation ≤ s.available creator)) .insufficient_delegation_shares
  let target ← s.toVests (s.account_creation_fee * STEEMIT_CREATE_ACCOUNT_WITH_STEEM_MODIFIER *
    STEEMIT_CREATE_ACCOUNT_DELEGATION_RATIO)
  let current ← s.toVests (fee * STEEMIT_CREATE_ACCOUNT_DELEGATION_RATIO)
  check (decide (target ≤ current + delegation)) .insufficient_delegation
  check (decide (s.account_creation_fee ≤ fee)) .insufficient_fee
  let s' := s.modifyPower creator fun p => { p with
    balance := p.balance - fee
    delegated_vesting_shares := p.delegated_vesting_shares + delegation }
  let s' := { s' with
    base := s'.base.createAccount
    power := Function.update s'.power s.base.num_accounts { received_vesting_shares := delegation }
    delegations :=
      if 0 < delegation then
        s'.delegations.insert (toLex (creator, s.base.num_accounts))
          { delegator := creator
            delegatee := s.base.num_accounts
            vesting_shares := delegation
            min_delegation_time := s.head_block_time + STEEMIT_CREATE_ACCOUNT_DELEGATION_TIME }
      else s'.delegations }
  if 0 < fee then s'.create_vesting s.base.num_accounts fee else .ok s'

/-- The two accounts of a delegation that grows by `delta`. -/
def grow (delegator delegatee : AccountId) (delta : ℤ) : State :=
  (s.modifyPower delegator fun p =>
    { p with delegated_vesting_shares := p.delegated_vesting_shares + delta }).modifyPower delegatee
    fun p => { p with received_vesting_shares := p.received_vesting_shares + delta }

def setDelegation (delegator delegatee : AccountId) (d : Delegation) : State :=
  { s with delegations := s.delegations.insert (toLex (delegator, delegatee)) d }

/-- The delegation shrinks: what is taken back waits in an expiration object. -/
def takeBack (delegator delegatee : AccountId) (d : Delegation) (vesting_shares : ℤ) : State :=
  let delta := d.vesting_shares - vesting_shares
  let expiration :=
    max (s.head_block_time + STEEMIT_CASHOUT_WINDOW_SECONDS) d.min_delegation_time
  let s' := s.modifyPower delegatee fun p =>
    { p with received_vesting_shares := p.received_vesting_shares - delta }
  { s' with
    expirations := s.expirations.insert (toLex (expiration, s.next_expiration_id))
      { delegator := delegator, vesting_shares := delta, expiration := expiration }
    next_expiration_id := s.next_expiration_id + 1
    delegations :=
      if 0 < vesting_shares then
        s.delegations.insert (toLex (delegator, delegatee)) { d with vesting_shares := vesting_shares }
      else s.delegations.erase (toLex (delegator, delegatee)) }

def delegate_vesting_shares (delegator delegatee : AccountId) (vesting_shares : ℤ) :
    Except VestingError State := do
  check (decide (delegator ≠ delegatee)) .delegation_to_self
  check (decide (0 ≤ vesting_shares)) .negative_amount
  s.get_account delegator
  s.get_account delegatee
  let min_delegation ← s.toVests (s.account_creation_fee * 10)
  let min_update ← s.toVests s.account_creation_fee
  match s.delegations.find? (toLex (delegator, delegatee)) with
  | none =>
    check (decide (vesting_shares ≤ s.available delegator)) .insufficient_shares
    check (decide (min_delegation ≤ vesting_shares)) .below_minimum_delegation
    .ok ((s.grow delegator delegatee vesting_shares).setDelegation delegator delegatee
      { delegator, delegatee, vesting_shares, min_delegation_time := s.head_block_time })
  | some d =>
    if d.vesting_shares ≤ vesting_shares then
      check (decide (min_update ≤ vesting_shares - d.vesting_shares)) .small_increase
      check (decide (vesting_shares - d.vesting_shares ≤ s.available delegator))
        .insufficient_shares
      .ok ((s.grow delegator delegatee (vesting_shares - d.vesting_shares)).setDelegation delegator
        delegatee { d with vesting_shares := vesting_shares })
    else
      if 0 < vesting_shares then
        check (decide (min_update ≤ d.vesting_shares - vesting_shares)) .small_decrease
        check (decide (min_delegation ≤ vesting_shares)) .below_minimum_rest
        .ok (s.takeBack delegator delegatee d vesting_shares)
      else
        check (decide (0 < d.vesting_shares)) .already_zero
        .ok (s.takeBack delegator delegatee d vesting_shares)

/-- The first expired delegation goes back to its delegator. -/
def returnDelegation (key : ℕ ×ₗ ℕ) (e : Expiration) : State :=
  { s.modifyPower e.delegator fun p =>
      { p with delegated_vesting_shares := p.delegated_vesting_shares - e.vesting_shares } with
    expirations := s.expirations.erase key }

/-- The loop of `clear_expired_delegations` over the expirations in order of time. -/
def returnDelegations : List ((ℕ ×ₗ ℕ) × Expiration) → State → State
  | [], s => s
  | (key, e) :: rest, s =>
    if e.expiration < s.head_block_time then returnDelegations rest (s.returnDelegation key e)
    else s

def clear_expired_delegations : State := returnDelegations s.expirations.rows s

/-! ## Withdrawals -/

def withdraw_vesting (account : AccountId) (vesting_shares : ℤ) : Except VestingError State := do
  s.get_account account
  let p := s.power account
  check (decide (0 ≤ s.shares account)) .insufficient_power
  check (decide (vesting_shares ≤ s.shares account - p.delegated_vesting_shares))
    .insufficient_power
  let fee_vests ← s.toVests s.account_creation_fee
  check (decide (fee_vests * 10 < s.shares account ∨ vesting_shares = 0)) .below_minimum_power
  if vesting_shares = 0 then
    check (decide (p.vesting_withdraw_rate ≠ 0)) .rate_unchanged
    .ok (s.modifyPower account fun p =>
      { p with
        vesting_withdraw_rate := 0
        next_vesting_withdrawal := none
        to_withdraw := 0
        withdrawn := 0 })
  else
    -- the division rounds towards zero
    let quotient := vesting_shares.tdiv STEEMIT_VESTING_WITHDRAW_INTERVALS
    let rate := if quotient = 0 then 1 else quotient
    check (decide (p.vesting_withdraw_rate ≠ rate)) .rate_unchanged
    .ok (s.modifyPower account fun p =>
      { p with
        vesting_withdraw_rate := rate
        next_vesting_withdrawal :=
          some (s.head_block_time + STEEMIT_VESTING_WITHDRAW_INTERVAL_SECONDS)
        to_withdraw := vesting_shares
        withdrawn := 0 })

/-- The routes that withdrawals of `a` follow. The search starts behind the route to account 0, so
that one is never used. -/
def routesOf (a : AccountId) : List Route :=
  (s.routes.rows.filter fun r => (ofLex r.1).1 = a ∧ 0 < (ofLex r.1).2).map Prod.snd

/-- The route from `from_account` to `to_account` is created, removed or changed. -/
def changeRoute (from_account to_account : AccountId) (percent : ℕ) (auto_vest : Bool) :
    Except VestingError State :=
  let key := toLex (from_account, to_account)
  match s.routes.find? key with
  | none => do
    check (decide (percent ≠ 0)) .zero_destination
    check (decide ((s.power from_account).withdraw_routes < STEEMIT_MAX_WITHDRAW_ROUTES))
      .too_many_routes
    .ok { s.modifyPower from_account fun p =>
        { p with withdraw_routes := (p.withdraw_routes + 1) % 2 ^ 16 } with
      routes := s.routes.insert key { to_account, percent, auto_vest } }
  | some _ =>
    if percent = 0 then
      .ok { s.modifyPower from_account fun p =>
          { p with withdraw_routes := (p.withdraw_routes + (2 ^ 16 - 1)) % 2 ^ 16 } with
        routes := s.routes.erase key }
    else .ok { s with routes := s.routes.insert key { to_account, percent, auto_vest } }

def set_withdraw_vesting_route (from_account to_account : AccountId) (percent : ℕ)
    (auto_vest : Bool) : Except VestingError State := do
  check (decide (percent ≤ STEEMIT_100_PERCENT)) .invalid_percent
  s.get_account from_account
  s.get_account to_account
  let s' ← s.changeRoute from_account to_account percent auto_vest
  let total_percent := ((s'.routesOf from_account).map Route.percent).sum % 2 ^ 16
  check (decide (total_percent ≤ STEEMIT_100_PERCENT)) .over_hundred_percent
  .ok s'

/-- The amount of one withdrawal. -/
def withdrawalAmount (a : AccountId) : ℤ :=
  let p := s.power a
  if p.to_withdraw - p.withdrawn < p.vesting_withdraw_rate then
    min (s.shares a) (p.to_withdraw.tmod p.vesting_withdraw_rate)
  else min (s.shares a) p.vesting_withdraw_rate

end State

/-- The STEEM side of a withdrawal: what is left of shares and fund, and the balances. -/
structure Payout where
  total : ℤ
  fund : ℤ
  power : AccountId → Power

def Payout.pay (m : Payout) (a : AccountId) (vests steem : ℤ) : Payout where
  total := m.total - vests
  fund := m.fund - steem
  power := Function.update m.power a { m.power a with balance := (m.power a).balance + steem }

/-- The second pass over the routes: what is converted. -/
def payRoutes (to_withdraw : ℕ) : List Route → Payout → Except VestingError Payout
  | [], m => .ok m
  | r :: rest, m =>
    if r.auto_vest then payRoutes to_withdraw rest m
    else do
      let to_deposit := r.to_deposit to_withdraw
      let converted ← vestsToSteem m.total m.fund to_deposit
      payRoutes to_withdraw rest
        (if 0 < to_deposit then m.pay r.to_account to_deposit converted else m)

namespace State

variable (s : State)

/-- The record of an account after a withdrawal of `to_withdraw` that left it `shares`. -/
def settle (p : Power) (to_withdraw shares : ℤ) : Power :=
  let withdrawn := p.withdrawn + to_withdraw
  if p.to_withdraw ≤ withdrawn ∨ shares = 0 then
    { p with withdrawn, vesting_withdraw_rate := 0, next_vesting_withdrawal := none }
  else
    { p with
      withdrawn
      next_vesting_withdrawal :=
        p.next_vesting_withdrawal.map (· + STEEMIT_VESTING_WITHDRAW_INTERVAL_SECONDS) }

/-- `process_vesting_withdrawals` for one account. A negative amount always throws: the part of a
route does not fit into 64 bits, and without routes the rest to convert is negative. -/
def processWithdrawal (a : AccountId) : Except VestingError State := do
  check (decide (0 ≤ s.withdrawalAmount a)) .negative_withdrawal
  let to_withdraw := (s.withdrawalAmount a).toNat
  let routes := s.routesOf a
  let base ← withError .votes (s.base.withdrawVesting a to_withdraw routes)
  let paid ← payRoutes to_withdraw routes
    { total := s.base.total_vesting_shares, fund := s.total_vesting_fund_steem, power := s.power }
  let to_convert : ℤ := to_withdraw - WitnessVotes.State.deposited false to_withdraw routes -
    WitnessVotes.State.deposited true to_withdraw routes
  let converted ← vestsToSteem paid.total paid.fund to_convert
  let rest := paid.pay a to_convert converted
  .ok { s with
    base := base
    total_vesting_fund_steem := rest.fund
    power := Function.update rest.power a
      (settle (rest.power a) to_withdraw (base.accounts a).vesting_shares) }

/-- `by_next_vesting_withdrawal`: the accounts with a withdrawal, by time and id. -/
def withdrawalIndex : List (ℕ ×ₗ ℕ) :=
  ((List.range s.base.num_accounts).filterMap fun a =>
    (s.power a).next_vesting_withdrawal.map fun t => toLex (t, a)).mergeSort fun x y => decide (x ≤ y)

/-- The loop over the index. `current` is where its iterator stands; the next place is taken before
the account is changed. -/
def processFrom : ℕ → Option (ℕ ×ₗ ℕ) → State → Except VestingError State
  | _, none, s => .ok s
  | steps, some current, s =>
    if s.head_block_time < (ofLex current).1 then .ok s
    else
      match steps with
      | 0 => .error .out_of_steps
      | steps + 1 => do
        let next := s.withdrawalIndex.find? fun k => decide (current < k)
        processFrom steps next (← s.processWithdrawal (ofLex current).2)

/-- The loop visits increasing times and ids, so it ends within this many steps. -/
def process_vesting_withdrawals : Except VestingError State :=
  processFrom ((s.head_block_time + 1) * s.base.num_accounts) s.withdrawalIndex.head? s

/-! ## The null account and hardforks -/

/-- The null account loses its reward, if it is one of shares. -/
def clearNullReward : State :=
  let r := s.rewards STEEMIT_NULL_ACCOUNT
  let lost : Reward := if 0 < r.reward_vesting_balance then r else {}
  s.setReward STEEMIT_NULL_ACCOUNT (if 0 < r.reward_vesting_balance then {} else r)
    (-lost.reward_vesting_balance) (-lost.reward_vesting_steem)

def clear_null_account_balance : Except VestingError State := do
  if s.base.has_hardfork 14 then
    let s' := s.clearNullReward.modifyPower STEEMIT_NULL_ACCOUNT fun p =>
      { p with balance := min p.balance 0 }
    if 0 < s.shares STEEMIT_NULL_ACCOUNT then
      let converted ← vestsToSteem s.base.total_vesting_shares s.total_vesting_fund_steem
        (s.shares STEEMIT_NULL_ACCOUNT)
      .ok { s' with
        base := s.base.clear_null_account_balance
        total_vesting_fund_steem := s.total_vesting_fund_steem - converted }
    else .ok s'
  else .ok s

/-- `perform_vesting_share_split` for the withdrawal of an account. -/
def splitPower (magnitude : ℤ) (p : Power) : Power :=
  let to_withdraw := p.to_withdraw * magnitude
  let quotient := to_withdraw.tdiv STEEMIT_VESTING_WITHDRAW_INTERVALS_PRE_HF_16
  { p with
    withdrawn := p.withdrawn * magnitude
    to_withdraw
    vesting_withdraw_rate := if quotient = 0 then 1 else quotient }

/-- Hardfork 19 removes the delegations of 0 shares. -/
def dropEmptyDelegations (delegations : OrdMap (AccountId ×ₗ AccountId) Delegation) :
    OrdMap (AccountId ×ₗ AccountId) Delegation :=
  (delegations.rows.filter fun r => r.2.vesting_shares = 0).foldl (fun m r => m.erase r.1)
    delegations

def applyNextHardfork : Except VestingError State := do
  let base ← withError .votes s.base.applyNextHardfork
  .ok { s with
    base := base
    power :=
      if base.last_hardfork = 1 then fun a => splitPower 1000000 (s.power a) else s.power
    delegations :=
      if base.last_hardfork = 19 then dropEmptyDelegations s.delegations else s.delegations }

end State

/-! ## Runs -/

def genesis : State where
  base := WitnessVotes.genesis
  power _ := {}
  rewards _ := {}
  pending_rewarded_vesting_shares := 0
  pending_rewarded_vesting_steem := 0
  delegations := .empty
  expirations := .empty
  next_expiration_id := 0
  routes := .empty
  total_vesting_fund_steem := 0
  account_creation_fee := STEEMIT_MIN_ACCOUNT_CREATION_FEE
  head_block_time := 1458835200

/-- Operations and maintenance. The calls after `apply_hardfork` stand for the rest of the chain: a
new block time, inflation, a new median fee, a change of a STEEM balance. -/
inductive Call where
  | create_vesting (to_account : AccountId) (steem : ℕ)
  | createReward (to_account : AccountId) (steem : ℕ)
  | claim_reward_balance (account : AccountId) (reward_vests : ℕ)
  | account_create (creator : AccountId) (fee : ℕ)
  | account_create_with_delegation (creator : AccountId) (fee : ℕ) (delegation : ℤ)
  | delegate_vesting_shares (delegator delegatee : AccountId) (vesting_shares : ℤ)
  | clear_expired_delegations
  | withdraw_vesting (account : AccountId) (vesting_shares : ℤ)
  | set_withdraw_vesting_route (from_account to_account : AccountId) (percent : ℕ)
      (auto_vest : Bool)
  | process_vesting_withdrawals
  | clear_null_account_balance
  | create_witness
  | account_witness_proxy (account : AccountId) (proxy : Option AccountId)
  | account_witness_vote (account : AccountId) (witness : WitnessId) (approve : Bool)
  | decline_voting_rights (account : AccountId)
  | apply_hardfork
  | advance_time (seconds : ℕ)
  | add_to_fund (steem : ℕ)
  | set_account_creation_fee (fee : ℕ)
  | adjust_balance (account : AccountId) (delta : ℤ)

/-- The account whose authority the call needs. -/
def Call.signer : Call → Option AccountId
  | claim_reward_balance account _ => some account
  | account_create creator _ => some creator
  | account_create_with_delegation creator _ _ => some creator
  | delegate_vesting_shares delegator _ _ => some delegator
  | withdraw_vesting account _ => some account
  | set_withdraw_vesting_route from_account _ _ _ => some from_account
  | account_witness_proxy account _ => some account
  | account_witness_vote account _ _ => some account
  | decline_voting_rights account => some account
  | _ => none

def Call.evaluate (s : State) : Call → Except VestingError State
  | create_vesting to_account steem => s.create_vesting to_account steem
  | createReward to_account steem => s.createReward to_account steem
  | claim_reward_balance account reward_vests => s.claim_reward_balance account reward_vests
  | account_create creator fee => s.account_create creator fee
  | account_create_with_delegation creator fee delegation =>
    s.account_create_with_delegation creator fee delegation
  | delegate_vesting_shares delegator delegatee vesting_shares =>
    s.delegate_vesting_shares delegator delegatee vesting_shares
  | clear_expired_delegations => .ok s.clear_expired_delegations
  | withdraw_vesting account vesting_shares => s.withdraw_vesting account vesting_shares
  | set_withdraw_vesting_route from_account to_account percent auto_vest =>
    s.set_withdraw_vesting_route from_account to_account percent auto_vest
  | process_vesting_withdrawals => s.process_vesting_withdrawals
  | clear_null_account_balance => s.clear_null_account_balance
  | create_witness => .ok { s with base := s.base.createWitness }
  | account_witness_proxy account proxy => do
    .ok { s with base := ← withError .votes (s.base.account_witness_proxy account proxy) }
  | account_witness_vote account witness approve => do
    .ok { s with base := ← withError .votes (s.base.account_witness_vote account witness approve) }
  | decline_voting_rights account => do
    .ok { s with base := ← withError .votes (s.base.declineVotingRights account) }
  | apply_hardfork => s.applyNextHardfork
  | advance_time seconds => do
    check (decide (s.head_block_time + seconds < TIME_LIMIT)) .time_limit
    .ok { s with head_block_time := s.head_block_time + seconds }
  | add_to_fund steem =>
    .ok { s with total_vesting_fund_steem := s.total_vesting_fund_steem + steem }
  | set_account_creation_fee fee => .ok { s with account_creation_fee := fee }
  | adjust_balance account delta =>
    .ok (s.modifyPower account fun p => { p with balance := p.balance + delta })

def Call.apply (s : State) (c : Call) : Except VestingError State := do
  check (decide (c.signer ≠ some STEEMIT_NULL_ACCOUNT)) (.votes .missing_authority)
  c.evaluate s

/-- A run of calls; one that throws changes nothing. -/
def run (s : State) (calls : List Call) : State := runCalls Call.apply s calls

end Calibrd.Chain.Vesting
