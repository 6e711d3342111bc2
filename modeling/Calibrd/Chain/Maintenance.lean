import Calibrd.Chain.Config
import Calibrd.Chain.Market
import Calibrd.Chain.Rewards
import Calibrd.Chain.Transfers

/-!
# The balances over a block

The steps of `_apply_block` that change balances or supply, in their order: the operations, then
`clear_expired_orders`, `update_median_feed`, `update_virtual_supply`, `clear_null_account_balance`,
`process_funds`, `process_conversions`, `process_comment_cashout`, `process_vesting_withdrawals`,
`process_savings_withdraws`, `pay_liquidity_reward`, `update_virtual_supply` again,
`expire_escrow_ratification` and the hardforks.

What other parts of the chain decide is given with the block: the medians that the witnesses vote
for, the price of the feeds, the pay of the witness, the withdrawals of vesting shares and who has
traded most.
-/

namespace Calibrd.Chain.Ledger

open Calibrd.Lib Calibrd.Protocol

def STEEMIT_BLOCKS_PER_YEAR : ℕ := 365 * 24 * 60 * 60 / STEEMIT_BLOCK_INTERVAL

def STEEMIT_INFLATION_RATE_START_PERCENT : ℤ := 978

def STEEMIT_INFLATION_RATE_STOP_PERCENT : ℤ := 95

def STEEMIT_INFLATION_NARROWING_PERIOD : ℕ := 250000

def STEEMIT_CONTENT_REWARD_PERCENT : ℤ := 75 * STEEMIT_1_PERCENT

def STEEMIT_VESTING_FUND_PERCENT : ℤ := 15 * STEEMIT_1_PERCENT

def STEEMIT_APR_PERCENT_MULTIPLY_PER_BLOCK : ℤ := 0x5ccce802de5f

def STEEMIT_APR_PERCENT_SHIFT_PER_BLOCK : ℕ := 87

def STEEMIT_APR_PERCENT_MULTIPLY_PER_HOUR : ℤ := 0x6cc139a15cbd

def STEEMIT_APR_PERCENT_SHIFT_PER_HOUR : ℕ := 77

def STEEMIT_MINING_REWARD : ℤ := 1000

def STEEMIT_CURATE_APR_PERCENT : ℤ := 3875

def STEEMIT_CONTENT_APR_PERCENT : ℤ := 3875

def STEEMIT_LIQUIDITY_APR_PERCENT : ℤ := 750

def STEEMIT_PRODUCER_APR_PERCENT : ℤ := 750

def STEEMIT_LIQUIDITY_REWARD_BLOCKS : ℕ := 60 * 60 / STEEMIT_BLOCK_INTERVAL

def STEEMIT_MIN_LIQUIDITY_REWARD : ℤ := 1000 * STEEMIT_LIQUIDITY_REWARD_BLOCKS

/-- How the schedule pays the witness of a block. -/
structure WitnessPay where
  /-- `timeshare_weight`, `miner_weight` or `top19_weight`; any other schedule has none. -/
  weight : ℤ := 1
  witness_pay_normalization_factor : ℤ

/-- STEEM that leaves the vesting fund for an account, with the changes of shares. -/
structure Withdrawal where
  account : AccountName
  steem : ℤ
  shares : ℤ
  total_shares : ℤ

/-- What `process_funds` issues after hardfork 16. -/
structure Issue where
  content : ℤ
  vesting : ℤ
  witness : ℤ
deriving DecidableEq, Repr

def Issue.total (i : Issue) : ℤ := i.content + i.vesting + i.witness

/-- A step that is only made for a positive amount. -/
def whenPositive (amount : ℤ) (step : State → Result State) (s : State) : Result State :=
  if 0 < amount then step s else .ok s

namespace State

variable (s : State)

/-! ## Burning -/

/-- The shares of the null account leave the fund; returns the STEEM. -/
def burnShares (a : Account) : Result (ℤ × State) :=
  if 0 < a.vesting_shares then do
    let converted ← withError .asset
      ((⟨a.vesting_shares, .VESTS⟩ : Asset).mul s.get_vesting_share_price)
    let s := { s with
      total_vesting_shares := s.total_vesting_shares - a.vesting_shares
      total_vesting_fund_steem := s.total_vesting_fund_steem - converted.amount }
    let s ← s.modifyAccount STEEMIT_NULL_ACCOUNT fun a => { a with vesting_shares := 0 }
    .ok (converted.amount, s)
  else .ok (0, s)

/-- Rewards in shares that wait for the null account. -/
def burnRewardShares (a : Account) (s : State) : Result State :=
  let s := { s with
    pending_rewarded_vesting_shares := s.pending_rewarded_vesting_shares - a.reward_vesting_balance
    pending_rewarded_vesting_steem := s.pending_rewarded_vesting_steem - a.reward_vesting_steem }
  s.modifyAccount STEEMIT_NULL_ACCOUNT fun a =>
    { a with reward_vesting_steem := 0, reward_vesting_balance := 0 }

def clear_null_account_balance : Result State :=
  if !s.has_hardfork 14 then .ok s
  else do
    let a ← s.get_account STEEMIT_NULL_ACCOUNT
    let s ← whenPositive a.purse.steem
      (·.adjust_balance STEEMIT_NULL_ACCOUNT ⟨-a.purse.steem, .STEEM⟩) s
    let s ← whenPositive a.savings.steem
      (·.adjust_savings_balance STEEMIT_NULL_ACCOUNT ⟨-a.savings.steem, .STEEM⟩) s
    let s ← whenPositive a.purse.sbd.balance
      (·.adjust_balance STEEMIT_NULL_ACCOUNT ⟨-a.purse.sbd.balance, .SBD⟩) s
    let s ← whenPositive a.savings.sbd.balance
      (·.adjust_savings_balance STEEMIT_NULL_ACCOUNT ⟨-a.savings.sbd.balance, .SBD⟩) s
    let (converted, s) ← s.burnShares a
    let s ← whenPositive a.reward_steem_balance
      (·.adjust_reward_balance STEEMIT_NULL_ACCOUNT ⟨-a.reward_steem_balance, .STEEM⟩) s
    let s ← whenPositive a.reward_sbd_balance
      (·.adjust_reward_balance STEEMIT_NULL_ACCOUNT ⟨-a.reward_sbd_balance, .SBD⟩) s
    let s ← whenPositive a.reward_vesting_balance (burnRewardShares a) s
    let total_steem := max a.purse.steem 0 + max a.savings.steem 0 + converted +
      max a.reward_steem_balance 0 + if 0 < a.reward_vesting_balance then a.reward_vesting_steem else 0
    let total_sbd := max a.purse.sbd.balance 0 + max a.savings.sbd.balance 0 +
      max a.reward_sbd_balance 0
    let s ← whenPositive total_steem (·.adjust_supply ⟨-total_steem, .STEEM⟩ false) s
    whenPositive total_sbd (·.adjust_supply ⟨-total_sbd, .SBD⟩ false) s

/-! ## Inflation -/

def current_inflation_rate : ℤ :=
  max (STEEMIT_INFLATION_RATE_START_PERCENT -
    (s.head_block_number / STEEMIT_INFLATION_NARROWING_PERIOD : ℕ))
    STEEMIT_INFLATION_RATE_STOP_PERCENT

/-- `pay_reward_funds`: returns the rewards that the fund takes. -/
def pay_reward_funds (reward : ℤ) : Result (ℤ × State) :=
  match s.post_fund with
  | none => .ok (0, s)
  | some f => do
    let product ← safeMul reward f.percent_content_rewards
    let used := product.tdiv STEEMIT_100_PERCENT
    check (used ≤ reward) .used_rewards
    .ok (used, { s with post_fund := some { f with reward_balance := f.reward_balance + used } })

/-- From hardfork 17 on the content rewards go to the fund. -/
def payContent (reward : ℤ) : Result (ℤ × State) :=
  if s.has_hardfork 17 then s.pay_reward_funds reward else .ok (reward, s)

/-- The shares of the new STEEM, with the fund paid. -/
def issueShares (pay : WitnessPay) : Result (Issue × State) := do
  let yearly ← safeMul s.virtual_supply s.current_inflation_rate
  let new_steem := yearly.tdiv (STEEMIT_100_PERCENT * STEEMIT_BLOCKS_PER_YEAR)
  let content ← safeMul new_steem STEEMIT_CONTENT_REWARD_PERCENT
  let (content, s) ← s.payContent (content.tdiv STEEMIT_100_PERCENT)
  let vesting ← safeMul new_steem STEEMIT_VESTING_FUND_PERCENT
  let vesting := vesting.tdiv STEEMIT_100_PERCENT
  let witness ← safeMul (new_steem - content - vesting) STEEMIT_MAX_WITNESSES
  let witness ← safeMul witness pay.weight
  check (pay.witness_pay_normalization_factor ≠ 0) .divide_by_zero
  .ok ({ content, vesting, witness := witness.tdiv pay.witness_pay_normalization_factor }, s)

/-- The new STEEM in the totals. -/
def enterIssue (i : Issue) : State :=
  { s with
    total_vesting_fund_steem := s.total_vesting_fund_steem + i.vesting
    total_reward_fund_steem :=
      if s.has_hardfork 17 then s.total_reward_fund_steem else s.total_reward_fund_steem + i.content
    current_supply := s.current_supply + i.total
    virtual_supply := s.virtual_supply + i.total }

/-- The rewards per block before hardfork 16. -/
def rewardPerBlock (percent : ℤ) : Result ℤ := do
  let reward ← calc_percent_reward percent STEEMIT_APR_PERCENT_MULTIPLY_PER_BLOCK
    STEEMIT_APR_PERCENT_SHIFT_PER_BLOCK s.virtual_supply
  .ok (max reward STEEMIT_MINING_REWARD)

/-- `get_producer_reward` pays the witness, too. -/
def get_producer_reward : Result (ℤ × State) := do
  let pay ← s.rewardPerBlock STEEMIT_PRODUCER_APR_PERCENT
  let a ← s.get_account s.current_witness
  if STEEMIT_START_MINER_VOTING_BLOCK ≤ s.head_block_number ∨ a.vesting_shares = 0 then do
    let s ← s.create_vesting s.current_witness pay false
    .ok (pay, s)
  else
    .ok (pay, s.putAccount s.current_witness
      { a with purse := { a.purse with steem := a.purse.steem + pay } })

/-- `process_funds` before hardfork 16. -/
def process_funds_pre_hf16 : Result State := do
  let content ← s.rewardPerBlock STEEMIT_CONTENT_APR_PERCENT
  let curate ← s.rewardPerBlock STEEMIT_CURATE_APR_PERCENT
  let (witness_pay, s) ← s.get_producer_reward
  let vesting := if s.head_block_number < STEEMIT_START_VESTING_BLOCK then 0
    else (content + curate + witness_pay) * 9
  let issued := content + curate + witness_pay + vesting
  .ok { s with
    total_vesting_fund_steem := s.total_vesting_fund_steem + vesting
    total_reward_fund_steem := s.total_reward_fund_steem + (content + curate)
    current_supply := s.current_supply + issued
    virtual_supply := s.virtual_supply + issued }

def process_funds (pay : WitnessPay) : Result State :=
  if s.has_hardfork 16 then do
    let (i, s) ← s.issueShares pay
    (s.enterIssue i).create_vesting s.current_witness i.witness false
  else s.process_funds_pre_hf16

/-! ## Conversions -/

/-- The requests that are due, in the order of `by_conversion_date`. -/
def dueConversions : List ConvertRequest :=
  ((s.convert_requests.rows.map Prod.snd).filter fun r => r.conversion_date ≤ s.time).insertionSort
    fun a b => a.conversion_date < b.conversion_date ∨
      (a.conversion_date = b.conversion_date ∧ a.id ≤ b.id)

/-- The loop of `process_conversions`, with the sums of SBD and STEEM. -/
def payConversions : List ConvertRequest → (ℤ × ℤ) × State → Result ((ℤ × ℤ) × State)
  | [], r => .ok r
  | r :: rest, ((net_sbd, net_steem), s) => do
    let to_issue ← s.convert r.amount
    let s ← s.adjust_balance r.owner to_issue
    -- the sums are assets of these symbols
    check (r.amount.symbol = .SBD ∧ to_issue.symbol = .STEEM) .invalid_asset
    payConversions rest ((net_sbd + r.amount.amount, net_steem + to_issue.amount),
      { s with convert_requests := s.convert_requests.erase (toLex (r.owner, r.requestid)) })

/-- `process_conversions`, with the STEEM that is paid out. -/
def process_conversions : Result (ℤ × State) :=
  if s.current_median_history.is_null then .ok (0, s)
  else do
    let ((net_sbd, net_steem), s) ← payConversions s.dueConversions ((0, 0), s)
    let value ← s.convert ⟨net_sbd, .SBD⟩
    .ok (net_steem, { s with
      current_supply := s.current_supply + net_steem
      current_sbd_supply := s.current_sbd_supply - net_sbd
      virtual_supply := s.virtual_supply + net_steem - value.amount })

/-! ## The rest of the block -/

def payWithdrawals : List Withdrawal → State → Result State
  | [], s => .ok s
  | w :: rest, s => do
    let s ← s.modifyAccount w.account fun a =>
      { a with
        purse := { a.purse with steem := a.purse.steem + w.steem }
        vesting_shares := a.vesting_shares + w.shares }
    payWithdrawals rest { s with
      total_vesting_fund_steem := s.total_vesting_fund_steem - w.steem
      total_vesting_shares := s.total_vesting_shares + w.total_shares }

/-- The savings withdrawals that are complete, in the order of `by_complete_from_rid`. -/
def completeWithdraws : List SavingsWithdraw :=
  ((s.savings_withdraws.rows.map Prod.snd).filter fun w => w.complete ≤ s.time).insertionSort
    fun a b => a.complete < b.complete ∨ (a.complete = b.complete ∧
      toLex (a.from_account, a.request_id) ≤ toLex (b.from_account, b.request_id))

def paySavings : List SavingsWithdraw → State → Result State
  | [], s => .ok s
  | w :: rest, s => do
    let s ← s.adjust_balance w.to_account w.amount
    let s ← s.dropRequest w.from_account
    paySavings rest { s with
      savings_withdraws := s.savings_withdraws.erase (toLex (w.from_account, w.request_id)) }

def process_savings_withdraws : Result State := paySavings s.completeWithdraws s

def get_liquidity_reward : Result ℤ :=
  if s.has_hardfork 12 then .ok 0
  else do
    let percent ← calc_percent_reward STEEMIT_LIQUIDITY_APR_PERCENT
      STEEMIT_APR_PERCENT_MULTIPLY_PER_HOUR STEEMIT_APR_PERCENT_SHIFT_PER_HOUR s.virtual_supply
    .ok (max percent STEEMIT_MIN_LIQUIDITY_REWARD)

/-- `owner` has the greatest weight, if there is one. -/
def pay_liquidity_reward (owner : Option AccountName) : Result State :=
  if s.head_block_number % STEEMIT_LIQUIDITY_REWARD_BLOCKS = 0 then do
    let reward ← s.get_liquidity_reward
    match owner with
    | none => .ok s
    | some name =>
      if reward = 0 then .ok s
      else do
        let s ← s.adjust_supply ⟨reward, .STEEM⟩ true
        s.adjust_balance name ⟨reward, .STEEM⟩
  else .ok s

/-- The escrows that nobody approved in time, in the order of `by_ratification_deadline`. -/
def expiredEscrows : List Escrow :=
  ((s.escrows.rows.map Prod.snd).filter fun e =>
    !e.is_approved && decide (e.ratification_deadline ≤ s.time)).insertionSort
    fun a b => a.ratification_deadline < b.ratification_deadline ∨
      (a.ratification_deadline = b.ratification_deadline ∧ a.id ≤ b.id)

/-- The loop of `expire_escrow_ratification`. -/
def refundEscrows : List Escrow → State → Result State
  | [], s => .ok s
  | e :: rest, s => do
    let s ← s.refundEscrow e.from_account e
    refundEscrows rest (s.removeEscrow e)

def expire_escrow_ratification : Result State := refundEscrows s.expiredEscrows s

end State

end Calibrd.Chain.Ledger

namespace Calibrd.Chain.Rewards

open Calibrd.Lib Calibrd.Protocol
open Calibrd.Chain.Ledger (ActiveAuthority PowOperation Pow2Operation EscrowTransfer EscrowApprove EscrowDispute EscrowRelease WitnessPay
  Withdrawal)

inductive Operation where
  | transfer (from_account to_account : AccountName) (amount : Asset)
  | transfer_to_vesting (from_account to_account : AccountName) (amount : ℤ)
  | account_create (creator new_account_name : AccountName) (fee : ℤ) (active : ActiveAuthority)
  | account_create_with_delegation (creator new_account_name : AccountName) (fee delegation : ℤ)
      (active : ActiveAuthority)
  | account_update (account : AccountName) (active : Option ActiveAuthority)
  | witness_update (owner : AccountName)
  | escrow_transfer (o : EscrowTransfer)
  | escrow_approve (o : EscrowApprove)
  | escrow_dispute (o : EscrowDispute)
  | escrow_release (o : EscrowRelease)
  | convert (owner : AccountName) (requestid : ℕ) (amount : Asset)
  | limit_order_create (owner : AccountName) (orderid : ℕ) (amount_to_sell min_to_receive : Asset)
      (fill_or_kill : Bool) (expiration : ℕ)
  | limit_order_create2 (owner : AccountName) (orderid : ℕ) (amount_to_sell : Asset)
      (exchange_rate : Price) (fill_or_kill : Bool) (expiration : ℕ)
  | limit_order_cancel (owner : AccountName) (orderid : ℕ)
  | transfer_to_savings (from_account to_account : AccountName) (amount : Asset)
  | transfer_from_savings (from_account to_account : AccountName) (request_id : ℕ) (amount : Asset)
  | cancel_transfer_from_savings (from_account : AccountName) (request_id : ℕ)
  | claim_reward_balance (account : AccountName) (reward_steem reward_sbd reward_vests : ℤ)
  | pow (o : PowOperation)
  | pow2 (o : Pow2Operation)
  | comment (author : AccountName) (reward_weight : ℤ)
  | comment_options (id : CommentId) (o : CommentOptions)
  | delete_comment (id : CommentId)
  | vote (voter : AccountName) (id : CommentId) (weight : ℤ)
  /-- An operation that changes what an account may vote with, as `delegate_vesting_shares`. -/
  | voter (name : AccountName) (v : Voter)
  /-- An operation that touches none of this. -/
  | other

namespace State

variable (s : State)

/-- A step on the balances. -/
def onLedger (step : Ledger.State → Ledger.Result Ledger.State) : Result State := do
  let ledger ← withError .ledger (step s.ledger)
  .ok { s with ledger }

/-- `account_create_with_delegation`, with the shares that the accounts vote with. -/
def createDelegated (creator new_account_name : AccountName) (fee delegation : ℤ)
    (active : ActiveAuthority) : Result State := do
  let v := s.voters creator
  let s ← s.onLedger (·.account_create_with_delegation creator new_account_name fee delegation
    (v.delegated_vesting_shares + v.withdrawing) active)
  let voters := Function.update s.voters creator
    { v with delegated_vesting_shares := v.delegated_vesting_shares + delegation }
  let received := { voters new_account_name with received_vesting_shares := delegation }
  .ok { s with voters := Function.update voters new_account_name received }

def evaluate : Operation → Result State
  | .transfer x y amount => s.onLedger (·.transfer x y amount)
  | .transfer_to_vesting x y amount => s.onLedger (·.transfer_to_vesting x y amount)
  | .account_create x y fee active => s.onLedger (·.account_create x y fee active)
  | .account_create_with_delegation x y fee delegation active =>
    s.createDelegated x y fee delegation active
  | .account_update x active => s.onLedger (·.account_update x active)
  | .witness_update x => s.onLedger (·.witness_update x)
  | .escrow_transfer o => s.onLedger (·.escrow_transfer o)
  | .escrow_approve o => s.onLedger (·.escrow_approve o)
  | .escrow_dispute o => s.onLedger (·.escrow_dispute o)
  | .escrow_release o => s.onLedger (·.escrow_release o)
  | .convert owner requestid amount => s.onLedger (·.convert_sbd owner requestid amount)
  | .limit_order_create owner orderid sell receive kill expiration =>
    s.onLedger (·.limit_order_create owner orderid sell receive kill expiration)
  | .limit_order_create2 owner orderid sell rate kill expiration =>
    s.onLedger (·.limit_order_create2 owner orderid sell rate kill expiration)
  | .limit_order_cancel owner orderid => s.onLedger (·.limit_order_cancel owner orderid)
  | .transfer_to_savings x y amount => s.onLedger (·.transfer_to_savings x y amount)
  | .transfer_from_savings x y id amount => s.onLedger (·.transfer_from_savings x y id amount)
  | .cancel_transfer_from_savings x id => s.onLedger (·.cancel_transfer_from_savings x id)
  | .claim_reward_balance x steem sbd vests =>
    s.onLedger (·.claim_reward_balance x steem sbd vests)
  | .pow o => s.onLedger (·.pow o)
  | .pow2 o => s.onLedger (·.pow2 o)
  | .comment author reward_weight => s.comment author reward_weight
  | .comment_options id o => s.comment_options id o
  | .delete_comment id => s.delete_comment id
  | .vote voter id weight => s.vote voter id weight
  | .voter name v => .ok { s with voters := Function.update s.voters name v }
  | .other => .ok s

end State

/-- A block, with what other parts of the chain contribute to it. -/
structure Block where
  id : ℕ := 0
  witness : AccountName
  timestamp : ℕ
  operations : List Operation
  /-- `account_creation_fee` and `sbd_interest_rate`, where `update_witness_schedule` sets them. -/
  median_props : Option (ℤ × ℤ) := none
  /-- The price, where `update_median_feed` changes it. -/
  median_feed : Option { p : Price // p.IsFeed } := none
  pay : WitnessPay
  withdrawals : List Withdrawal := []
  /-- Who gets the liquidity reward. -/
  trader : Option AccountName := none
  /-- What `update_last_irreversible_block` sets. -/
  last_irreversible_block_num : ℕ := 0
  /-- How many hardforks are applied. -/
  hardforks : ℕ := 0

namespace Block

variable (b : Block)

/-- The operations see the witness of the block. -/
def applyOperations (s : State) : Result State :=
  b.operations.foldlM State.evaluate
    { s with ledger := { s.ledger with current_witness := b.witness } }

/-- The global data of the block. -/
def enter (s : State) : State :=
  { s with ledger := { s.ledger with
      head_block_number := s.ledger.head_block_number + 1
      head_block_id := b.id
      last_irreversible_block_num := b.last_irreversible_block_num
      time := b.timestamp } }

/-- `update_witness_schedule` and `update_median_feed`. -/
def setMedians (l : Ledger.State) : Ledger.State :=
  { l with
    account_creation_fee := (b.median_props.map Prod.fst).getD l.account_creation_fee
    sbd_interest_rate := (b.median_props.map Prod.snd).getD l.sbd_interest_rate
    current_median_history := (b.median_feed.map Subtype.val).getD l.current_median_history }

/-- Between the operations and `process_funds`. -/
def beforeFunds (l : Ledger.State) : Ledger.Result Ledger.State := do
  let l ← l.clear_expired_orders
  let l ← (b.setMedians l).update_virtual_supply
  l.clear_null_account_balance

/-- Between `process_comment_cashout` and the last `update_virtual_supply`. -/
def afterCashout (l : Ledger.State) : Ledger.Result Ledger.State := do
  let l ← Ledger.State.payWithdrawals b.withdrawals l
  let l ← l.process_savings_withdraws
  l.pay_liquidity_reward b.trader

/-- `process_hardforks`. -/
def applyHardforks : ℕ → State → Result State
  | 0, s => .ok s
  | n + 1, s => do
    let s ← s.apply_hardfork
    applyHardforks n s

/-- Up to the payouts. Of `validate_block_header`, only that the block is later than its head. -/
def beforeCashout (s : State) : Result State := do
  check (s.head_block_time < b.timestamp) .too_early
  let s ← b.applyOperations s
  let s ← (b.enter s).onLedger b.beforeFunds
  let s ← s.onLedger (·.process_funds b.pay)
  s.onLedger fun l => Prod.snd <$> l.process_conversions

/-- Up to the last `update_virtual_supply`. -/
def applyToSupply (s : State) : Result State := do
  let s ← b.beforeCashout s
  let s ← s.process_comment_cashout
  let s ← s.onLedger b.afterCashout
  s.onLedger (·.update_virtual_supply)

/-- `_apply_block`. -/
def apply (s : State) : Result State := do
  let s ← b.applyToSupply s
  let s ← s.onLedger (·.expire_escrow_ratification)
  applyHardforks b.hardforks s

end Block

/-! ## Runs -/

def STEEMIT_MINER_ACCOUNT : AccountName := 0x6d696e657273 * 2 ^ 80

def STEEMIT_TEMP_ACCOUNT : AccountName := 0x74656d70 * 2 ^ 96

def STEEMIT_INIT_MINER_NAME : AccountName := 0x696e69746d696e6572 * 2 ^ 56

def STEEMIT_INIT_PUBLIC_KEY : PublicKey := 1

/-- The accounts of the genesis; the first miner owns the initial supply, and only it has a key. -/
def init_genesis (init_supply : ℤ) : State :=
  genesis
    { accounts := (((OrdMap.empty.insert STEEMIT_MINER_ACCOUNT {}).insert
        Ledger.STEEMIT_NULL_ACCOUNT {}).insert STEEMIT_TEMP_ACCOUNT {}).insert
        STEEMIT_INIT_MINER_NAME
        { purse := { steem := init_supply }, active := { key_auths := [STEEMIT_INIT_PUBLIC_KEY] } }
      witnesses := OrdMap.empty.insert STEEMIT_INIT_MINER_NAME {}
      time := STEEMIT_GENESIS_TIME
      current_witness := STEEMIT_INIT_MINER_NAME
      current_supply := init_supply
      virtual_supply := init_supply }
    fun _ => {}

/-- The state after some blocks; a block that is not accepted changes nothing. -/
def runBlocks (s : State) (blocks : List Block) : State := runCalls (fun s b => b.apply s) s blocks

end Calibrd.Chain.Rewards
