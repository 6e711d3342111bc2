import Calibrd.Chain.Config
import Calibrd.Chain.Ledger

/-!
# The evaluators that move value

`transfer`, `transfer_to_vesting`, the account creations, the escrow operations, `convert`, the savings
operations, `claim_reward_balance` and `pow`. The checks of `validate` on amounts are part of each
evaluator. Memos and metadata, the owner and posting authorities of new accounts and whether the hash
of a proof of work is the one that it claims are left out.
-/

namespace Calibrd.Chain.Ledger

open Calibrd.Lib Calibrd.Protocol

def STEEMIT_START_VESTING_BLOCK : ℕ := STEEMIT_BLOCKS_PER_DAY * 7

/-- `STEEMIT_MINING_REWARD`, also the least content, curation and producer reward. -/
def STEEMIT_MIN_POW_REWARD : ℤ := 1000

def STEEMIT_POW_APR_PERCENT : ℤ := 750

def STEEMIT_APR_PERCENT_MULTIPLY_PER_ROUND : ℤ := 0x79ccf5c73480

def STEEMIT_APR_PERCENT_SHIFT_PER_ROUND : ℕ := 83

/-- `fc::hours( STEEMIT_FEED_HISTORY_WINDOW )`. -/
def STEEMIT_CONVERSION_DELAY : ℕ := 12 * 7 * 60 * 60

/-- `fc::days( 3 )`. -/
def STEEMIT_SAVINGS_WITHDRAW_TIME : ℕ := 3 * 24 * 60 * 60

def STEEMIT_SAVINGS_WITHDRAW_REQUEST_LIMIT : ℕ := 100

/-- `calc_percent_reward`, rounded to the nearest amount. -/
def calc_percent_reward (percent multiply_constant : ℤ) (shift_constant : ℕ) (current_supply : ℤ) :
    Result ℤ :=
  toShare (uint128 (uint128 (current_supply * (percent * multiply_constant)) +
    2 ^ (shift_constant - 1)) / 2 ^ shift_constant)

/-- `pow_operation`; of `work` the key of the worker and the hash. -/
structure PowOperation where
  worker_account : AccountName
  block_id : ℕ
  worker : PublicKey
  work : ℕ

/-- `pow2_operation` with an `equihash_pow`. -/
structure Pow2Operation where
  worker_account : AccountName
  prev_block : ℕ
  /-- `prev_block` of `input`. -/
  input_prev_block : ℕ
  pow_summary : ℕ
  new_owner_key : Option PublicKey
  maximum_block_size : ℕ

/-- The number of a block is the first word of its id. -/
def num_from_id (id : ℕ) : ℕ := id / 2 ^ 128

structure EscrowTransfer where
  from_account : AccountName
  to_account : AccountName
  agent : AccountName
  escrow_id : ℕ
  sbd_amount : Asset
  steem_amount : Asset
  fee : Asset
  ratification_deadline : ℕ
  escrow_expiration : ℕ

structure EscrowApprove where
  from_account : AccountName
  to_account : AccountName
  agent : AccountName
  who : AccountName
  escrow_id : ℕ
  approve : Bool

structure EscrowDispute where
  from_account : AccountName
  to_account : AccountName
  agent : AccountName
  escrow_id : ℕ

structure EscrowRelease where
  from_account : AccountName
  to_account : AccountName
  agent : AccountName
  who : AccountName
  receiver : AccountName
  escrow_id : ℕ
  sbd_amount : Asset
  steem_amount : Asset

namespace State

variable (s : State)

def transfer (from_account to_account : AccountName) (amount : Asset) : Result State := do
  check (0 < amount.amount) .negative_amount
  let a ← s.get_account from_account
  let _ ← s.get_account to_account
  let balance ← get_balance a amount.symbol
  check (amount.amount ≤ balance) .insufficient_funds
  let s ← s.adjust_balance from_account (-amount)
  s.adjust_balance to_account amount

/-- The name `0` stands for an empty `to`. -/
def transfer_to_vesting (from_account to_account : AccountName) (amount : ℤ) : Result State := do
  check (0 < amount) .negative_amount
  let a ← s.get_account from_account
  let to_account := if to_account = 0 then from_account else to_account
  let _ ← s.get_account to_account
  check (amount ≤ a.purse.steem) .insufficient_funds
  let s ← s.adjust_balance from_account ⟨-amount, .STEEM⟩
  s.create_vesting to_account amount false

/-! ## Accounts -/

/-- The fee of a new account becomes its first vesting shares. -/
def createAccount (creator new_account_name : AccountName) (fee : ℤ) (active : ActiveAuthority) :
    Result State := do
  check (active.account_auths.all s.accounts.contains) .unknown_account
  let s ← s.modifyAccount creator fun a =>
    { a with purse := { a.purse with steem := a.purse.steem - fee } }
  check (!s.accounts.contains new_account_name) .already_exists
  let s := s.putAccount new_account_name { active }
  if 0 < fee then s.create_vesting new_account_name fee false else .ok s

def account_create (creator new_account_name : AccountName) (fee : ℤ) (active : ActiveAuthority) :
    Result State := do
  check (0 ≤ fee) .negative_amount
  let a ← s.get_account creator
  check (fee ≤ a.purse.steem) .insufficient_funds
  check (s.account_creation_fee * STEEMIT_CREATE_ACCOUNT_WITH_STEEM_MODIFIER ≤ fee)
    .insufficient_fee
  s.createAccount creator new_account_name fee active

/-- An amount of STEEM in vesting shares. -/
def toVests (steem : ℤ) : Result ℤ := do
  let vests ← withError .asset ((⟨steem, .STEEM⟩ : Asset).mul s.get_vesting_share_price)
  .ok vests.amount

/-- Of the shares of the creator, `locked` are delegated or being withdrawn. -/
def account_create_with_delegation (creator new_account_name : AccountName) (fee delegation locked : ℤ)
    (active : ActiveAuthority) : Result State := do
  check (0 ≤ fee ∧ 0 ≤ delegation) .negative_amount
  let a ← s.get_account creator
  check (fee ≤ a.purse.steem) .insufficient_funds
  check (delegation ≤ a.vesting_shares - locked) .insufficient_delegation
  let target_delegation ← s.toVests (s.account_creation_fee *
    STEEMIT_CREATE_ACCOUNT_WITH_STEEM_MODIFIER * STEEMIT_CREATE_ACCOUNT_DELEGATION_RATIO)
  let current_delegation ← s.toVests (fee * STEEMIT_CREATE_ACCOUNT_DELEGATION_RATIO)
  check (target_delegation ≤ current_delegation + delegation) .insufficient_delegation
  check (s.account_creation_fee ≤ fee) .insufficient_fee
  s.createAccount creator new_account_name fee active

/-- What `account_update` does to the active authority. -/
def account_update (name : AccountName) (active : Option ActiveAuthority) : Result State := do
  let _ ← s.get_account name
  check ((active.getD {}).account_auths.all s.accounts.contains) .unknown_account
  s.modifyAccount name fun a =>
    { a with active := active.getD a.active, last_account_update := s.time }

/-- What `witness_update` does to the fields for the proof of work. -/
def witness_update (owner : AccountName) : Result State := do
  let _ ← s.get_account owner
  .ok (if s.witnesses.contains owner then s else { s with witnesses := s.witnesses.insert owner {} })

/-! ## Escrow -/

/-- Everything that an escrow holds. -/
def refundEscrow (from_account : AccountName) (e : Escrow) : Result State := do
  let s ← s.adjust_balance from_account ⟨e.steem_balance, .STEEM⟩
  let s ← s.adjust_balance from_account ⟨e.sbd_balance, .SBD⟩
  s.adjust_balance from_account e.pending_fee

def get_escrow (from_account : AccountName) (escrow_id : ℕ) : Result Escrow :=
  match s.escrows.find? (toLex (from_account, escrow_id)) with
  | some e => .ok e
  | none => .error .not_found

def putEscrow (e : Escrow) : State :=
  { s with escrows := s.escrows.insert (toLex (e.from_account, e.escrow_id)) e }

def removeEscrow (e : Escrow) : State :=
  { s with escrows := s.escrows.erase (toLex (e.from_account, e.escrow_id)) }

def escrow_transfer (o : EscrowTransfer) : Result State := do
  check (0 ≤ o.fee.amount ∧ 0 ≤ o.sbd_amount.amount ∧ 0 ≤ o.steem_amount.amount)
    .negative_amount
  check (0 < o.sbd_amount.amount ∨ 0 < o.steem_amount.amount) .negative_amount
  check (o.from_account ≠ o.agent ∧ o.to_account ≠ o.agent) .third_party
  check ((o.fee.symbol = .STEEM ∨ o.fee.symbol = .SBD) ∧ o.sbd_amount.symbol = .SBD ∧
    o.steem_amount.symbol = .STEEM) .invalid_asset
  check (o.ratification_deadline < o.escrow_expiration) .deadline_passed
  let a ← s.get_account o.from_account
  let _ ← s.get_account o.to_account
  let _ ← s.get_account o.agent
  check (s.time < o.ratification_deadline) .deadline_passed
  check (s.time < o.escrow_expiration) .deadline_passed
  let steem_spent := o.steem_amount.amount + if o.fee.symbol = .STEEM then o.fee.amount else 0
  let sbd_spent := o.sbd_amount.amount + if o.fee.symbol = .STEEM then 0 else o.fee.amount
  check (steem_spent ≤ a.purse.steem) .insufficient_funds
  check (sbd_spent ≤ a.purse.sbd.balance) .insufficient_funds
  let s ← s.adjust_balance o.from_account ⟨-steem_spent, .STEEM⟩
  let s ← s.adjust_balance o.from_account ⟨-sbd_spent, .SBD⟩
  check (!s.escrows.contains (toLex (o.from_account, o.escrow_id))) .already_exists
  .ok { s.putEscrow
    { id := s.next_id
      escrow_id := o.escrow_id
      from_account := o.from_account
      to_account := o.to_account
      agent := o.agent
      ratification_deadline := o.ratification_deadline
      escrow_expiration := o.escrow_expiration
      sbd_balance := o.sbd_amount.amount
      steem_balance := o.steem_amount.amount
      pending_fee := o.fee } with next_id := s.next_id + 1 }

def escrow_approve (o : EscrowApprove) : Result State := do
  check (o.who = o.to_account ∨ o.who = o.agent) .wrong_party
  let e ← s.get_escrow o.from_account o.escrow_id
  check (e.to_account = o.to_account) .wrong_party
  check (e.agent = o.agent) .wrong_party
  check (s.time ≤ e.ratification_deadline) .deadline_passed
  check (!(decide (o.who = o.to_account) && e.to_approved)) .already_approved
  let e := if o.who = o.to_account ∧ o.approve = true then { e with to_approved := true } else e
  check (!(decide (o.who = o.agent) && e.agent_approved)) .already_approved
  let e := if o.who = o.agent ∧ o.approve = true then { e with agent_approved := true } else e
  if o.approve then
    if e.is_approved then do
      let s ← s.adjust_balance o.agent e.pending_fee
      .ok (s.putEscrow { e with pending_fee := ⟨0, e.pending_fee.symbol⟩ })
    else .ok (s.putEscrow e)
  else do
    let s ← s.refundEscrow o.from_account e
    .ok (s.removeEscrow e)

def escrow_dispute (o : EscrowDispute) : Result State := do
  let _ ← s.get_account o.from_account
  let e ← s.get_escrow o.from_account o.escrow_id
  check (s.time < e.escrow_expiration) .deadline_passed
  check e.is_approved .not_approved
  check (!e.disputed) .already_disputed
  check (e.to_account = o.to_account) .wrong_party
  check (e.agent = o.agent) .wrong_party
  .ok (s.putEscrow { e with disputed := true })

/-- Who may release funds to whom. -/
def mayRelease (e : Escrow) (o : EscrowRelease) : Bool :=
  if e.disputed then decide (o.who = e.agent)
  else decide (o.who = e.from_account ∨ o.who = e.to_account) &&
    (decide (e.escrow_expiration ≤ s.time) ||
      (if o.who = e.from_account then decide (o.receiver = e.to_account)
        else decide (o.receiver = e.from_account)))

def escrow_release (o : EscrowRelease) : Result State := do
  check (0 ≤ o.sbd_amount.amount ∧ 0 ≤ o.steem_amount.amount) .negative_amount
  check (0 < o.sbd_amount.amount ∨ 0 < o.steem_amount.amount) .negative_amount
  check (o.sbd_amount.symbol = .SBD ∧ o.steem_amount.symbol = .STEEM) .invalid_asset
  let _ ← s.get_account o.from_account
  let _ ← s.get_account o.receiver
  let e ← s.get_escrow o.from_account o.escrow_id
  check (o.steem_amount.amount ≤ e.steem_balance) .insufficient_funds
  check (o.sbd_amount.amount ≤ e.sbd_balance) .insufficient_funds
  check (e.to_account = o.to_account) .wrong_party
  check (e.agent = o.agent) .wrong_party
  check (o.receiver = e.from_account ∨ o.receiver = e.to_account) .wrong_party
  check e.is_approved .not_approved
  check (s.mayRelease e o) .wrong_party
  let s ← s.adjust_balance o.receiver o.steem_amount
  let s ← s.adjust_balance o.receiver o.sbd_amount
  let e := { e with
    steem_balance := e.steem_balance - o.steem_amount.amount
    sbd_balance := e.sbd_balance - o.sbd_amount.amount }
  if e.steem_balance = 0 ∧ e.sbd_balance = 0 then .ok (s.removeEscrow e)
  else .ok (s.putEscrow e)

/-! ## Conversion, savings and rewards -/

/-- Named after `convert_operation`; `convert` is the conversion of an amount. -/
def convert_sbd (owner : AccountName) (requestid : ℕ) (amount : Asset) : Result State := do
  check (amount.symbol = .SBD) .invalid_asset
  check (0 < amount.amount) .negative_amount
  let a ← s.get_account owner
  let balance ← get_balance a amount.symbol
  check (amount.amount ≤ balance) .insufficient_funds
  let s ← s.adjust_balance owner (-amount)
  check (!s.current_median_history.is_null) .no_price_feed
  check (!s.convert_requests.contains (toLex (owner, requestid))) .already_exists
  .ok { s with
    convert_requests := s.convert_requests.insert (toLex (owner, requestid))
      { id := s.next_id, owner, requestid, amount,
        conversion_date := s.time + STEEMIT_CONVERSION_DELAY }
    next_id := s.next_id + 1 }

def transfer_to_savings (from_account to_account : AccountName) (amount : Asset) :
    Result State := do
  check (0 < amount.amount) .negative_amount
  check (amount.symbol = .STEEM ∨ amount.symbol = .SBD) .invalid_asset
  let a ← s.get_account from_account
  let _ ← s.get_account to_account
  let balance ← get_balance a amount.symbol
  check (amount.amount ≤ balance) .insufficient_funds
  let s ← s.adjust_balance from_account (-amount)
  s.adjust_savings_balance to_account amount

def transfer_from_savings (from_account to_account : AccountName) (request_id : ℕ)
    (amount : Asset) : Result State := do
  check (0 < amount.amount) .negative_amount
  check (amount.symbol = .STEEM ∨ amount.symbol = .SBD) .invalid_asset
  let a ← s.get_account from_account
  let _ ← s.get_account to_account
  check (a.savings_withdraw_requests < STEEMIT_SAVINGS_WITHDRAW_REQUEST_LIMIT)
    .too_many_requests
  let balance ← get_savings_balance a amount.symbol
  check (amount.amount ≤ balance) .insufficient_funds
  let s ← s.adjust_savings_balance from_account (-amount)
  check (!s.savings_withdraws.contains (toLex (from_account, request_id))) .already_exists
  let s := { s with
    savings_withdraws := s.savings_withdraws.insert (toLex (from_account, request_id))
      { from_account, to_account, amount, request_id,
        complete := s.time + STEEMIT_SAVINGS_WITHDRAW_TIME } }
  s.modifyAccount from_account fun a =>
    { a with savings_withdraw_requests := a.savings_withdraw_requests + 1 }

/-- The counter is a `uint8_t`. -/
def dropRequest (name : AccountName) : Result State :=
  s.modifyAccount name fun a =>
    { a with savings_withdraw_requests := (a.savings_withdraw_requests + 255) % 256 }

def cancel_transfer_from_savings (from_account : AccountName) (request_id : ℕ) : Result State :=
  match s.savings_withdraws.find? (toLex (from_account, request_id)) with
  | none => .error .not_found
  | some w => do
    let s ← s.adjust_savings_balance w.from_account w.amount
    let s := { s with
      savings_withdraws := s.savings_withdraws.erase (toLex (from_account, request_id)) }
    s.dropRequest from_account

/-- The STEEM that moves into the vesting fund with claimed shares. -/
def rewardVestingSteem (a : Account) (reward_vests : ℤ) : Result ℤ :=
  if reward_vests = a.reward_vesting_balance then .ok a.reward_vesting_steem
  else do
    check (a.reward_vesting_balance ≠ 0) .divide_by_zero
    toShare (uint128 (reward_vests * a.reward_vesting_steem) / uint128 a.reward_vesting_balance)

def claim_reward_balance (account : AccountName) (reward_steem reward_sbd reward_vests : ℤ) :
    Result State := do
  check (0 ≤ reward_steem ∧ 0 ≤ reward_sbd ∧ 0 ≤ reward_vests) .negative_amount
  check (0 < reward_steem ∨ 0 < reward_sbd ∨ 0 < reward_vests) .nothing_claimed
  let a ← s.get_account account
  check (reward_steem ≤ a.reward_steem_balance) .insufficient_funds
  check (reward_sbd ≤ a.reward_sbd_balance) .insufficient_funds
  check (reward_vests ≤ a.reward_vesting_balance) .insufficient_funds
  let to_move ← rewardVestingSteem a reward_vests
  let s ← s.adjust_reward_balance account ⟨-reward_steem, .STEEM⟩
  let s ← s.adjust_reward_balance account ⟨-reward_sbd, .SBD⟩
  let s ← s.adjust_balance account ⟨reward_steem, .STEEM⟩
  let s ← s.adjust_balance account ⟨reward_sbd, .SBD⟩
  let s ← s.modifyAccount account fun a =>
    { a with
      vesting_shares := a.vesting_shares + reward_vests
      reward_vesting_balance := a.reward_vesting_balance - reward_vests
      reward_vesting_steem := a.reward_vesting_steem - to_move }
  .ok { s with
    total_vesting_shares := s.total_vesting_shares + reward_vests
    total_vesting_fund_steem := s.total_vesting_fund_steem + to_move
    pending_rewarded_vesting_shares := s.pending_rewarded_vesting_shares - reward_vests
    pending_rewarded_vesting_steem := s.pending_rewarded_vesting_steem - to_move }

/-! ## Proof of work -/

def get_pow_reward : Result ℤ :=
  if s.num_pow_witnesses < STEEMIT_MAX_WITNESSES ∧
    s.head_block_number < STEEMIT_START_VESTING_BLOCK then .ok 0
  else do
    let percent ← calc_percent_reward STEEMIT_POW_APR_PERCENT
      STEEMIT_APR_PERCENT_MULTIPLY_PER_ROUND STEEMIT_APR_PERCENT_SHIFT_PER_ROUND s.virtual_supply
    .ok (max percent STEEMIT_MIN_POW_REWARD)

def get_pow_target : ℕ := (2 ^ 256 - 1) / 2 ^ (s.num_pow_witnesses / 4 + 4)

def get_pow_summary_target : ℕ :=
  if 1004 ≤ s.num_pow_witnesses then 0
  else ((if s.has_hardfork 16 then 0xFE00 else 0xFC00) - 0x0040 * s.num_pow_witnesses) * 2 ^ 16

/-- The account of a worker, which may be new. -/
def enterWorker (worker_account : AccountName) (key : PublicKey) : State :=
  if s.accounts.contains worker_account then s
  else s.putAccount worker_account { active := { key_auths := [key] } }

def countPow : State :=
  { s with
    total_pow := (s.total_pow + 1) % 2 ^ 64
    num_pow_witnesses := s.num_pow_witnesses + 1 }

def putMiner (name : AccountName) (m : Miner) : State :=
  { s with witnesses := s.witnesses.insert name m }

/-- The witness of the worker waits for its turn. -/
def queueMiner (name : AccountName) (m : Miner) : Result State :=
  match s.witnesses.find? name with
  | some w => do
    check (w.pow_worker = 0) .already_scheduled
    .ok (s.putMiner name m)
  | none => .ok (s.putMiner name m)

/-- The assertions of `pow_apply` on the worker and its work. -/
def checkWork (o : PowOperation) : Result Unit := do
  let a ← s.get_account o.worker_account
  check (a.active.num_auths = 1) .not_one_key
  check (a.active.key_auths.length = 1) .not_one_key
  check (a.active.key_auths.head? = some o.worker) .wrong_key
  check (o.block_id = s.head_block_id) .not_last_block
  check (a.last_account_update < s.time) .account_updated
  check (o.work < s.get_pow_target) .insufficient_work

/-- The reward goes to the witness that includes the operation. -/
def payPow : Result State := do
  let pow_reward ← s.get_pow_reward
  if s.head_block_number < STEEMIT_START_MINER_VOTING_BLOCK then do
    let pow_reward := pow_reward * STEEMIT_MAX_WITNESSES
    let s ← s.adjust_supply ⟨pow_reward, .STEEM⟩ true
    s.adjust_balance s.current_witness ⟨pow_reward, .STEEM⟩
  else do
    let s ← s.adjust_supply ⟨pow_reward, .STEEM⟩ true
    s.create_vesting s.current_witness pow_reward false

/-- `pow_apply`. -/
def pow (o : PowOperation) : Result State := do
  check (s.witnesses.rows.all fun w => w.2.last_work ≠ o.work) .duplicate_work
  let s := s.enterWorker o.worker_account o.worker
  s.checkWork o
  let s := s.countPow
  let s ← s.queueMiner o.worker_account { pow_worker := s.total_pow, last_work := o.work }
  s.payPow

/-- The end of `pow2_evaluator`, which pays no reward. -/
def enterMiner (o : Pow2Operation) : Result State :=
  if s.accounts.contains o.worker_account then
    match o.new_owner_key, s.witnesses.find? o.worker_account with
    | some _, _ => .error .owner_key
    | none, none => .error .not_found
    | none, some w => s.queueMiner o.worker_account { w with pow_worker := s.total_pow }
  else
    match o.new_owner_key with
    | none => .error .owner_key
    | some key =>
      .ok ((s.enterWorker o.worker_account key).putMiner o.worker_account
        { pow_worker := s.total_pow })

def pow2 (o : Pow2Operation) : Result State := do
  check (o.prev_block = s.head_block_id) .not_last_block
  check (s.last_irreversible_block_num < num_from_id o.input_prev_block) .irreversible_work
  check (o.pow_summary < s.get_pow_summary_target) .insufficient_work
  check (STEEMIT_MIN_BLOCK_SIZE_LIMIT * 2 ≤ o.maximum_block_size) .block_size
  s.countPow.enterMiner o

end State

/-! ## The operations move value -/

section Frame

variable {s s' : State} {x y : AccountName} {amount : Asset}

theorem moved_transfer (h : s.transfer x y amount = .ok s') : Moved s s' := by
  simp only [State.transfer, bind_ok, exists_check_eq_ok] at h
  obtain ⟨-, _, -, _, -, _, -, -, t, ht, h⟩ := h
  exact (moved_adjust_balance ht).trans (moved_adjust_balance h)

theorem moved_transfer_to_vesting {steem : ℤ} (h : s.transfer_to_vesting x y steem = .ok s') :
    Moved s s' := by
  simp only [State.transfer_to_vesting, bind_ok, exists_check_eq_ok] at h
  obtain ⟨-, _, -, _, -, -, t, ht, h⟩ := h
  exact (moved_adjust_balance ht).trans (moved_create_vesting h)

variable {fee : ℤ} {active : ActiveAuthority}

theorem moved_createAccount (h : s.createAccount x y fee active = .ok s') : Moved s s' := by
  obtain ⟨t, ht, h⟩ := bind_ok.1 (ok_of_check h)
  replace h := ok_of_check h
  refine (moved_modifyAccount ht).trans ((moved_putAccount t y { active }).trans ?_)
  split at h
  · exact moved_create_vesting h
  · cases h
    exact .refl _

theorem moved_account_create (h : s.account_create x y fee active = .ok s') : Moved s s' := by
  simp only [State.account_create, bind_ok, exists_check_eq_ok] at h
  obtain ⟨-, _, -, -, -, h⟩ := h
  exact moved_createAccount h

theorem moved_account_create_with_delegation {delegation locked : ℤ}
    (h : s.account_create_with_delegation x y fee delegation locked active = .ok s') :
    Moved s s' := by
  simp only [State.account_create_with_delegation, bind_ok, exists_check_eq_ok] at h
  obtain ⟨-, _, -, -, -, _, -, _, -, -, -, h⟩ := h
  exact moved_createAccount h

theorem moved_putEscrow (s : State) (e : Escrow) : Moved s (s.putEscrow e) := by
  refine ⟨?_, rfl⟩
  constructor <;> rfl

theorem moved_removeEscrow (s : State) (e : Escrow) : Moved s (s.removeEscrow e) := by
  refine ⟨?_, rfl⟩
  constructor <;> rfl

theorem moved_refundEscrow {e : Escrow} (h : s.refundEscrow x e = .ok s') : Moved s s' := by
  obtain ⟨t, ht, h⟩ := bind_ok.1 h
  obtain ⟨u, hu, h⟩ := bind_ok.1 h
  exact (moved_adjust_balance ht).trans ((moved_adjust_balance hu).trans (moved_adjust_balance h))

theorem moved_escrow_transfer {o : EscrowTransfer} (h : s.escrow_transfer o = .ok s') :
    Moved s s' := by
  simp only [State.escrow_transfer, bind_ok, exists_check_eq_ok] at h
  obtain ⟨-, -, -, -, -, _, -, _, -, _, -, -, -, -, -, t, ht, u, hu, -, h⟩ := h
  cases h
  refine (moved_adjust_balance ht).trans ((moved_adjust_balance hu).trans ⟨?_, rfl⟩)
  constructor <;> rfl

theorem moved_escrow_approve {o : EscrowApprove} (h : s.escrow_approve o = .ok s') :
    Moved s s' := by
  replace h := ok_of_check h
  obtain ⟨e, -, h⟩ := bind_ok.1 h
  replace h := ok_of_check h
  replace h := ok_of_check h
  replace h := ok_of_check h
  replace h := ok_of_check h
  replace h := ok_of_check h
  -- the approvals only change the row of the escrow
  generalize (if o.who = o.agent ∧ o.approve = true then _ else _ : Escrow) = approved at h
  dsimp only at h
  split at h
  · split at h
    · obtain ⟨t, ht, h⟩ := bind_ok.1 h
      cases h
      exact (moved_adjust_balance ht).trans (moved_putEscrow t _)
    · cases h
      exact moved_putEscrow s _
  · obtain ⟨t, ht, h⟩ := bind_ok.1 h
    cases h
    exact (moved_refundEscrow ht).trans (moved_removeEscrow t _)

theorem moved_escrow_dispute {o : EscrowDispute} (h : s.escrow_dispute o = .ok s') :
    Moved s s' := by
  simp only [State.escrow_dispute, bind_ok, exists_check_eq_ok] at h
  obtain ⟨_, -, e, -, -, -, -, -, -, h⟩ := h
  cases h
  exact moved_putEscrow s _

theorem moved_escrow_release {o : EscrowRelease} (h : s.escrow_release o = .ok s') :
    Moved s s' := by
  replace h := ok_of_check h
  replace h := ok_of_check h
  replace h := ok_of_check h
  obtain ⟨_, -, h⟩ := bind_ok.1 h
  obtain ⟨_, -, h⟩ := bind_ok.1 h
  obtain ⟨e, -, h⟩ := bind_ok.1 h
  replace h := ok_of_check h
  replace h := ok_of_check h
  replace h := ok_of_check h
  replace h := ok_of_check h
  replace h := ok_of_check h
  replace h := ok_of_check h
  replace h := ok_of_check h
  obtain ⟨t, ht, h⟩ := bind_ok.1 h
  obtain ⟨u, hu, h⟩ := bind_ok.1 h
  refine (moved_adjust_balance ht).trans ((moved_adjust_balance hu).trans ?_)
  dsimp only at h
  split at h
  · cases h
    exact moved_removeEscrow u _
  · cases h
    exact moved_putEscrow u _

theorem moved_convert_sbd {requestid : ℕ} (h : s.convert_sbd x requestid amount = .ok s') :
    Moved s s' := by
  simp only [State.convert_sbd, bind_ok, exists_check_eq_ok] at h
  obtain ⟨-, -, _, -, _, -, -, t, ht, -, -, h⟩ := h
  cases h
  refine (moved_adjust_balance ht).trans ⟨?_, rfl⟩
  constructor <;> rfl

theorem moved_transfer_to_savings (h : s.transfer_to_savings x y amount = .ok s') :
    Moved s s' := by
  simp only [State.transfer_to_savings, bind_ok, exists_check_eq_ok] at h
  obtain ⟨-, -, _, -, _, -, _, -, -, t, ht, h⟩ := h
  exact (moved_adjust_balance ht).trans (moved_adjust_savings_balance h)

/-- The table of the requests holds no STEEM of its own. -/
theorem Moved.of_withdraws {m : OrdMap (AccountName ×ₗ ℕ) SavingsWithdraw}
    (h : Moved { s with savings_withdraws := m } s') : Moved s s' := by
  have htable : Moved s { s with savings_withdraws := m } := by
    refine ⟨?_, rfl⟩
    constructor <;> rfl
  exact htable.trans h

theorem moved_transfer_from_savings {request_id : ℕ}
    (h : s.transfer_from_savings x y request_id amount = .ok s') : Moved s s' := by
  simp only [State.transfer_from_savings, bind_ok, exists_check_eq_ok] at h
  obtain ⟨-, -, _, -, _, -, -, _, -, -, t, ht, -, h⟩ := h
  exact (moved_adjust_savings_balance ht).trans (.of_withdraws (moved_modifyAccount h))

theorem moved_dropRequest (h : s.dropRequest x = .ok s') : Moved s s' := moved_modifyAccount h

theorem moved_cancel_transfer_from_savings {request_id : ℕ}
    (h : s.cancel_transfer_from_savings x request_id = .ok s') : Moved s s' := by
  unfold State.cancel_transfer_from_savings at h
  split at h
  · cases h
  · obtain ⟨t, ht, h⟩ := bind_ok.1 h
    exact (moved_adjust_savings_balance ht).trans (.of_withdraws (moved_dropRequest h))

theorem moved_claim_reward_balance {steem sbd vests : ℤ}
    (h : s.claim_reward_balance x steem sbd vests = .ok s') : Moved s s' := by
  simp only [State.claim_reward_balance, bind_ok, exists_check_eq_ok] at h
  obtain ⟨-, -, _, -, -, -, -, _, -, t1, h1, t2, h2, t3, h3, t4, h4, t5, h5, h⟩ := h
  cases h
  have hrewards := (moved_adjust_reward_balance h1).trans (moved_adjust_reward_balance h2)
  have hbalances := (moved_adjust_balance h3).trans (moved_adjust_balance h4)
  refine hrewards.trans (hbalances.trans ((moved_modifyAccount h5).trans ⟨?_, rfl⟩))
  constructor <;> rfl

theorem moved_enterWorker (s : State) (x : AccountName) (key : PublicKey) :
    Moved s (s.enterWorker x key) := by
  unfold State.enterWorker
  split
  · exact .refl s
  · exact moved_putAccount s x _

theorem moved_countPow (s : State) : Moved s s.countPow := ⟨by constructor <;> rfl, rfl⟩

theorem moved_putMiner (s : State) (x : AccountName) (m : Miner) : Moved s (s.putMiner x m) :=
  ⟨by constructor <;> rfl, rfl⟩

theorem queueMiner_eq_ok {m : Miner} (h : s.queueMiner x m = .ok s') : s' = s.putMiner x m := by
  unfold State.queueMiner at h
  split at h
  · exact (Except.ok.inj (ok_of_check h)).symm
  · exact (Except.ok.inj h).symm

theorem moved_queueMiner {m : Miner} (h : s.queueMiner x m = .ok s') : Moved s s' :=
  queueMiner_eq_ok h ▸ moved_putMiner s x m

theorem moved_pow2 {o : Pow2Operation} (h : s.pow2 o = .ok s') : Moved s s' := by
  replace h := ok_of_check (ok_of_check (ok_of_check (ok_of_check h)))
  refine (moved_countPow s).trans ?_
  unfold State.enterMiner at h
  split at h
  · split at h
    · cases h
    · cases h
    · exact moved_queueMiner h
  · split at h
    · cases h
    · cases h
      exact (moved_enterWorker _ _ _).trans (moved_putMiner _ _ _)

theorem moved_account_update {active : Option ActiveAuthority}
    (h : s.account_update x active = .ok s') : Moved s s' := by
  obtain ⟨_, -, h⟩ := bind_ok.1 h
  exact moved_modifyAccount (ok_of_check h)

theorem moved_witness_update (h : s.witness_update x = .ok s') : Moved s s' := by
  obtain ⟨_, -, h⟩ := bind_ok.1 h
  cases h
  split
  · exact .refl s
  · exact moved_putMiner s x {}

end Frame

end Calibrd.Chain.Ledger
