import Calibrd.Chain.Config
import Calibrd.Lib.OrdMap
import Calibrd.Protocol.Asset

/-!
# Balances and supply

What the accounts own and the totals of `dynamic_global_property_object`, with the functions of
`database` that every evaluator changes them by: `adjust_balance` and `adjust_savings_balance` with
the interest on SBD, `adjust_reward_balance`, `adjust_supply`, `create_vesting`, `create_sbd` and
`update_virtual_supply`.

The votes that go with vesting shares are in `WitnessVotes`. That a sum leaves 64 bits is not
modelled, that a product does is where the amount comes from a payout.
-/

namespace Calibrd.Chain.Ledger

open Calibrd.Lib Calibrd.Protocol

/-- `"null"`. -/
def STEEMIT_NULL_ACCOUNT : AccountName := 0x6e756c6c * 2 ^ 96

def STEEMIT_1_PERCENT : ℤ := STEEMIT_100_PERCENT / 100

def STEEMIT_SECONDS_PER_YEAR : ℤ := 60 * 60 * 24 * 365

def STEEMIT_SBD_INTEREST_COMPOUND_INTERVAL_SEC : ℤ := 60 * 60 * 24 * 30

def STEEMIT_SBD_STOP_PERCENT : ℤ := 5 * STEEMIT_1_PERCENT

def STEEMIT_SBD_START_PERCENT : ℤ := 2 * STEEMIT_1_PERCENT

/-- SBD with the fields that its interest is computed from. -/
structure SbdBalance where
  balance : ℤ := 0
  /-- A `uint128_t`. -/
  seconds : ℤ := 0
  seconds_last_update : ℕ := 0
  last_interest_payment : ℕ := 0
deriving DecidableEq, Repr

/-- The balances that `adjust_balance` writes, and those that `adjust_savings_balance` writes. -/
structure Purse where
  steem : ℤ := 0
  sbd : SbdBalance := {}
deriving DecidableEq, Repr

/-- What the proof of work reads of an authority. -/
structure ActiveAuthority where
  account_auths : List AccountName := []
  key_auths : List PublicKey := []
deriving DecidableEq, Repr

def ActiveAuthority.num_auths (auth : ActiveAuthority) : ℕ :=
  auth.account_auths.length + auth.key_auths.length

/-- The fields of `account_object` that hold value, with its active authority. -/
structure Account where
  purse : Purse := {}
  savings : Purse := {}
  savings_withdraw_requests : ℕ := 0
  reward_steem_balance : ℤ := 0
  reward_sbd_balance : ℤ := 0
  reward_vesting_balance : ℤ := 0
  reward_vesting_steem : ℤ := 0
  vesting_shares : ℤ := 0
  active : ActiveAuthority := {}
  last_account_update : ℕ := 0
deriving DecidableEq, Repr

/-- The fields of `witness_object` for the proof of work. -/
structure Miner where
  pow_worker : ℕ := 0
  last_work : ℕ := 0
deriving DecidableEq, Repr

structure ConvertRequest where
  id : ℕ
  owner : AccountName
  requestid : ℕ
  amount : Asset
  conversion_date : ℕ
deriving DecidableEq, Repr

/-- `escrow_object`; the first two balances are amounts of SBD and STEEM. -/
structure Escrow where
  id : ℕ
  escrow_id : ℕ
  from_account : AccountName
  to_account : AccountName
  agent : AccountName
  ratification_deadline : ℕ
  escrow_expiration : ℕ
  sbd_balance : ℤ
  steem_balance : ℤ
  pending_fee : Asset
  to_approved : Bool := false
  agent_approved : Bool := false
  disputed : Bool := false
deriving DecidableEq, Repr

def Escrow.is_approved (e : Escrow) : Bool := e.to_approved && e.agent_approved

structure SavingsWithdraw where
  from_account : AccountName
  to_account : AccountName
  amount : Asset
  request_id : ℕ
  complete : ℕ
deriving DecidableEq, Repr

structure LimitOrder where
  id : ℕ
  created : ℕ
  expiration : ℕ
  seller : AccountName
  orderid : ℕ
  for_sale : ℤ
  sell_price : Price
deriving DecidableEq, Repr

/-- A share of the whole, as `STEEMIT_100_PERCENT` counts it. -/
def InPercent (x : ℤ) : Prop := 0 ≤ x ∧ x ≤ STEEMIT_100_PERCENT

instance (x : ℤ) : Decidable (InPercent x) := inferInstanceAs (Decidable (_ ∧ _))

inductive CurveId where
  | quadratic
  | quadratic_curation
  | linear
  | square_root
deriving DecidableEq, Repr

/-- `reward_fund_object`. -/
structure RewardFund where
  reward_balance : ℤ := 0
  /-- A `uint128_t`. -/
  recent_claims : ℤ := 0
  last_update : ℕ := 0
  content_constant : ℤ := 0
  percent_curation_rewards : ℤ := 0
  percent_content_rewards : ℤ := 0
  author_reward_curve : CurveId := .quadratic
  curation_reward_curve : CurveId := .quadratic_curation
deriving DecidableEq, Repr

/-- What neither payments to the fund nor payouts change. -/
def RewardFund.terms (f : RewardFund) : ℤ × ℤ := (f.content_constant, f.percent_curation_rewards)

/-- The fund apart from its balance and its claims. -/
def RewardFund.rules (f : RewardFund) : RewardFund :=
  { f with reward_balance := 0, recent_claims := 0, last_update := 0 }

theorem RewardFund.terms_of_rules {p p' : Option RewardFund}
    (h : p'.map RewardFund.rules = p.map RewardFund.rules) :
    p'.map RewardFund.terms = p.map RewardFund.terms := by
  have hterms := congrArg (Option.map RewardFund.terms) h
  rwa [Option.map_map, Option.map_map] at hterms

structure State where
  accounts : OrdMap AccountName Account := .empty
  /-- By `by_owner`: owner and request id. -/
  convert_requests : OrdMap (AccountName ×ₗ ℕ) ConvertRequest := .empty
  /-- By `by_from_id`: sender and escrow id. -/
  escrows : OrdMap (AccountName ×ₗ ℕ) Escrow := .empty
  /-- By `by_from_rid`: owner and request id. -/
  savings_withdraws : OrdMap (AccountName ×ₗ ℕ) SavingsWithdraw := .empty
  /-- By `by_account`: seller and order id. -/
  limit_orders : OrdMap (AccountName ×ₗ ℕ) LimitOrder := .empty
  witnesses : OrdMap AccountName Miner := .empty
  /-- The next id, for all tables. -/
  next_id : ℕ := 0
  last_hardfork : ℕ := 0
  head_block_number : ℕ := 0
  head_block_id : ℕ := 0
  last_irreversible_block_num : ℕ := 0
  time : ℕ := 0
  current_witness : AccountName := 0
  /-- A `uint64_t` that starts at `-1`. -/
  total_pow : ℕ := 2 ^ 64 - 1
  num_pow_witnesses : ℕ := 0
  current_supply : ℤ := 0
  current_sbd_supply : ℤ := 0
  virtual_supply : ℤ := 0
  total_vesting_fund_steem : ℤ := 0
  total_vesting_shares : ℤ := 0
  pending_rewarded_vesting_shares : ℤ := 0
  pending_rewarded_vesting_steem : ℤ := 0
  total_reward_fund_steem : ℤ := 0
  sbd_interest_rate : ℤ := 0
  sbd_print_rate : ℤ := STEEMIT_100_PERCENT
  /-- Of the feed history. -/
  current_median_history : Price := {}
  /-- `median_props.account_creation_fee` of the witness schedule. -/
  account_creation_fee : ℤ := 1
  /-- The fund `"post"`, the only one that is ever created. -/
  post_fund : Option RewardFund := none

inductive Error where
  | asset (e : AssetError)
  | unknown_account
  | invalid_symbol
  | interest_too_large
  | share_too_large
  | divide_by_zero
  | overflow
  | unknown_fund
  | already_exists
  | not_found
  | negative_amount
  | invalid_asset
  | insufficient_funds
  | insufficient_fee
  | insufficient_delegation
  | deadline_passed
  | third_party
  | wrong_party
  | already_approved
  | not_approved
  | already_disputed
  | no_price_feed
  | too_many_requests
  | invalid_price
  | not_filled
  | nothing_claimed
  | duplicate_work
  | not_one_key
  | wrong_key
  | not_last_block
  | account_updated
  | insufficient_work
  | irreversible_work
  | already_scheduled
  | owner_key
  | block_size
  | used_rewards
  | disabled
deriving DecidableEq, Repr

abbrev Result := Except Error

/-- A product of `safe< int64_t >`. -/
def safeMul (a b : ℤ) : Result ℤ := do
  check (-2 ^ 63 ≤ a * b ∧ a * b < 2 ^ 63) .overflow
  .ok (a * b)

/-- `to_uint64` of a `uint128_t`, as an amount. -/
def toShare (n : ℤ) : Result ℤ := do
  check (n < 2 ^ 64) .share_too_large
  .ok (int64 n)

namespace SbdBalance

/-- The seconds up to `now`. -/
def accrue (b : SbdBalance) (now : ℕ) : SbdBalance :=
  { b with
    seconds := uint128 (b.seconds + b.balance * ((now : ℤ) - b.seconds_last_update))
    seconds_last_update := now }

/-- Whether interest is paid at an update. -/
def interestDue (b : SbdBalance) : Bool :=
  decide (0 < b.seconds) && decide (STEEMIT_SBD_INTEREST_COMPOUND_INTERVAL_SEC <
    (b.seconds_last_update : ℤ) - b.last_interest_payment)

def interest (b : SbdBalance) (rate : ℤ) : ℤ :=
  b.seconds / STEEMIT_SECONDS_PER_YEAR * rate / STEEMIT_100_PERCENT

/-- After a payment. -/
def paid (b : SbdBalance) (interest_paid : ℤ) : SbdBalance :=
  { b with
    balance := b.balance + interest_paid
    seconds := 0
    last_interest_payment := b.seconds_last_update }

/-- The interest that an update of the balance pays, if one is due. -/
def owed (b : SbdBalance) (now : ℕ) (rate : ℤ) : ℤ :=
  if b.seconds_last_update = now then 0
  else if (b.accrue now).interestDue then int64 ((b.accrue now).interest rate) else 0

/-- The balance after an update. -/
def settled (b : SbdBalance) (now : ℕ) (rate : ℤ) : SbdBalance :=
  if b.seconds_last_update = now then b
  else if (b.accrue now).interestDue then (b.accrue now).paid (b.owed now rate) else b.accrue now

theorem settled_last_update (b : SbdBalance) (now : ℕ) (rate : ℤ) :
    (b.settled now rate).seconds_last_update = now := by
  unfold settled
  split_ifs with hnow
  · exact hnow
  · rfl
  · rfl

theorem settled_balance (b : SbdBalance) (now : ℕ) (rate : ℤ) :
    (b.settled now rate).balance = b.balance + b.owed now rate := by
  unfold settled owed
  split_ifs with hnow hdue
  · exact (add_zero _).symm
  · rfl
  · exact (add_zero _).symm

end SbdBalance

namespace State

variable (s : State)

def has_hardfork (n : ℕ) : Bool := decide (n ≤ s.last_hardfork)

def get_account (name : AccountName) : Result Account :=
  match s.accounts.find? name with
  | some a => .ok a
  | none => .error .unknown_account

def putAccount (name : AccountName) (a : Account) : State :=
  { s with accounts := s.accounts.insert name a }

def modifyAccount (name : AccountName) (f : Account → Account) : Result State := do
  let a ← s.get_account name
  .ok (s.putAccount name (f a))

/-- `asset * price` with the price of the feed history. -/
def convert (a : Asset) : Result Asset := withError .asset (a.mul s.current_median_history)

/-- Interest that is paid is new SBD. -/
def issueInterest (interest_paid : ℤ) : Result State := do
  let value ← s.convert ⟨interest_paid, .SBD⟩
  .ok { s with
    current_sbd_supply := s.current_sbd_supply + interest_paid
    virtual_supply := s.virtual_supply + value.amount }

/-- The interest on a balance, up to the head block. -/
def payInterest (b : SbdBalance) : Result (SbdBalance × State) :=
  if b.seconds_last_update = s.time then .ok (b, s)
  else
    let b := b.accrue s.time
    if b.interestDue then do
      let interest := b.interest s.sbd_interest_rate
      check (interest < 2 ^ 64) .interest_too_large
      let s ← s.issueInterest (int64 interest)
      .ok (b.paid (int64 interest), s)
    else .ok (b, s)

/-- The common part of `adjust_balance` and `adjust_savings_balance`. -/
def adjustPurse (p : Purse) (delta : Asset) : Result (Purse × State) :=
  match delta.symbol with
  | .STEEM => .ok ({ p with steem := p.steem + delta.amount }, s)
  | .SBD => do
    let (sbd, s) ← s.payInterest p.sbd
    .ok ({ p with sbd := { sbd with balance := sbd.balance + delta.amount } }, s)
  | .VESTS => .error .invalid_symbol

def adjust_balance (name : AccountName) (delta : Asset) : Result State := do
  let a ← s.get_account name
  let (purse, s) ← s.adjustPurse a.purse delta
  .ok (s.putAccount name { a with purse })

def adjust_savings_balance (name : AccountName) (delta : Asset) : Result State := do
  let a ← s.get_account name
  let (savings, s) ← s.adjustPurse a.savings delta
  .ok (s.putAccount name { a with savings })

def adjust_reward_balance (name : AccountName) (delta : Asset) : Result State :=
  match delta.symbol with
  | .STEEM => s.modifyAccount name fun a =>
      { a with reward_steem_balance := a.reward_steem_balance + delta.amount }
  | .SBD => s.modifyAccount name fun a =>
      { a with reward_sbd_balance := a.reward_sbd_balance + delta.amount }
  | .VESTS => .error .invalid_symbol

/-- What `adjust_supply` adds to the vesting fund. -/
def newVesting (amount : ℤ) (adjust_vesting : Bool) : ℤ :=
  if adjust_vesting && decide (STEEMIT_BLOCKS_PER_DAY * 7 ≤ s.head_block_number) &&
    decide (0 < amount) then amount * 9 else 0

def adjust_supply (delta : Asset) (adjust_vesting : Bool) : Result State :=
  match delta.symbol with
  | .STEEM =>
    let new_vesting := s.newVesting delta.amount adjust_vesting
    .ok { s with
      current_supply := s.current_supply + (delta.amount + new_vesting)
      virtual_supply := s.virtual_supply + (delta.amount + new_vesting)
      total_vesting_fund_steem := s.total_vesting_fund_steem + new_vesting }
  | .SBD => do
    let current_sbd_supply := s.current_sbd_supply + delta.amount
    let value ← s.convert ⟨current_sbd_supply, .SBD⟩
    .ok { s with current_sbd_supply, virtual_supply := value.amount + s.current_supply }
  | .VESTS => .error .invalid_symbol

def get_balance (a : Account) : Symbol → Result ℤ
  | .STEEM => .ok a.purse.steem
  | .SBD => .ok a.purse.sbd.balance
  | .VESTS => .error .invalid_symbol

def get_savings_balance (a : Account) : Symbol → Result ℤ
  | .STEEM => .ok a.savings.steem
  | .SBD => .ok a.savings.sbd.balance
  | .VESTS => .error .invalid_symbol

/-- `to_sbd`. -/
def to_sbd (steem : ℤ) : Result ℤ :=
  if s.current_median_history.is_null then .ok 0 else Asset.amount <$> s.convert ⟨steem, .STEEM⟩

/-- `to_steem`. -/
def to_steem (sbd : ℤ) : Result ℤ :=
  if s.current_median_history.is_null then .ok 0 else Asset.amount <$> s.convert ⟨sbd, .SBD⟩

/-- The share of SBD in the virtual supply, a `uint16_t`. -/
def percentSbd (value virtual_supply : ℤ) : Result ℤ := do
  check (uint128 virtual_supply ≠ 0) .divide_by_zero
  let percent := uint128 (uint128 value * STEEMIT_100_PERCENT) / uint128 virtual_supply
  check (percent < 2 ^ 64) .share_too_large
  .ok (percent % 2 ^ 16)

def printRate (percent_sbd : ℤ) : ℤ :=
  if percent_sbd ≤ STEEMIT_SBD_START_PERCENT then STEEMIT_100_PERCENT
  else if STEEMIT_SBD_STOP_PERCENT ≤ percent_sbd then 0
  else (STEEMIT_SBD_STOP_PERCENT - percent_sbd) * STEEMIT_100_PERCENT /
    (STEEMIT_SBD_STOP_PERCENT - STEEMIT_SBD_START_PERCENT)

def update_virtual_supply : Result State :=
  if s.current_median_history.is_null then .ok { s with virtual_supply := s.current_supply }
  else do
    let value ← s.convert ⟨s.current_sbd_supply, .SBD⟩
    let virtual_supply := s.current_supply + value.amount
    if s.has_hardfork 14 then do
      let percent_sbd ← percentSbd value.amount virtual_supply
      .ok { s with virtual_supply, sbd_print_rate := printRate percent_sbd }
    else .ok { s with virtual_supply }

def get_vesting_share_price : Price :=
  if s.total_vesting_fund_steem = 0 ∨ s.total_vesting_shares = 0 then
    ⟨⟨1000, .STEEM⟩, ⟨1000000, .VESTS⟩⟩
  else ⟨⟨s.total_vesting_shares, .VESTS⟩, ⟨s.total_vesting_fund_steem, .STEEM⟩⟩

def get_reward_vesting_share_price : Price :=
  ⟨⟨s.total_vesting_shares + s.pending_rewarded_vesting_shares, .VESTS⟩,
    ⟨s.total_vesting_fund_steem + s.pending_rewarded_vesting_steem, .STEEM⟩⟩

def create_vesting (to_account : AccountName) (steem : ℤ) (to_reward_balance : Bool) :
    Result State := do
  let price := if to_reward_balance then s.get_reward_vesting_share_price
    else s.get_vesting_share_price
  let new_vesting ← withError .asset ((⟨steem, .STEEM⟩ : Asset).mul price)
  let s ← s.modifyAccount to_account fun a =>
    if to_reward_balance then
      { a with
        reward_vesting_balance := a.reward_vesting_balance + new_vesting.amount
        reward_vesting_steem := a.reward_vesting_steem + steem }
    else { a with vesting_shares := a.vesting_shares + new_vesting.amount }
  if to_reward_balance then
    .ok { s with
      pending_rewarded_vesting_shares := s.pending_rewarded_vesting_shares + new_vesting.amount
      pending_rewarded_vesting_steem := s.pending_rewarded_vesting_steem + steem }
  else
    .ok { s with
      total_vesting_fund_steem := s.total_vesting_fund_steem + steem
      total_vesting_shares := s.total_vesting_shares + new_vesting.amount }

/-- The two parts of a payout in SBD go to the account. -/
def paySbd (to_account : AccountName) (sbd : Asset) (steem : ℤ) (to_reward_balance : Bool) :
    Result State :=
  if to_reward_balance then do
    let s ← s.adjust_reward_balance to_account sbd
    s.adjust_reward_balance to_account ⟨steem, .STEEM⟩
  else do
    let s ← s.adjust_balance to_account sbd
    s.adjust_balance to_account ⟨steem, .STEEM⟩

/-- `create_sbd`, with the amounts of SBD and STEEM that it returns. -/
def create_sbd (to_account : AccountName) (steem : ℤ) (to_reward_balance : Bool) :
    Result ((ℤ × ℤ) × State) :=
  if steem = 0 then .ok ((0, 0), s)
  else if s.current_median_history.is_null then do
    let s ← s.adjust_balance to_account ⟨steem, .STEEM⟩
    .ok ((0, steem), s)
  else do
    let product ← safeMul s.sbd_print_rate steem
    let to_sbd := product.tdiv STEEMIT_100_PERCENT
    let to_steem := steem - to_sbd
    let sbd ← s.convert ⟨to_sbd, .STEEM⟩
    let s ← s.paySbd to_account sbd to_steem to_reward_balance
    let s ← s.adjust_supply ⟨-to_sbd, .STEEM⟩ false
    let s ← s.adjust_supply sbd false
    .ok ((sbd.amount, to_steem), s)

end State

/-! ## What a payment leaves alone -/

/-- The properties of the chain that no payment changes; accounts may be created. -/
structure SameChain (s s' : State) : Prop where
  accounts : s.accounts.KeysLe s'.accounts
  last_hardfork : s'.last_hardfork = s.last_hardfork
  head_block_number : s'.head_block_number = s.head_block_number
  time : s'.time = s.time
  current_witness : s'.current_witness = s.current_witness
  current_median_history : s'.current_median_history = s.current_median_history
  sbd_interest_rate : s'.sbd_interest_rate = s.sbd_interest_rate
  sbd_print_rate : s'.sbd_print_rate = s.sbd_print_rate
  account_creation_fee : s'.account_creation_fee = s.account_creation_fee
  total_reward_fund_steem : s'.total_reward_fund_steem = s.total_reward_fund_steem
  post_fund : s'.post_fund = s.post_fund

/-- A payment that moves value and issues no STEEM. -/
structure Moved (s s' : State) : Prop extends SameChain s s' where
  current_supply : s'.current_supply = s.current_supply

section Frame

variable {s s' s'' : State} {name : AccountName} {a : Account}

theorem find_of_get_account (h : s.get_account name = .ok a) :
    s.accounts.find? name = some a := by
  unfold State.get_account at h
  split at h
  · rename_i b hb
    cases h
    exact hb
  · cases h

theorem SameChain.refl (s : State) : SameChain s s := by constructor <;> rfl

theorem SameChain.trans (h : SameChain s s') (h' : SameChain s' s'') : SameChain s s'' where
  accounts := h.accounts.trans h'.accounts
  last_hardfork := h'.last_hardfork.trans h.last_hardfork
  head_block_number := h'.head_block_number.trans h.head_block_number
  time := h'.time.trans h.time
  current_witness := h'.current_witness.trans h.current_witness
  current_median_history := h'.current_median_history.trans h.current_median_history
  sbd_interest_rate := h'.sbd_interest_rate.trans h.sbd_interest_rate
  sbd_print_rate := h'.sbd_print_rate.trans h.sbd_print_rate
  account_creation_fee := h'.account_creation_fee.trans h.account_creation_fee
  total_reward_fund_steem := h'.total_reward_fund_steem.trans h.total_reward_fund_steem
  post_fund := h'.post_fund.trans h.post_fund

theorem SameChain.has_hardfork (h : SameChain s s') (n : ℕ) :
    s'.has_hardfork n = s.has_hardfork n := by
  rw [State.has_hardfork, State.has_hardfork, h.last_hardfork]

theorem Moved.refl (s : State) : Moved s s := ⟨.refl s, rfl⟩

theorem Moved.trans (h : Moved s s') (h' : Moved s' s'') : Moved s s'' :=
  ⟨h.toSameChain.trans h'.toSameChain, h'.current_supply.trans h.current_supply⟩

theorem moved_putAccount (s : State) (name : AccountName) (a : Account) :
    Moved s (s.putAccount name a) := by
  refine ⟨⟨OrdMap.keysLe_insert _ _ _, ?_, ?_, ?_, ?_, ?_, ?_, ?_, ?_, ?_, ?_⟩, rfl⟩
  all_goals rfl

theorem moved_modifyAccount {f : Account → Account} (h : s.modifyAccount name f = .ok s') :
    Moved s s' := by
  obtain ⟨a, -, h⟩ := bind_ok.1 h
  cases h
  exact moved_putAccount s name (f a)

/-- What the interest on a balance writes. -/
theorem payInterest_ok {b b' : SbdBalance} (h : s.payInterest b = .ok (b', s')) :
    b' = b.settled s.time s.sbd_interest_rate ∧ ∃ value : ℤ,
      s' = { s with
        current_sbd_supply := s.current_sbd_supply + b.owed s.time s.sbd_interest_rate
        virtual_supply := s.virtual_supply + value } ∧
      (b.owed s.time s.sbd_interest_rate = 0 ∧ value = 0 ∨
        ∃ a, s.convert ⟨b.owed s.time s.sbd_interest_rate, .SBD⟩ = .ok a ∧ a.amount = value) := by
  unfold State.payInterest at h
  unfold SbdBalance.settled SbdBalance.owed
  split_ifs at h with hnow
  · cases h
    exact ⟨(if_pos hnow).symm, 0, by simp [hnow], .inl ⟨if_pos hnow, rfl⟩⟩
  · dsimp only at h
    rw [if_neg hnow, if_neg hnow]
    split_ifs at h with hdue
    · replace h := ok_of_check h
      obtain ⟨t, ht, h⟩ := bind_ok.1 h
      obtain ⟨value, hvalue, ht⟩ := bind_ok.1 ht
      cases ht
      cases h
      rw [if_pos hdue, if_pos hdue]
      exact ⟨rfl, value.amount, rfl, .inr ⟨value, hvalue, rfl⟩⟩
    · cases h
      rw [if_neg hdue, if_neg hdue]
      exact ⟨rfl, 0, by simp, .inl ⟨rfl, rfl⟩⟩

theorem moved_payInterest {b b' : SbdBalance} (h : s.payInterest b = .ok (b', s')) :
    Moved s s' := by
  obtain ⟨-, value, rfl, -⟩ := payInterest_ok h
  refine ⟨?_, rfl⟩
  constructor <;> rfl

variable {to_reward_balance adjust_vesting : Bool} {delta : Asset} {steem : ℤ}

theorem moved_adjustPurse {p p' : Purse} (h : s.adjustPurse p delta = .ok (p', s')) :
    Moved s s' := by
  unfold State.adjustPurse at h
  split at h
  · cases h
    exact .refl s
  · obtain ⟨⟨b, t⟩, ht, h⟩ := bind_ok.1 h
    cases h
    exact moved_payInterest ht
  · cases h

theorem moved_adjust_balance (h : s.adjust_balance name delta = .ok s') :
    Moved s s' := by
  obtain ⟨a, -, h⟩ := bind_ok.1 h
  obtain ⟨⟨p, t⟩, ht, h⟩ := bind_ok.1 h
  cases h
  exact (moved_adjustPurse ht).trans (moved_putAccount t name _)

theorem moved_adjust_savings_balance (h : s.adjust_savings_balance name delta = .ok s') :
    Moved s s' := by
  obtain ⟨a, -, h⟩ := bind_ok.1 h
  obtain ⟨⟨p, t⟩, ht, h⟩ := bind_ok.1 h
  cases h
  exact (moved_adjustPurse ht).trans (moved_putAccount t name _)

theorem moved_adjust_reward_balance (h : s.adjust_reward_balance name delta = .ok s') :
    Moved s s' := by
  unfold State.adjust_reward_balance at h
  split at h
  · exact moved_modifyAccount h
  · exact moved_modifyAccount h
  · cases h

theorem moved_create_vesting (h : s.create_vesting name steem to_reward_balance = .ok s') :
    Moved s s' := by
  obtain ⟨new_vesting, -, h⟩ := bind_ok.1 h
  obtain ⟨t, ht, h⟩ := bind_ok.1 h
  refine (moved_modifyAccount ht).trans ?_
  split at h
  all_goals
    cases h
    refine ⟨?_, rfl⟩
    constructor <;> rfl

theorem moved_paySbd {sbd : Asset} (h : s.paySbd name sbd steem to_reward_balance = .ok s') :
    Moved s s' := by
  unfold State.paySbd at h
  split at h
  · obtain ⟨t, ht, h⟩ := bind_ok.1 h
    exact (moved_adjust_reward_balance ht).trans (moved_adjust_reward_balance h)
  · obtain ⟨t, ht, h⟩ := bind_ok.1 h
    exact (moved_adjust_balance ht).trans (moved_adjust_balance h)

theorem sameChain_adjust_supply (h : s.adjust_supply delta adjust_vesting = .ok s') :
    SameChain s s' := by
  unfold State.adjust_supply at h
  split at h
  · cases h
    constructor <;> rfl
  · obtain ⟨value, -, h⟩ := bind_ok.1 h
    cases h
    constructor <;> rfl
  · cases h

theorem sameChain_create_sbd {r : ℤ × ℤ}
    (h : s.create_sbd name steem to_reward_balance = .ok (r, s')) : SameChain s s' := by
  unfold State.create_sbd at h
  split at h
  · cases h
    exact .refl s
  · split at h
    · obtain ⟨t, ht, h⟩ := bind_ok.1 h
      cases h
      exact (moved_adjust_balance ht).toSameChain
    · simp only [bind_ok] at h
      obtain ⟨_, -, _, -, t1, h1, t2, h2, t3, h3, h⟩ := h
      cases h
      exact (moved_paySbd h1).toSameChain.trans
        ((sameChain_adjust_supply h2).trans (sameChain_adjust_supply h3))

/-- The price is null or comes from the feeds. -/
def State.FeedOk (s : State) : Prop :=
  s.current_median_history.is_null = true ∨ s.current_median_history.IsFeed

theorem SameChain.feedOk (h : SameChain s s') (hs : s.FeedOk) : s'.FeedOk := by
  rw [State.FeedOk, h.current_median_history]
  exact hs

theorem current_supply_adjust_sbd {amount : ℤ}
    (h : s.adjust_supply ⟨amount, .SBD⟩ adjust_vesting = .ok s') :
    s'.current_supply = s.current_supply := by
  obtain ⟨value, -, h⟩ := bind_ok.1 h
  cases h
  rfl

theorem current_supply_adjust_steem {amount : ℤ}
    (h : s.adjust_supply ⟨amount, .STEEM⟩ adjust_vesting = .ok s') :
    s'.current_supply = s.current_supply + (amount + s.newVesting amount adjust_vesting) := by
  cases h
  rfl

theorem safeMul_eq_ok {x y r : ℤ} :
    safeMul x y = .ok r ↔ (-2 ^ 63 ≤ x * y ∧ x * y < 2 ^ 63) ∧ r = x * y := by
  unfold safeMul
  simp only [check_bind_ok, decide_eq_true_eq, Except.ok.injEq]
  exact and_congr_right fun _ => eq_comm

/-- Division towards zero stays above a negative bound. -/
theorem le_tdiv {x y bound : ℤ} (h : bound ≤ x) (hbound : bound ≤ 0) (hy : 0 ≤ y) :
    bound ≤ x.tdiv y := by
  rcases le_or_gt 0 x with hx | hx
  · exact hbound.trans (Int.tdiv_nonneg hx hy)
  · have hle := Int.tdiv_le_self (a := -x) y (by omega)
    rw [Int.neg_tdiv] at hle
    omega

/-- What is paid in SBD is taken from the STEEM: a negative part would not convert. -/
theorem current_supply_create_sbd {r : ℤ × ℤ} (hfeed : s.FeedOk)
    (h : s.create_sbd name steem to_reward_balance = .ok (r, s')) :
    s'.current_supply ≤ s.current_supply := by
  unfold State.create_sbd at h
  split at h
  · cases h
    exact le_rfl
  · split at h
    · obtain ⟨t, ht, h⟩ := bind_ok.1 h
      cases h
      exact (moved_adjust_balance ht).current_supply.le
    · rename_i hnull
      simp only [bind_ok] at h
      obtain ⟨product, hproduct, sbd, hsbd, t1, h1, t2, h2, t3, h3, h⟩ := h
      cases h
      have hprice : s.current_median_history.IsFeed := hfeed.resolve_left hnull
      have hmul := withError_eq_ok.1 hsbd
      have hsymbol : sbd.symbol = .SBD := Asset.symbol_of_mul hprice hmul
      obtain ⟨⟨hlow, -⟩, rfl⟩ := safeMul_eq_ok.1 hproduct
      have hpart : 0 ≤ (s.sbd_print_rate * steem).tdiv STEEMIT_100_PERCENT := by
        exact Asset.nonneg_of_mul hprice (le_tdiv hlow (by norm_num) (by decide)) hmul
      obtain ⟨amount, symbol⟩ := sbd
      cases hsymbol
      rw [current_supply_adjust_sbd h3, current_supply_adjust_steem h2,
        (moved_paySbd h1).current_supply]
      simp only [State.newVesting, Bool.false_and, Bool.false_eq_true, ↓reduceIte]
      omega

end Frame

end Calibrd.Chain.Ledger
