import Calibrd.Chain.Config
import Calibrd.Lib.Check
import Calibrd.Lib.Forest
import Calibrd.Lib.Runs

/-!
# Witness votes and proxies

The functions that change vesting shares, proxies, witness votes and their counts: the evaluators of
`account_witness_proxy`, `account_witness_vote`, `claim_reward_balance` and the account and witness
creations, `create_vesting`, one round of `process_vesting_withdrawals`,
`clear_null_account_balance`, one request of `process_decline_voting_rights`, and the hardforks that
touch these fields.

Accounts and witnesses are never removed, so their ids are the numbers below a count. Names are
resolved to ids. Where an amount depends on other fields (rewards, prices, withdraw rates), the call
takes it as an argument. A call that throws is undone by its session.
-/

namespace Calibrd.Chain.WitnessVotes

open Calibrd.Lib

abbrev AccountId := ℕ

abbrev WitnessId := ℕ

def STEEMIT_MAX_PROXY_RECURSION_DEPTH : ℕ := 4

def STEEMIT_MAX_ACCOUNT_WITNESS_VOTES : ℕ := 30

def STEEMIT_NUM_INIT_MINERS : ℕ := 1

/-- `STEEMIT_NULL_ACCOUNT`, the second account of `init_genesis`. -/
def STEEMIT_NULL_ACCOUNT : AccountId := 1

/-- The fields of `account_object` that the votes depend on; `none` is
`STEEMIT_PROXY_TO_SELF_ACCOUNT`. Of `proxied_vsf_votes` the entries below
`STEEMIT_MAX_PROXY_RECURSION_DEPTH` are used, and `witnesses_voted_for` is a `uint16_t`. -/
structure Account where
  proxy : Option AccountId := none
  vesting_shares : ℤ := 0
  proxied_vsf_votes : ℕ → ℤ := fun _ => 0
  witnesses_voted_for : ℕ := 0
  can_vote : Bool := true

def Account.witness_vote_weight (a : Account) : ℤ :=
  a.vesting_shares + ∑ k ∈ Finset.range STEEMIT_MAX_PROXY_RECURSION_DEPTH, a.proxied_vsf_votes k

structure State where
  accounts : AccountId → Account
  num_accounts : ℕ
  /-- `witness_object::votes`. -/
  votes : WitnessId → ℤ
  num_witnesses : ℕ
  /-- `witness_vote_index`; its order does not matter here. -/
  witness_votes : List (AccountId × WitnessId)
  total_vesting_shares : ℤ
  last_hardfork : ℕ

inductive VoteError where
  | missing_authority
  | unknown_account
  | unknown_witness
  | votes_above_total
  | proxy_to_self
  | proxy_must_change
  | declined_proxy
  | proxy_loop
  | proxy_chain_too_long
  | proxy_is_set
  | declined_vote
  | vote_does_not_exist
  | too_many_witnesses
  | vote_exists
  | deposited_too_much
  | unknown_hardfork
deriving DecidableEq, Repr

namespace State

variable (s : State)

/-- The account that every proxy chain is followed with. -/
def proxyOf (a : AccountId) : Option AccountId := (s.accounts a).proxy

def has_hardfork (h : ℕ) : Bool := decide (h ≤ s.last_hardfork)

def modifyAccount (a : AccountId) (f : Account → Account) : State :=
  { s with accounts := Function.update s.accounts a (f (s.accounts a)) }

def get_account (a : AccountId) : Except VoteError Unit :=
  check (decide (a < s.num_accounts)) .unknown_account

def get_witness (w : WitnessId) : Except VoteError Unit :=
  check (decide (w < s.num_witnesses)) .unknown_witness

/-- The witnesses that `a` votes for. -/
def votedFor (a : AccountId) : List WitnessId :=
  (s.witness_votes.filter fun v => v.1 = a).map Prod.snd

/-! ## Adjusting the votes -/

def adjust_witness_vote (w : WitnessId) (delta : ℤ) : Except VoteError State := do
  check (decide (s.votes w + delta ≤ s.total_vesting_shares)) .votes_above_total
  .ok { s with votes := Function.update s.votes w (s.votes w + delta) }

/-- The same change for a list of witnesses. -/
def adjustAll (delta : ℤ) : List WitnessId → State → Except VoteError State
  | [], s => .ok s
  | w :: rest, s => do adjustAll delta rest (← s.adjust_witness_vote w delta)

def adjust_witness_votes (a : AccountId) (delta : ℤ) : Except VoteError State :=
  adjustAll delta (s.votedFor a) s

/-- The walk of both `adjust_proxied_witness_votes`: every proxy is changed according to its depth,
and the votes of an account without a proxy are adjusted. `left` is what the recursion limit still
allows. -/
def adjustChain (change : ℕ → ℕ → ℤ) (total : ℕ → ℤ) :
    ℕ → ℕ → AccountId → State → Except VoteError State
  | left, depth, a, s =>
    match s.proxyOf a, left with
    | none, _ => s.adjust_witness_votes a (total depth)
    | some _, 0 => .ok s
    | some p, left + 1 => do
      s.get_account p
      adjustChain change total left (depth + 1) p (s.modifyAccount p fun acc =>
        { acc with proxied_vsf_votes := fun k => acc.proxied_vsf_votes k + change depth k })

/-- `adjust_proxied_witness_votes` with an array: `delta i` is what comes from `i` levels below. -/
def adjust_proxied_witness_votes_array (a : AccountId) (delta : ℕ → ℤ) : Except VoteError State :=
  adjustChain
    (fun depth k =>
      if depth ≤ k ∧ k < STEEMIT_MAX_PROXY_RECURSION_DEPTH then delta (k - depth) else 0)
    (fun depth => ∑ i ∈ Finset.range (STEEMIT_MAX_PROXY_RECURSION_DEPTH - depth + 1), delta i)
    STEEMIT_MAX_PROXY_RECURSION_DEPTH 0 a s

def adjust_proxied_witness_votes (a : AccountId) (delta : ℤ) : Except VoteError State :=
  adjustChain (fun depth k => if k = depth then delta else 0) (fun _ => delta)
    STEEMIT_MAX_PROXY_RECURSION_DEPTH 0 a s

def clear_witness_votes (a : AccountId) : State :=
  let s' := { s with witness_votes := s.witness_votes.filter fun v => v.1 ≠ a }
  if s.has_hardfork 6 then s'.modifyAccount a fun acc => { acc with witnesses_voted_for := 0 }
  else s'

/-! ## Accounts, witnesses and shares -/

def createAccount : State :=
  { s with
    accounts := Function.update s.accounts s.num_accounts {}
    num_accounts := s.num_accounts + 1 }

def createWitness : State :=
  { s with
    votes := Function.update s.votes s.num_witnesses 0
    num_witnesses := s.num_witnesses + 1 }

/-- `vests` more shares for `a`, also in the total. -/
def addShares (a : AccountId) (vests : ℤ) : Except VoteError State := do
  s.get_account a
  let s' := s.modifyAccount a fun acc => { acc with vesting_shares := acc.vesting_shares + vests }
  { s' with total_vesting_shares := s.total_vesting_shares + vests }.adjust_proxied_witness_votes
    a vests

/-- `create_vesting` to the vesting balance. -/
def create_vesting (to_account : AccountId) (new_vesting : ℤ) : Except VoteError State :=
  s.addShares to_account new_vesting

def claim_reward_balance (account : AccountId) (reward_vests : ℤ) : Except VoteError State :=
  s.addShares account reward_vests

end State

/-- A `withdraw_vesting_route_object`. -/
structure Route where
  to_account : AccountId
  percent : ℕ
  auto_vest : Bool

def Route.to_deposit (r : Route) (to_withdraw : ℕ) : ℕ :=
  to_withdraw * r.percent / STEEMIT_100_PERCENT

namespace State

variable (s : State)

/-- The first pass over the routes: what is vested again. -/
def depositVests (to_withdraw : ℕ) : List Route → State → Except VoteError State
  | [], s => .ok s
  | r :: rest, s =>
    if r.auto_vest ∧ 0 < r.to_deposit to_withdraw then do
      s.get_account r.to_account
      let s' := s.modifyAccount r.to_account fun acc =>
        { acc with vesting_shares := acc.vesting_shares + r.to_deposit to_withdraw }
      depositVests to_withdraw rest
        (← s'.adjust_proxied_witness_votes r.to_account (r.to_deposit to_withdraw))
    else depositVests to_withdraw rest s

/-- What the routes of one kind take. -/
def deposited (auto_vest : Bool) (to_withdraw : ℕ) (routes : List Route) : ℕ :=
  ((routes.filter fun r => r.auto_vest = auto_vest).map fun r => r.to_deposit to_withdraw).sum

/-- `process_vesting_withdrawals` for one account. -/
def withdrawVesting (from_account : AccountId) (to_withdraw : ℕ) (routes : List Route) :
    Except VoteError State := do
  s.get_account from_account
  let s1 ← s.depositVests to_withdraw routes
  let as_steem := deposited false to_withdraw routes
  let as_vests := deposited true to_withdraw routes
  check (decide (as_steem + as_vests ≤ to_withdraw)) .deposited_too_much
  let s2 := s1.modifyAccount from_account fun acc =>
    { acc with vesting_shares := acc.vesting_shares - to_withdraw }
  -- the second pass and the rest are paid out of the fund
  let s3 := { s2 with
    total_vesting_shares :=
      s2.total_vesting_shares - as_steem - (to_withdraw - as_steem - as_vests : ℤ) }
  if 0 < to_withdraw then s3.adjust_proxied_witness_votes from_account (-to_withdraw) else .ok s3

/-- `clear_null_account_balance`, as far as shares go: no votes are adjusted. -/
def clear_null_account_balance : State :=
  let shares := (s.accounts STEEMIT_NULL_ACCOUNT).vesting_shares
  if s.has_hardfork 14 ∧ 0 < shares then
    { s.modifyAccount STEEMIT_NULL_ACCOUNT fun acc => { acc with vesting_shares := 0 } with
      total_vesting_shares := s.total_vesting_shares - shares }
  else s

/-! ## Proxies, votes and declined rights -/

/-- The `delta` that takes the votes of `a` away: its own shares and those of every level below. -/
def removal (a : AccountId) : ℕ → ℤ
  | 0 => -(s.accounts a).vesting_shares
  | i + 1 => -(s.accounts a).proxied_vsf_votes i

/-- The loop that follows the new proxy upwards. `left` counts what the length check allows. -/
def checkChain : ℕ → List AccountId → AccountId → State → Except VoteError Unit
  | left, chain, cprox, s =>
    match s.proxyOf cprox, left with
    | none, _ => .ok ()
    | some next_proxy, left => do
      s.get_account next_proxy
      check (decide (next_proxy ∉ chain)) .proxy_loop
      match left with
      | 0 => .error .proxy_chain_too_long
      | left + 1 => checkChain left (next_proxy :: chain) next_proxy s

def setProxy (a : AccountId) (proxy : Option AccountId) : State :=
  s.modifyAccount a fun acc => { acc with proxy := proxy }

def account_witness_proxy (account : AccountId) (proxy : Option AccountId) :
    Except VoteError State := do
  check (decide (proxy ≠ some account)) .proxy_to_self
  s.get_account account
  check (decide (s.proxyOf account ≠ proxy)) .proxy_must_change
  check (s.accounts account).can_vote .declined_proxy
  let s1 ← s.adjust_proxied_witness_votes_array account (s.removal account)
  match proxy with
  | some new_proxy =>
    s1.get_account new_proxy
    -- the chain starts with two accounts and may hold `STEEMIT_MAX_PROXY_RECURSION_DEPTH`
    checkChain (STEEMIT_MAX_PROXY_RECURSION_DEPTH - 2) [account, new_proxy] new_proxy s1
    ((s1.clear_witness_votes account).setProxy account proxy).adjust_proxied_witness_votes_array
      account (fun i => -s.removal account i)
  | none => .ok (s1.setProxy account none)

def account_witness_vote (account : AccountId) (witness : WitnessId) (approve : Bool) :
    Except VoteError State := do
  s.get_account account
  check (s.proxyOf account).isNone .proxy_is_set
  check (!approve || (s.accounts account).can_vote) .declined_vote
  s.get_witness witness
  let weight := (s.accounts account).witness_vote_weight
  if (account, witness) ∈ s.witness_votes then
    check (!approve) .vote_exists
    let s' ← s.adjust_witness_vote witness (-weight)
    .ok { s'.modifyAccount account fun acc =>
        { acc with witnesses_voted_for := (acc.witnesses_voted_for + (2 ^ 16 - 1)) % 2 ^ 16 } with
      witness_votes := s.witness_votes.erase (account, witness) }
  else
    check approve .vote_does_not_exist
    check (decide ((s.accounts account).witnesses_voted_for < STEEMIT_MAX_ACCOUNT_WITNESS_VOTES))
      .too_many_witnesses
    let s' ← { s with witness_votes := (account, witness) :: s.witness_votes }.adjust_witness_vote
      witness weight
    .ok (s'.modifyAccount account fun acc =>
      { acc with witnesses_voted_for := (acc.witnesses_voted_for + 1) % 2 ^ 16 })

/-- `process_decline_voting_rights` for one request. -/
def declineVotingRights (account : AccountId) : Except VoteError State := do
  s.get_account account
  let s1 ← s.adjust_proxied_witness_votes_array account (s.removal account)
  .ok ((s1.clear_witness_votes account).modifyAccount account fun acc =>
    { acc with can_vote := false, proxy := none })

/-! ## Hardforks -/

def perform_vesting_share_split (magnitude : ℤ) : State :=
  { s with
    total_vesting_shares := s.total_vesting_shares * magnitude
    accounts := fun a =>
      { s.accounts a with
        vesting_shares := (s.accounts a).vesting_shares * magnitude
        proxied_vsf_votes := fun k => (s.accounts a).proxied_vsf_votes k * magnitude } }

/-- The second loop of `retally_witness_votes`. -/
def tallyAccounts : List AccountId → State → Except VoteError State
  | [], s => .ok s
  | a :: rest, s =>
    if s.proxyOf a ≠ none then tallyAccounts rest s
    else do
      tallyAccounts rest (← s.adjust_witness_votes a (s.accounts a).witness_vote_weight)

def retally_witness_votes : Except VoteError State :=
  tallyAccounts (List.range s.num_accounts) { s with votes := fun _ => 0 }

def retally_witness_vote_counts (force : Bool) : State :=
  { s with
    accounts := fun a =>
      { s.accounts a with
        witnesses_voted_for :=
          if force ∨ s.proxyOf a ≠ none then (s.votedFor a).length % 2 ^ 16 else 0 } }

/-- What `apply_hardfork` does to these fields. -/
def hardforkChanges (hardfork : ℕ) : Except VoteError State :=
  match hardfork with
  | 1 => .ok (s.perform_vesting_share_split 1000000)
  | 2 => s.retally_witness_votes
  | 3 => s.retally_witness_votes
  | 6 => .ok (s.retally_witness_vote_counts false)
  | 8 => .ok (s.retally_witness_vote_counts true)
  | _ => .ok s

/-- `apply_hardfork( last_hardfork + 1 )`, as `process_hardforks` calls it. -/
def applyNextHardfork : Except VoteError State := do
  check (decide (s.last_hardfork < STEEMIT_NUM_HARDFORKS)) .unknown_hardfork
  let s' ← s.hardforkChanges (s.last_hardfork + 1)
  .ok { s' with last_hardfork := s.last_hardfork + 1 }

end State

/-! ## Runs -/

/-- `init_genesis`. -/
def genesis : State where
  accounts _ := {}
  num_accounts := 3 + STEEMIT_NUM_INIT_MINERS
  votes _ := 0
  num_witnesses := STEEMIT_NUM_INIT_MINERS
  witness_votes := []
  total_vesting_shares := 0
  last_hardfork := 0

/-- What operations and maintenance do to the shares and votes. -/
inductive Call where
  | create_account
  | create_witness
  | create_vesting (to_account : AccountId) (new_vesting : ℤ)
  | claim_reward_balance (account : AccountId) (reward_vests : ℤ)
  | process_vesting_withdrawal (from_account : AccountId) (to_withdraw : ℕ) (routes : List Route)
  | clear_null_account_balance
  | account_witness_proxy (account : AccountId) (proxy : Option AccountId)
  | account_witness_vote (account : AccountId) (witness : WitnessId) (approve : Bool)
  | decline_voting_rights (account : AccountId)
  | apply_hardfork

/-- The account whose authority the call needs. -/
def Call.signer : Call → Option AccountId
  | account_witness_proxy account _ => some account
  | account_witness_vote account _ _ => some account
  | decline_voting_rights account => some account
  | _ => none

def Call.evaluate (s : State) : Call → Except VoteError State
  | create_account => .ok s.createAccount
  | create_witness => .ok s.createWitness
  | create_vesting to_account new_vesting => s.create_vesting to_account new_vesting
  | claim_reward_balance account reward_vests => s.claim_reward_balance account reward_vests
  | process_vesting_withdrawal from_account to_withdraw routes =>
    s.withdrawVesting from_account to_withdraw routes
  | clear_null_account_balance => .ok s.clear_null_account_balance
  | account_witness_proxy account proxy => s.account_witness_proxy account proxy
  | account_witness_vote account witness approve => s.account_witness_vote account witness approve
  | decline_voting_rights account => s.declineVotingRights account
  | apply_hardfork => s.applyNextHardfork

/-- A call with its authority check: the authority of the null account has a threshold and no
keys, so nothing can be signed for it. -/
def Call.apply (s : State) (c : Call) : Except VoteError State := do
  check (decide (c.signer ≠ some STEEMIT_NULL_ACCOUNT)) .missing_authority
  c.evaluate s

/-- A call that throws changes nothing. -/
def run (s : State) (calls : List Call) : State := runCalls Call.apply s calls

end Calibrd.Chain.WitnessVotes
