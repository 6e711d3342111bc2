import Calibrd.Chain.Config
import Calibrd.Chain.Ledger
import Calibrd.Lib.Runs

/-!
# Votes on comments and their payout

The evaluators of `comment` (as far as payouts depend on it), `comment_options`, `delete_comment` and
`vote`, and `process_comment_cashout`, on top of the balances of `Ledger`. An operation names a
comment by its id; what posting requires and the tree of replies are in `Comments`. Totals that are
only displayed are left out. The node is built as by default, with `CLEAR_VOTES`.

No comment ever gets a parent or a root (`Comments.run_flat`), so a discussion is all comments.
-/

namespace Calibrd.Chain.Rewards

open Calibrd.Lib Calibrd.Protocol
open Calibrd.Chain.Ledger (CurveId RewardFund STEEMIT_1_PERCENT safeMul toShare)

abbrev CommentId := ℕ

def STEEMIT_CASHOUT_WINDOW_SECONDS_PRE_HF17 : ℕ := 60 * 60 * 12

def STEEMIT_SECOND_CASHOUT_WINDOW : ℕ := 60 * 60 * 24 * 30

/-- `fc::hours( 12 )`. -/
def STEEMIT_UPVOTE_LOCKOUT_HF17 : ℤ := 60 * 60 * 12

def STEEMIT_VOTE_REGENERATION_SECONDS : ℤ := 5 * 60 * 60 * 24

def STEEMIT_MAX_VOTE_CHANGES : ℤ := 5

def STEEMIT_REVERSE_AUCTION_WINDOW_SECONDS : ℤ := 60 * 30

def STEEMIT_MIN_VOTE_INTERVAL_SEC : ℤ := 3

def STEEMIT_VOTE_DUST_THRESHOLD : ℤ := 50000000

def STEEMIT_CONTENT_CONSTANT_HF0 : ℤ := 2000000000000

/-- SBD. -/
def STEEMIT_MIN_PAYOUT_SBD : ℤ := 20

/-- `fc::days( 30 )`. -/
def STEEMIT_RECENT_RSHARES_DECAY_RATE_HF17 : ℤ := 60 * 60 * 24 * 30

/-- `fc::days( 15 )`. -/
def STEEMIT_RECENT_RSHARES_DECAY_RATE_HF19 : ℤ := 60 * 60 * 24 * 15

def STEEMIT_HARDFORK_0_6_REVERSE_AUCTION_TIME : ℕ := 1467295200 - 60 * 60 * 24 * 6

def STEEMIT_HF_19_SQRT_PRE_CALC : ℕ := 1497970809 - STEEMIT_CASHOUT_WINDOW_SECONDS

def STEEMIT_HF_17_RECENT_CLAIMS : ℤ := 808638359297 * 2 ^ 64 + 13744269167557038121

def STEEMIT_HF_19_RECENT_CLAIMS : ℤ := 140797515942543623

/-- The fields of `account_object` for voting. -/
structure Voter where
  /-- The id of the account. -/
  id : ℕ := 0
  can_vote : Bool := true
  owner_challenged : Bool := false
  active_challenged : Bool := false
  voting_power : ℤ := STEEMIT_100_PERCENT
  last_vote_time : ℕ := 0
  delegated_vesting_shares : ℤ := 0
  received_vesting_shares : ℤ := 0
  /-- `to_withdraw - withdrawn`. -/
  withdrawing : ℤ := 0
deriving DecidableEq, Repr

/-- The fields of `comment_object` for votes and payout. -/
structure Comment where
  author : AccountName
  created : ℕ
  last_payout : ℕ := 0
  net_rshares : ℤ := 0
  abs_rshares : ℤ := 0
  vote_rshares : ℤ := 0
  children_abs_rshares : ℤ := 0
  cashout_time : ℕ
  max_cashout_time : ℕ := MAXIMUM_TIME
  /-- A `uint64_t`. -/
  total_vote_weight : ℤ := 0
  reward_weight : ℤ
  net_votes : ℤ := 0
  root_comment : CommentId := 0
  /-- SBD. -/
  max_accepted_payout : ℤ := 1000000000
  percent_steem_dollars : ℤ := STEEMIT_100_PERCENT
  allow_votes : Bool := true
  allow_curation_rewards : Bool := true
  beneficiaries : List (AccountName × ℤ) := []
deriving DecidableEq, Repr

/-- `comment_vote_object`. -/
structure Vote where
  /-- A `uint64_t`. -/
  weight : ℤ := 0
  rshares : ℤ := 0
  vote_percent : ℤ
  last_update : ℕ
  num_changes : ℤ := 0
deriving DecidableEq, Repr

structure State where
  ledger : Ledger.State := {}
  voters : AccountName → Voter := fun _ => {}
  comments : OrdMap CommentId Comment := .empty
  /-- By `by_comment_voter`. -/
  votes : OrdMap (CommentId ×ₗ AccountName) Vote := .empty
  next_comment : CommentId := 0
  /-- A `uint128_t`. -/
  total_reward_shares2 : ℤ := 0
  vote_power_reserve_rate : ℤ := 40

inductive Error where
  | ledger (e : Ledger.Error)
  | unknown_comment
  | invalid_percentage
  | challenged
  | voting_rights_declined
  | votes_not_allowed
  | too_soon
  | no_voting_power
  | no_vote_denominator
  | not_enough_power
  | dust
  | voted_before_payout
  | zero_weight
  | payout_increase_locked
  | zero_rshares
  | too_many_changes
  | same_vote
  | weight_too_large
  | unknown_fund
  | shares_allocated
  | cannot_enable
  | greater_payout
  | unknown_beneficiary
  | invalid_beneficiaries
  | has_beneficiaries
  | paid_out
  | positive_votes
  | no_rshares
  | no_reward_shares
  | payout_too_large
  | endless_loop
  | unknown_hardfork
  | too_early
deriving DecidableEq, Repr

abbrev Result := Except Error

/-! ## Reward curves -/

/-- `approx_sqrt`: the number of bits is halved, and so is the mantissa. -/
def approx_sqrt (x : ℕ) : ℕ :=
  if x = 0 then 0
  else
    let msb_x := x.log2
    let msb_z := msb_x / 2
    let mantissa_z_hi := if msb_x % 2 = 1 then 2 ^ msb_z else 0
    let mantissa_z_lo := x % 2 ^ msb_x / 2 ^ (msb_x - msb_z) % 2 ^ 64
    2 ^ msb_z ||| (mantissa_z_hi ||| mantissa_z_lo) / 2

/-- `evaluate_reward_curve`, in `uint128_t`. -/
def evaluate_reward_curve (rshares : ℤ) (curve : CurveId := .quadratic)
    (content_constant : ℤ := STEEMIT_CONTENT_CONSTANT_HF0) : ℤ :=
  match curve with
  | .quadratic =>
    uint128 ((rshares + content_constant) * (rshares + content_constant) -
      content_constant * content_constant)
  | .quadratic_curation =>
    uint128 rshares % 2 ^ 64 * 2 ^ 64 / uint128 (content_constant * 2 + rshares)
  | .linear => uint128 rshares
  | .square_root => approx_sqrt (uint128 rshares).toNat

/-! ## Comments and votes by themselves -/

/-- The comment after a new vote. -/
def Comment.addVote (c : Comment) (rshares abs_rshares : ℤ) : Comment :=
  { c with
    net_rshares := c.net_rshares + rshares
    abs_rshares := c.abs_rshares + abs_rshares
    vote_rshares := if 0 < rshares then c.vote_rshares + rshares else c.vote_rshares
    net_votes := if 0 < rshares then c.net_votes + 1 else c.net_votes - 1 }

/-- The power that a vote of the weight uses, rounded up. -/
def usedPower (current_power abs_weight max_vote_denom : ℤ) : ℤ :=
  (current_power * abs_weight / STEEMIT_100_PERCENT + max_vote_denom - 1) / max_vote_denom

/-- How a change of a vote counts. -/
def netVotesDelta (old new : ℤ) : ℤ :=
  if 0 < new ∧ old < 0 then 2
  else if 0 < new ∧ old = 0 then 1
  else if new = 0 ∧ old < 0 then 1
  else if new = 0 ∧ 0 < old then -1
  else if new < 0 ∧ old = 0 then -1
  else if new < 0 ∧ 0 < old then -2
  else 0

structure CommentOptions where
  max_accepted_payout : ℤ
  percent_steem_dollars : ℤ
  allow_votes : Bool
  allow_curation_rewards : Bool
  /-- The extension, where it is present. -/
  beneficiaries : Option (List (AccountName × ℤ)) := none

/-- `comment_payout_beneficiaries::validate`. -/
def validBeneficiaries (l : List (AccountName × ℤ)) : Bool :=
  decide (l ≠ []) && decide (l.length < 128) &&
    l.all (fun b => decide (0 ≤ b.2 ∧ b.2 ≤ STEEMIT_100_PERCENT)) &&
    decide ((l.map Prod.snd).sum ≤ STEEMIT_100_PERCENT) &&
    decide ((l.map Prod.fst).Pairwise (· < ·))

/-- What `comment_reward_context` says about the fund that is paid from. -/
structure Context where
  total_reward_shares2 : ℤ
  total_reward_fund_steem : ℤ
  reward_curve : CurveId := .quadratic
  content_constant : ℤ := STEEMIT_CONTENT_CONSTANT_HF0

/-- The claim of a comment, as `u256`. -/
def claimOf (ctx : Context) (c : Comment) : ℤ :=
  evaluate_reward_curve c.net_rshares ctx.reward_curve ctx.content_constant * c.reward_weight /
    STEEMIT_100_PERCENT

/-- The cashout times at hardfork 17; the loop over the replies repeats what the one over the posts
has done. -/
def cashoutAtHardfork17 (c : Comment) : Comment :=
  if c.cashout_time < MAXIMUM_TIME then
    { c with cashout_time := max (c.created + STEEMIT_CASHOUT_WINDOW_SECONDS) c.cashout_time }
  else c

namespace State

variable (s : State)

def has_hardfork (n : ℕ) : Bool := s.ledger.has_hardfork n

def head_block_time : ℕ := s.ledger.time

variable (id : CommentId)

def get_comment : Result Comment :=
  match s.comments.find? id with
  | some c => .ok c
  | none => .error .unknown_comment

def get_reward_fund : Result RewardFund :=
  match s.ledger.post_fund with
  | some f => .ok f
  | none => .error .unknown_fund

def putComment (c : Comment) : State :=
  { s with comments := s.comments.insert id c }

def putVote (voter : AccountName) (v : Vote) : State :=
  { s with votes := s.votes.insert (toLex (id, voter)) v }

def get_curation_rewards_percent : Result ℤ :=
  if s.has_hardfork 17 then RewardFund.percent_curation_rewards <$> s.get_reward_fund
  else if s.has_hardfork 8 then .ok (STEEMIT_1_PERCENT * 25)
  else .ok (STEEMIT_1_PERCENT * 50)

/-- `adjust_rshares2`: the total in `uint128_t`. -/
def adjust_rshares2 (old_rshares2 new_rshares2 : ℤ) : State :=
  { s with
    total_reward_shares2 := uint128 (uint128 (s.total_reward_shares2 - old_rshares2) + new_rshares2) }

/-! ## Votes -/

/-- `effective_vesting_shares`. -/
def effectiveShares (voter : AccountName) (a : Ledger.Account) : ℤ :=
  a.vesting_shares - (s.voters voter).delegated_vesting_shares +
    (s.voters voter).received_vesting_shares

/-- The power of a voter at the head block. -/
def currentPower (v : Voter) : ℤ :=
  min (v.voting_power + (STEEMIT_100_PERCENT * ((s.head_block_time : ℤ) - v.last_vote_time)).tdiv
    STEEMIT_VOTE_REGENERATION_SECONDS) STEEMIT_100_PERCENT

/-- The writes of a vote to the voter. -/
def spendPower (voter : AccountName) (current_power used_power : ℤ) : State :=
  { s with
    voters := Function.update s.voters voter { s.voters voter with
      voting_power := current_power - used_power
      last_vote_time := s.head_block_time } }

/-- The root of a discussion counts all votes in it. -/
def countAtRoot (root : CommentId) (abs_rshares : ℤ) : Result State := do
  let c ← s.get_comment root
  .ok (s.putComment root { c with children_abs_rshares := c.children_abs_rshares + abs_rshares })

/-- The weight of a vote that curation rewards are paid for, before the time of the vote counts. `c`
is the comment with the vote. -/
def voteWeight (c : Comment) (old_vote_rshares rshares : ℤ) : Result ℤ :=
  if c.created < STEEMIT_HARDFORK_0_6_REVERSE_AUCTION_TIME then
    .ok (rshares * rshares * rshares / (c.abs_rshares * c.abs_rshares) % 2 ^ 64)
  else do
    let fund ← s.get_reward_fund
    let curve := if !s.has_hardfork 19 && decide (STEEMIT_HF_19_SQRT_PRE_CALC < c.created) then
      .square_root else fund.curation_reward_curve
    let old_weight := evaluate_reward_curve old_vote_rshares curve fund.content_constant
    let new_weight := evaluate_reward_curve c.vote_rshares curve fund.content_constant
    check (old_weight < 2 ^ 64) .weight_too_large
    check (new_weight < 2 ^ 64) .weight_too_large
    .ok ((new_weight - old_weight) % 2 ^ 64)

/-- Early votes count less. -/
def discount (c : Comment) (max_vote_weight : ℤ) : ℤ :=
  if STEEMIT_HARDFORK_0_6_REVERSE_AUCTION_TIME < s.head_block_time then
    max_vote_weight * min ((s.head_block_time : ℤ) - c.created)
      STEEMIT_REVERSE_AUCTION_WINDOW_SECONDS / STEEMIT_REVERSE_AUCTION_WINDOW_SECONDS
  else max_vote_weight

/-- Whether the vote takes part in curation rewards. -/
def curationEligible (c : Comment) (rshares : ℤ) : Result Bool :=
  if decide (0 < rshares) && decide (c.last_payout = 0) && c.allow_curation_rewards then do
    let percent ← s.get_curation_rewards_percent
    .ok (decide (0 < percent))
  else .ok false

/-- The weight that a new vote adds to the comment, and its own one. -/
def newWeight (c : Comment) (old_vote_rshares rshares : ℤ) : Result (ℤ × ℤ) := do
  let eligible ← s.curationEligible c rshares
  if eligible then do
    let max_vote_weight ← s.voteWeight c old_vote_rshares rshares
    .ok (max_vote_weight, s.discount c max_vote_weight)
  else .ok (0, 0)

/-- Votes that increase the payout are not accepted shortly before it. -/
def mayIncrease (c : Comment) : Bool :=
  decide ((s.head_block_time : ℤ) < (c.cashout_time : ℤ) - STEEMIT_UPVOTE_LOCKOUT_HF17)

/-- The branch of `vote_evaluator` for a first vote. -/
def newVote (voter : AccountName) (id : CommentId) (c : Comment)
    (weight current_power used_power abs_rshares : ℤ) : Result State := do
  check (weight ≠ 0) .zero_weight
  let rshares := if weight < 0 then -abs_rshares else abs_rshares
  check (decide (rshares ≤ 0) || s.mayIncrease c) .payout_increase_locked
  let s := s.spendPower voter current_power used_power
  check (0 < abs_rshares) .zero_rshares
  let voted := c.addVote rshares abs_rshares
  let s ← (s.putComment id voted).countAtRoot c.root_comment abs_rshares
  let (max_vote_weight, vote_weight) ← s.newWeight voted c.vote_rshares rshares
  let s := s.putVote id voter
    { weight := vote_weight, rshares, vote_percent := weight, last_update := s.head_block_time }
  let c' ← s.get_comment id
  let s := s.putComment id
    { c' with total_vote_weight := (c'.total_vote_weight + max_vote_weight) % 2 ^ 64 }
  .ok (s.adjust_rshares2 (evaluate_reward_curve (max c.net_rshares 0))
    (evaluate_reward_curve (max voted.net_rshares 0)))

/-- The branch for a vote that is changed. The call of `adjust_rshares2` at its end is commented
out. -/
def changeVote (voter : AccountName) (id : CommentId) (c : Comment) (v : Vote)
    (weight current_power used_power abs_rshares : ℤ) : Result State := do
  check (v.num_changes < STEEMIT_MAX_VOTE_CHANGES) .too_many_changes
  check (v.vote_percent ≠ weight) .same_vote
  let rshares := if weight < 0 then -abs_rshares else abs_rshares
  check (decide (rshares ≤ v.rshares) || s.mayIncrease c) .payout_increase_locked
  let s := s.spendPower voter current_power used_power
  let voted := { c with
    net_rshares := c.net_rshares - v.rshares + rshares
    abs_rshares := c.abs_rshares + abs_rshares
    net_votes := c.net_votes + netVotesDelta v.rshares rshares }
  let s ← (s.putComment id voted).countAtRoot c.root_comment abs_rshares
  let c' ← s.get_comment id
  let s := s.putComment id
    { c' with total_vote_weight := (c'.total_vote_weight - v.weight) % 2 ^ 64 }
  .ok (s.putVote id voter
    { weight := 0
      rshares
      vote_percent := weight
      last_update := s.head_block_time
      num_changes := v.num_changes + 1 })

def vote (voter : AccountName) (id : CommentId) (weight : ℤ) : Result State := do
  check (|weight| ≤ STEEMIT_100_PERCENT) .invalid_percentage
  let c ← s.get_comment id
  let a ← withError .ledger (s.ledger.get_account voter)
  let v := s.voters voter
  check (!(v.owner_challenged || v.active_challenged)) .challenged
  check v.can_vote .voting_rights_declined
  check (decide (weight ≤ 0) || c.allow_votes) .votes_not_allowed
  -- `calculate_discussion_payout_time`
  if c.cashout_time = MAXIMUM_TIME then .ok s
  else do
    check (STEEMIT_MIN_VOTE_INTERVAL_SEC ≤ (s.head_block_time : ℤ) - v.last_vote_time)
      .too_soon
    let current_power := s.currentPower v
    check (0 < current_power) .no_voting_power
    let max_vote_denom :=
      s.vote_power_reserve_rate * STEEMIT_VOTE_REGENERATION_SECONDS / (60 * 60 * 24)
    check (0 < max_vote_denom) .no_vote_denominator
    let used_power := usedPower current_power |weight| max_vote_denom
    check (used_power ≤ current_power) .not_enough_power
    let abs_rshares ← withError .ledger
      (toShare (uint128 (s.effectiveShares voter a * used_power) / STEEMIT_100_PERCENT))
    check (decide (STEEMIT_VOTE_DUST_THRESHOLD < abs_rshares) || decide (weight = 0)) .dust
    match s.votes.find? (toLex (id, voter)) with
    | none => s.newVote voter id c weight current_power used_power abs_rshares
    | some w => do
      check (w.num_changes ≠ -1) .voted_before_payout
      s.changeVote voter id c w weight current_power used_power abs_rshares

/-! ## Comments -/

/-- A new comment; its weight comes from the bandwidth of its author. -/
def comment (author : AccountName) (reward_weight : ℤ) : Result State := do
  let _ ← withError .ledger (s.ledger.get_account author)
  check (0 ≤ reward_weight ∧ reward_weight ≤ STEEMIT_100_PERCENT) .invalid_percentage
  .ok { s.putComment s.next_comment
    { author
      created := s.head_block_time
      cashout_time := s.head_block_time + STEEMIT_CASHOUT_WINDOW_SECONDS
      reward_weight } with next_comment := s.next_comment + 1 }

/-- The visitor of the extension. -/
def addBeneficiaries (c : Comment) : Option (List (AccountName × ℤ)) → Result Comment
  | none => .ok c
  | some l => do
    check (validBeneficiaries l) .invalid_beneficiaries
    check (c.beneficiaries = []) .has_beneficiaries
    check (c.abs_rshares = 0) .shares_allocated
    check (l.all fun b => s.ledger.accounts.contains b.1) .unknown_beneficiary
    .ok { c with beneficiaries := l }

def comment_options (o : CommentOptions) : Result State := do
  check (0 ≤ o.percent_steem_dollars ∧ o.percent_steem_dollars ≤ STEEMIT_100_PERCENT)
    .invalid_percentage
  check (0 ≤ o.max_accepted_payout) .greater_payout
  let c ← s.get_comment id
  let v := s.voters c.author
  check (!(v.owner_challenged || v.active_challenged)) .challenged
  check ((o.allow_curation_rewards && o.allow_votes &&
    decide (c.max_accepted_payout ≤ o.max_accepted_payout)) || decide (c.abs_rshares = 0))
    .shares_allocated
  check (c.allow_curation_rewards || !o.allow_curation_rewards) .cannot_enable
  check (c.allow_votes || !o.allow_votes) .cannot_enable
  check (o.max_accepted_payout ≤ c.max_accepted_payout) .greater_payout
  check (o.percent_steem_dollars ≤ c.percent_steem_dollars) .greater_payout
  let c ← s.addBeneficiaries { c with
    max_accepted_payout := o.max_accepted_payout
    percent_steem_dollars := o.percent_steem_dollars
    allow_votes := o.allow_votes
    allow_curation_rewards := o.allow_curation_rewards } o.beneficiaries
  .ok (s.putComment id c)

/-- The keys of the votes on a comment. -/
def voteKeys : List (CommentId ×ₗ AccountName) :=
  s.votes.keys.filter fun k => decide ((ofLex k).1 = id)

def removeVotes : State :=
  { s with votes := (s.voteKeys id).foldl (fun m k => m.erase k) s.votes }

/-- No comment has replies or a parent. -/
def delete_comment : Result State := do
  let c ← s.get_comment id
  let v := s.voters c.author
  check (!(v.owner_challenged || v.active_challenged)) .challenged
  check (c.cashout_time ≠ MAXIMUM_TIME) .paid_out
  check (c.net_rshares ≤ 0) .positive_votes
  .ok { s.removeVotes id with comments := s.comments.erase id }

/-! ## Payout -/

/-- `is_comment_payout_dust`. -/
def is_comment_payout_dust (steem_payout : ℤ) : Result Bool := do
  let sbd ← withError .ledger (s.ledger.to_sbd steem_payout)
  .ok (decide (sbd < STEEMIT_MIN_PAYOUT_SBD))

def get_rshare_reward (ctx : Context) (c : Comment) : Result ℤ := do
  check (0 < c.net_rshares) .no_rshares
  check (0 < ctx.total_reward_shares2) .no_reward_shares
  let payout := ctx.total_reward_fund_steem * claimOf ctx c % 2 ^ 256 / ctx.total_reward_shares2
  check (payout < 2 ^ 63) .payout_too_large
  let dust ← s.is_comment_payout_dust payout
  let max_steem ← withError .ledger (s.ledger.to_steem c.max_accepted_payout)
  .ok (min (if dust then 0 else payout) (max_steem % 2 ^ 64))

/-- The votes on a comment in the order of `by_comment_weight_voter`. -/
def votesByWeight : List (AccountName × Vote) :=
  ((s.votes.rows.filter fun r => decide ((ofLex r.1).1 = id)).map
    fun r => ((ofLex r.1).2, r.2)).insertionSort fun a b =>
      b.2.weight < a.2.weight ∨
        (a.2.weight = b.2.weight ∧ (s.voters a.1).id ≤ (s.voters b.1).id)

/-- Whether rewards wait to be claimed. -/
def toRewardBalance : Bool := s.has_hardfork 17

/-- `create_vesting` on the balances of the state. -/
def create_vesting (to_account : AccountName) (steem : ℤ) : Result State := do
  let ledger ← withError .ledger (s.ledger.create_vesting to_account steem s.toRewardBalance)
  .ok { s with ledger }

/-- The loop of `pay_curators`: the rewards that are left, and the state. -/
def payVoters (max_rewards total_weight : ℤ) :
    List (AccountName × Vote) → ℤ × State → Result (ℤ × State)
  | [], r => .ok r
  | (voter, v) :: rest, (unclaimed, s) => do
    let claim ← withError .ledger (toShare (uint128 (max_rewards * v.weight) / total_weight))
    if 0 < claim then do
      let s ← s.create_vesting voter claim
      payVoters max_rewards total_weight rest (unclaimed - claim, s)
    else payVoters max_rewards total_weight rest (unclaimed, s)

/-- `pay_curators`: the unclaimed rewards and those that were paid. -/
def pay_curators (c : Comment) (max_rewards : ℤ) : Result ((ℤ × ℤ) × State) :=
  if !c.allow_curation_rewards then .ok ((0, 0), s)
  else if 0 < c.total_vote_weight then do
    let (unclaimed, s) ← payVoters max_rewards c.total_vote_weight (s.votesByWeight id)
      (max_rewards, s)
    .ok ((unclaimed, max_rewards - unclaimed), s)
  else .ok ((max_rewards, 0), s)

/-- The beneficiaries of a comment, and the sum that they get. -/
def payBeneficiaries (author_tokens : ℤ) :
    List (AccountName × ℤ) → ℤ × State → Result (ℤ × State)
  | [], r => .ok r
  | (account, weight) :: rest, (total, s) => do
    let product ← withError .ledger (safeMul author_tokens weight)
    let tokens := product.tdiv STEEMIT_100_PERCENT
    let s ← s.create_vesting account tokens
    payBeneficiaries author_tokens rest (total + tokens, s)

/-- The author is paid half in SBD, as far as they want it. -/
def payAuthor (c : Comment) (author_tokens : ℤ) : Result (ℤ × State) := do
  let product ← withError .ledger (safeMul author_tokens c.percent_steem_dollars)
  let sbd_steem := product.tdiv (2 * STEEMIT_100_PERCENT)
  let vesting_steem := author_tokens - sbd_steem
  let s ← s.create_vesting c.author vesting_steem
  let ((_, to_steem), ledger) ← withError .ledger
    (s.ledger.create_sbd c.author sbd_steem s.toRewardBalance)
  .ok (to_steem + vesting_steem, { s with ledger })

/-- The tokens of a payout are distributed; returns the claimed reward. -/
def payReward (c : Comment) (reward_tokens : ℤ) : Result (ℤ × State) := do
  let percent ← s.get_curation_rewards_percent
  let curation_tokens ← withError .ledger
    (toShare (uint128 (reward_tokens * percent) / STEEMIT_100_PERCENT))
  let ((unclaimed, curation_paid), s) ← s.pay_curators id c curation_tokens
  let author_tokens := reward_tokens - curation_tokens + unclaimed
  let claimed_reward := author_tokens + curation_paid
  let (total_beneficiary, s) ← payBeneficiaries author_tokens c.beneficiaries (0, s)
  let (author_steem, s) ← s.payAuthor c (author_tokens - total_beneficiary)
  -- the totals in SBD, only to display
  let _ ← withError .ledger (s.ledger.to_sbd author_steem)
  let _ ← withError .ledger (s.ledger.to_sbd curation_paid)
  let _ ← withError .ledger (s.ledger.to_sbd total_beneficiary)
  let _ ← withError .ledger (s.ledger.to_sbd claimed_reward)
  .ok (claimed_reward, s)

/-- When a comment is paid out again. -/
def nextCashout (c : Comment) : ℕ :=
  if s.has_hardfork 17 then MAXIMUM_TIME
  else if s.has_hardfork 12 && decide (c.last_payout = 0) then
    s.head_block_time + STEEMIT_SECOND_CASHOUT_WINDOW
  else MAXIMUM_TIME

/-- The comment after a payout. -/
def settled (c : Comment) : Comment :=
  { c with
    net_rshares := min c.net_rshares 0
    children_abs_rshares := 0
    abs_rshares := 0
    vote_rshares := 0
    total_vote_weight := 0
    max_cashout_time := MAXIMUM_TIME
    cashout_time := s.nextCashout c
    last_payout := s.head_block_time }

/-- The votes after a payout: they cannot be changed, and go with the last payout. -/
def settleVotes (cashout_time : ℕ) : State :=
  if !s.has_hardfork 12 || decide (cashout_time ≠ MAXIMUM_TIME) then
    { s with votes := (s.voteKeys id).foldl (fun m k =>
        match m.find? k with
        | some v => m.insert k { v with num_changes := -1 }
        | none => m) s.votes }
  else s.removeVotes id

/-- From hardfork 17 on the fund says which curve is used. -/
def fundContext (ctx : Context) : Result Context :=
  if s.has_hardfork 17 then do
    let fund ← s.get_reward_fund
    .ok { ctx with
      reward_curve := fund.author_reward_curve, content_constant := fund.content_constant }
  else .ok ctx

/-- The rewards of a comment with a positive number of shares. -/
def payTokens (c : Comment) (reward : ℤ) : Result (ℤ × State) :=
  if 0 < reward then s.payReward id c reward else .ok (0, s)

/-- Before hardfork 17 the shares that are paid leave the total. -/
def payRewards (ctx : Context) (id : CommentId) (c : Comment) : Result (ℤ × State) :=
  if 0 < c.net_rshares then do
    let ctx ← s.fundContext ctx
    let reward ← s.get_rshare_reward ctx c
    let (claimed, s) ← s.payTokens id c reward
    if s.has_hardfork 17 then .ok (claimed, s)
    else .ok (claimed, s.adjust_rshares2 (evaluate_reward_curve c.net_rshares) 0)
  else .ok (0, s)

/-- Returns the claimed reward. -/
def cashout_comment_helper (ctx : Context) (id : CommentId) (c : Comment) : Result (ℤ × State) := do
  let (claimed, s) ← s.payRewards ctx id c
  .ok (claimed, (s.putComment id (s.settled c)).settleVotes id (s.nextCashout c))

/-- The first row of `by_cashout_time`. -/
def firstCashout : Option (CommentId × Comment) :=
  s.comments.rows.foldl (fun best r =>
    match best with
    | none => some r
    | some b => if r.2.cashout_time < b.2.cashout_time then some r else best) none

/-- Before hardfork 17 a whole discussion is paid, from the global total. -/
def payDiscussion : List CommentId → State → Result State
  | [], s => .ok s
  | id :: rest, s => do
    let c ← s.get_comment id
    let (reward, s) ← s.cashout_comment_helper
      { total_reward_shares2 := s.total_reward_shares2
        total_reward_fund_steem := s.ledger.total_reward_fund_steem } id c
    payDiscussion rest
      (if 0 < reward then { s with ledger := { s.ledger with
          total_reward_fund_steem := s.ledger.total_reward_fund_steem - reward } }
        else s)

/-- The comments of one discussion, in the order of `by_root`. -/
def discussion (root : CommentId) : List CommentId :=
  (s.comments.rows.filter fun r => decide (r.2.root_comment = root)).map Prod.fst

/-- The main loop of `process_comment_cashout`, with the fund as it was before the payouts and the
sum of the rewards so far. -/
def payDue (fund : Option RewardFund) : ℕ → ℤ × State → Result (ℤ × State)
  | 0, _ => .error .endless_loop
  | fuel + 1, (awarded, s) =>
    match s.firstCashout with
    | none => .ok (awarded, s)
    | some (id, c) =>
      if c.cashout_time ≤ s.head_block_time then
        if s.has_hardfork 17 then
          match fund with
          | none => .error .unknown_fund
          | some f => do
            let (reward, s) ← s.cashout_comment_helper
              { total_reward_shares2 := f.recent_claims
                total_reward_fund_steem := f.reward_balance } id c
            payDue fund fuel (awarded + reward, s)
        else do
          let s ← payDiscussion (s.discussion c.root_comment) s
          payDue fund fuel (awarded, s)
      else .ok (awarded, s)

/-- The seconds of the decay at the hardfork of the state. -/
def decayRate : ℤ :=
  if s.has_hardfork 19 then STEEMIT_RECENT_RSHARES_DECAY_RATE_HF19
  else STEEMIT_RECENT_RSHARES_DECAY_RATE_HF17

/-- `recent_claims` decays. -/
def decayed (f : RewardFund) : RewardFund :=
  { f with
    recent_claims := uint128 (f.recent_claims -
      uint128 (f.recent_claims * ((s.head_block_time : ℤ) - f.last_update)) / s.decayRate)
    last_update := s.head_block_time }

/-- The claims of the comments that are due. -/
def dueClaims (f : RewardFund) : ℤ :=
  ((s.comments.rows.filter fun r =>
    decide (r.2.cashout_time ≤ s.head_block_time) && decide (0 < r.2.net_rshares)).map fun r =>
      evaluate_reward_curve r.2.net_rshares f.author_reward_curve f.content_constant).sum

/-- The cached fund is written back. -/
def writeFund (awarded : ℤ) (f : RewardFund) : State :=
  { s with ledger := { s.ledger with
      post_fund := s.ledger.post_fund.map fun g =>
        { g with
          recent_claims := f.recent_claims
          reward_balance := g.reward_balance - awarded } } }

/-- A round of the loop pays at least one comment, and no comment is due again. -/
def process_comment_cashout : Result State :=
  if !s.has_hardfork 7 then .ok s
  else
    match s.ledger.post_fund with
    | none => do
      let (_, s) ← payDue none (s.comments.rows.length + 1) (0, s)
      .ok s
    | some f => do
      let f := s.decayed f
      let s := { s with ledger := { s.ledger with post_fund := some f } }
      let f := if s.has_hardfork 17 then
        { f with recent_claims := uint128 (f.recent_claims + s.dueClaims f) } else f
      let (awarded, s) ← payDue (some f) (s.comments.rows.length + 1) (0, s)
      .ok (s.writeFund awarded f)

/-! ## Hardforks -/

/-- `perform_vesting_share_split`. -/
def perform_vesting_share_split (magnitude : ℤ) : State :=
  let comments : OrdMap CommentId Comment := s.comments.mapValues fun c =>
    { c with
      net_rshares := c.net_rshares * magnitude
      abs_rshares := c.abs_rshares * magnitude
      vote_rshares := c.vote_rshares * magnitude }
  let accounts := s.ledger.accounts.mapValues fun a =>
    { a with vesting_shares := a.vesting_shares * magnitude }
  let s := { s with
    ledger := { s.ledger with
      accounts, total_vesting_shares := s.ledger.total_vesting_shares * magnitude }
    comments
    total_reward_shares2 := 0 }
  comments.rows.foldl (fun s r =>
    if 0 < r.2.net_rshares then s.adjust_rshares2 0 (evaluate_reward_curve r.2.net_rshares)
    else s) s

/-- The cashout times at hardfork 12. -/
def cashoutAtHardfork12 (c : Comment) : Comment :=
  if c.last_payout = 0 ∧ c.cashout_time = MAXIMUM_TIME then
    { c with cashout_time := s.head_block_time + STEEMIT_CASHOUT_WINDOW_SECONDS_PRE_HF17 }
  else if 0 < c.last_payout then
    { c with cashout_time := c.last_payout + STEEMIT_SECOND_CASHOUT_WINDOW }
  else c

/-- The fund that hardfork 17 creates. -/
def newFund : RewardFund where
  reward_balance := s.ledger.total_reward_fund_steem
  recent_claims := STEEMIT_HF_17_RECENT_CLAIMS
  last_update := s.head_block_time
  content_constant := STEEMIT_CONTENT_CONSTANT_HF0
  percent_curation_rewards := STEEMIT_1_PERCENT * 25
  percent_content_rewards := STEEMIT_100_PERCENT
  author_reward_curve := .quadratic
  curation_reward_curve := .quadratic_curation

/-- What `apply_hardfork` does to comments and rewards. -/
def hardforkEffect (hardfork : ℕ) : Result State :=
  if hardfork = 1 then .ok (s.perform_vesting_share_split 1000000)
  else if hardfork = 12 then
    .ok { s with comments := s.comments.mapValues s.cashoutAtHardfork12 }
  else if hardfork = 17 then
    .ok { s with
      ledger := { s.ledger with
        post_fund := some s.newFund, total_reward_fund_steem := 0 }
      total_reward_shares2 := 0
      comments := s.comments.mapValues cashoutAtHardfork17 }
  else if hardfork = 19 then do
    let f ← s.get_reward_fund
    .ok { s with
      ledger := { s.ledger with
        post_fund := some { f with
          recent_claims := STEEMIT_HF_19_RECENT_CLAIMS
          author_reward_curve := .linear
          curation_reward_curve := .square_root } }
      vote_power_reserve_rate := 10 }
  else .ok s

/-- What a hardfork leaves alone: no comment is new and each keeps its weight, the fund of hardfork 17
stays as it gives to curators, and of the chain's numbers only the vesting shares and the funds
change. -/
structure HardforkKept (s s' : State) : Prop where
  find : ∀ id c', s'.comments.find? id = some c' →
    ∃ c, s.comments.find? id = some c ∧ c'.reward_weight = c.reward_weight
  next_comment : s'.next_comment = s.next_comment
  ledger : s'.ledger = { s.ledger with
    accounts := s'.ledger.accounts
    total_vesting_shares := s'.ledger.total_vesting_shares
    total_reward_fund_steem := s'.ledger.total_reward_fund_steem
    post_fund := s'.ledger.post_fund }
  percent : ∀ f, s'.ledger.post_fund = some f →
    f.percent_curation_rewards = STEEMIT_1_PERCENT * 25 ∨
      ∃ g, s.ledger.post_fund = some g ∧ f.percent_curation_rewards = g.percent_curation_rewards

/-- A change of all comments that leaves their weights alone. -/
theorem weight_of_mapValues {m : OrdMap CommentId Comment} {g : Comment → Comment}
    (hg : ∀ c, (g c).reward_weight = c.reward_weight) (id : CommentId) (c' : Comment)
    (h : (m.mapValues g).find? id = some c') :
    ∃ c, m.find? id = some c ∧ c'.reward_weight = c.reward_weight := by
  rw [OrdMap.find?_mapValues] at h
  obtain ⟨c, hc, rfl⟩ := Option.map_eq_some_iff.1 h
  exact ⟨c, hc, hg c⟩

variable {s} {s' : State}

theorem hardforkEffect_kept {n : ℕ} (h : s.hardforkEffect n = .ok s') : HardforkKept s s' := by
  unfold hardforkEffect at h
  split at h
  · cases h
    -- the loop over the comments only changes the total of the shares
    refine List.foldlRecOn _ _ (motive := HardforkKept s) ?_ fun t ht r _ => ?_
    · exact ⟨weight_of_mapValues fun _ => rfl, rfl, rfl, fun f hf => .inr ⟨f, hf, rfl⟩⟩
    · split
      · exact ⟨ht.find, ht.next_comment, ht.ledger, ht.percent⟩
      · exact ht
  split at h
  · cases h
    refine ⟨weight_of_mapValues fun c => ?_, rfl, rfl, fun f hf => .inr ⟨f, hf, rfl⟩⟩
    unfold cashoutAtHardfork12
    split
    · rfl
    · split <;> rfl
  split at h
  · cases h
    refine ⟨weight_of_mapValues fun c => ?_, rfl, rfl, fun f hf => .inl ?_⟩
    · unfold cashoutAtHardfork17
      split <;> rfl
    · cases hf
      rfl
  split at h
  · obtain ⟨f, hf, h⟩ := bind_ok.1 h
    cases h
    refine ⟨fun _ c hc => ⟨c, hc, rfl⟩, rfl, rfl, fun g hg => .inr ⟨f, ?_, ?_⟩⟩
    · unfold get_reward_fund at hf
      split at hf
      · cases hf
        assumption
      · cases hf
    · cases hg
      rfl
  · cases h
    exact ⟨fun _ c hc => ⟨c, hc, rfl⟩, rfl, rfl, fun f hf => .inr ⟨f, hf, rfl⟩⟩

variable (s)

/-- The next hardfork is applied. -/
def apply_hardfork : Result State := do
  check (s.ledger.last_hardfork < STEEMIT_NUM_HARDFORKS) .unknown_hardfork
  let s ← s.hardforkEffect (s.ledger.last_hardfork + 1)
  .ok { s with ledger := { s.ledger with last_hardfork := s.ledger.last_hardfork + 1 } }

end State

/-! ## Runs -/

inductive Call where
  | comment (author : AccountName) (reward_weight : ℤ)
  | comment_options (id : CommentId) (o : CommentOptions)
  | delete_comment (id : CommentId)
  | vote (voter : AccountName) (id : CommentId) (weight : ℤ)
  /-- One payout, as a step of its own. -/
  | cashout (ctx : Context) (id : CommentId)
  | process_comment_cashout
  | apply_hardfork
  /-- Everything else that happens to the balances. -/
  | balances (ledger : Ledger.State)
  /-- Everything else that happens to a voter. -/
  | voter (name : AccountName) (v : Voter)
  | time (time : ℕ)

def Call.apply (s : State) : Call → Result State
  | comment author reward_weight => s.comment author reward_weight
  | comment_options id o => s.comment_options id o
  | delete_comment id => s.delete_comment id
  | vote name id weight => s.vote name id weight
  | cashout ctx id => do
    let c ← s.get_comment id
    Prod.snd <$> s.cashout_comment_helper ctx id c
  | process_comment_cashout => s.process_comment_cashout
  | apply_hardfork => s.apply_hardfork
  | balances l => .ok { s with
      ledger := { l with
        last_hardfork := s.ledger.last_hardfork
        time := s.ledger.time
        post_fund := s.ledger.post_fund } }
  | voter name v => .ok { s with voters := Function.update s.voters name v }
  | time t => .ok { s with ledger := { s.ledger with time := t } }

def run (s : State) (calls : List Call) : State := runCalls Call.apply s calls

/-- Before the first comment. -/
def genesis (ledger : Ledger.State) (voters : AccountName → Voter) : State := { ledger, voters }

end Calibrd.Chain.Rewards
