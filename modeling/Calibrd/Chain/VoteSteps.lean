import Calibrd.Chain.Rewards
import Calibrd.Lib.TokenBucket

/-!
# What a vote does

`vote_eq_ok` says when `vote` is accepted and with which result, in both directions. A vote that
counts writes to the voter, to the table of votes and to its comment (`Voted`); the root of the
discussion counts it as well, which `Comment.tally` leaves out.
-/

namespace Calibrd.Chain.Rewards

open Calibrd.Lib Calibrd.Protocol
open Calibrd.Chain.Ledger (toShare)

/-- A comment apart from what its discussion counts. -/
def Comment.tally (c : Comment) : Comment := { c with children_abs_rshares := 0 }

theorem Comment.eq_of_tally {c d : Comment} (h : d.tally = c.tally) :
    d = { c with children_abs_rshares := d.children_abs_rshares } := by
  unfold Comment.tally at h
  rw [Comment.mk.injEq] at h
  cases d
  cases c
  simp_all

namespace State

variable {s s' t : State} {voter : AccountName} {id root : CommentId} {c d : Comment}
  {weight current_power used_power abs_rshares power : ℤ}

/-! ## When a vote is accepted -/

/-- The largest number of full votes that use the whole power. -/
def maxVoteDenom (s : State) : ℤ :=
  s.vote_power_reserve_rate * STEEMIT_VOTE_REGENERATION_SECONDS / (60 * 60 * 24)

/-- The power that a vote of the weight would use now. -/
def votePower (s : State) (voter : AccountName) (weight : ℤ) : ℤ :=
  usedPower (s.currentPower (s.voters voter)) |weight| s.maxVoteDenom

/-- What `vote` requires of the account. -/
@[mk_iff]
structure Entitled (s : State) (voter : AccountName) (weight : ℤ) (c : Comment) : Prop where
  percentage : |weight| ≤ STEEMIT_100_PERCENT
  unchallenged : ((s.voters voter).owner_challenged || (s.voters voter).active_challenged) = false
  can_vote : (s.voters voter).can_vote = true
  allow_votes : weight ≤ 0 ∨ c.allow_votes = true

/-- What `vote` requires of the power of the account, which makes `abs_rshares`. -/
@[mk_iff]
structure Powered (s : State) (voter : AccountName) (weight : ℤ) (a : Ledger.Account)
    (abs_rshares : ℤ) : Prop where
  interval : STEEMIT_MIN_VOTE_INTERVAL_SEC ≤ (s.head_block_time : ℤ) - (s.voters voter).last_vote_time
  current_pos : 0 < s.currentPower (s.voters voter)
  denom_pos : 0 < s.maxVoteDenom
  used_le : s.votePower voter weight ≤ s.currentPower (s.voters voter)
  rshares : toShare (uint128 (s.effectiveShares voter a * s.votePower voter weight) /
    STEEMIT_100_PERCENT) = .ok abs_rshares
  dust : STEEMIT_VOTE_DUST_THRESHOLD < abs_rshares ∨ weight = 0

instance (s : State) (voter : AccountName) (weight : ℤ) (c : Comment) :
    Decidable (s.Entitled voter weight c) :=
  decidable_of_iff _ (entitled_iff ..).symm

instance (s : State) (voter : AccountName) (weight : ℤ) (a : Ledger.Account) (abs_rshares : ℤ) :
    Decidable (s.Powered voter weight a abs_rshares) :=
  decidable_of_iff _ (powered_iff ..).symm

/-- The shares that a vote of the weight is worth now. -/
def voteShares (s : State) (voter : AccountName) (weight : ℤ) (a : Ledger.Account) : ℤ :=
  int64 (uint128 (s.effectiveShares voter a * s.votePower voter weight) / STEEMIT_100_PERCENT)

theorem Powered.eq_voteShares {a : Ledger.Account} (h : s.Powered voter weight a abs_rshares) :
    abs_rshares = s.voteShares voter weight a :=
  (Except.ok.inj (check_decide_ok.1 h.rshares).2).symm

/-- The last step of `vote`: a first vote, or a changed one. -/
def castVote (s : State) (voter : AccountName) (id : CommentId) (c : Comment)
    (weight abs_rshares : ℤ) : Result State :=
  match s.votes.find? (toLex (id, voter)) with
  | none => s.newVote voter id c weight (s.currentPower (s.voters voter)) (s.votePower voter weight)
      abs_rshares
  | some w => do
    check (w.num_changes ≠ -1) .voted_before_payout
    s.changeVote voter id c w weight (s.currentPower (s.voters voter)) (s.votePower voter weight)
      abs_rshares

theorem get_comment_eq_ok : s.get_comment id = .ok c ↔ s.comments.find? id = some c := by
  unfold get_comment
  cases s.comments.find? id with
  | none => exact ⟨nofun, nofun⟩
  | some d => exact ⟨fun h => congrArg some (Except.ok.inj h), fun h => congrArg _ (Option.some.inj h)⟩

theorem vote_eq_ok : s.vote voter id weight = .ok s' ↔
    ∃ c a, s.comments.find? id = some c ∧ s.ledger.get_account voter = .ok a ∧
      s.Entitled voter weight c ∧
      ((c.cashout_time = MAXIMUM_TIME ∧ s' = s) ∨
        (c.cashout_time ≠ MAXIMUM_TIME ∧ ∃ abs_rshares, s.Powered voter weight a abs_rshares ∧
          s.castVote voter id c weight abs_rshares = .ok s')) := by
  constructor
  · intro h
    obtain ⟨hpercentage, h⟩ := check_decide_ok.1 h
    obtain ⟨c, hc, h⟩ := bind_ok.1 h
    obtain ⟨a, ha, h⟩ := bind_ok.1 h
    obtain ⟨hchallenged, h⟩ := check_bind_ok.1 h
    obtain ⟨hcan, h⟩ := check_bind_ok.1 h
    obtain ⟨hallow, h⟩ := check_bind_ok.1 h
    refine ⟨c, a, get_comment_eq_ok.1 hc, withError_eq_ok.1 ha,
      ⟨hpercentage, by simpa using hchallenged, hcan, by simpa using hallow⟩, ?_⟩
    split at h
    · next hpaid => exact .inl ⟨hpaid, (Except.ok.inj h).symm⟩
    · next hpaid =>
      obtain ⟨hinterval, h⟩ := check_decide_ok.1 h
      obtain ⟨hcurrent, h⟩ := check_decide_ok.1 h
      obtain ⟨hdenom, h⟩ := check_decide_ok.1 h
      obtain ⟨hused, h⟩ := check_decide_ok.1 h
      obtain ⟨abs_rshares, hrshares, h⟩ := bind_ok.1 h
      obtain ⟨hdust, h⟩ := check_bind_ok.1 h
      exact .inr ⟨hpaid, abs_rshares,
        ⟨hinterval, hcurrent, hdenom,
          hused, withError_eq_ok.1 hrshares, by simpa using hdust⟩, h⟩
  · rintro ⟨c, a, hc, ha, hentitled, h⟩
    refine check_bind_ok.2 ⟨decide_eq_true hentitled.percentage, ?_⟩
    refine bind_ok.2 ⟨c, get_comment_eq_ok.2 hc, ?_⟩
    refine bind_ok.2 ⟨a, withError_eq_ok.2 ha, ?_⟩
    refine check_bind_ok.2 ⟨by simp [hentitled.unchallenged], ?_⟩
    refine check_bind_ok.2 ⟨hentitled.can_vote, ?_⟩
    refine check_bind_ok.2 ⟨by simpa using hentitled.allow_votes, ?_⟩
    obtain ⟨hpaid, rfl⟩ | ⟨hpaid, abs_rshares, hpower, h⟩ := h
    · exact if_pos hpaid
    · rw [if_neg hpaid]
      refine check_bind_ok.2 ⟨decide_eq_true hpower.interval, ?_⟩
      refine check_bind_ok.2 ⟨decide_eq_true hpower.current_pos, ?_⟩
      refine check_bind_ok.2 ⟨decide_eq_true hpower.denom_pos, ?_⟩
      refine check_bind_ok.2 ⟨decide_eq_true hpower.used_le, ?_⟩
      refine bind_ok.2 ⟨abs_rshares, withError_eq_ok.2 hpower.rshares, ?_⟩
      exact check_bind_ok.2 ⟨by simpa using hpower.dust, h⟩

/-! ## What it writes -/

/-- A vote that counts leaves the voter with `power`, and writes `c` and `v` to the tables. -/
structure Voted (s s' : State) (voter : AccountName) (id : CommentId) (power : ℤ) (c : Comment)
    (v : Vote) : Prop where
  ledger : s'.ledger = s.ledger
  voters : s'.voters = Function.update s.voters voter { s.voters voter with
    voting_power := power, last_vote_time := s.head_block_time }
  comments : ∀ j, (s'.comments.find? j).map Comment.tally =
    if j = id then some c.tally else (s.comments.find? j).map Comment.tally
  votes : s'.votes = s.votes.insert (toLex (id, voter)) v
  next_comment : s'.next_comment = s.next_comment
  vote_power_reserve_rate : s'.vote_power_reserve_rate = s.vote_power_reserve_rate

variable {v : Vote}

/-- Up to what discussions count, the comment with the vote is the only one that changes. -/
theorem Voted.find {j : CommentId} (h : Voted s s' voter id power c v)
    (hj : s'.comments.find? j = some d) :
    (j = id ∧ d.tally = c.tally) ∨
      ∃ e, j ≠ id ∧ s.comments.find? j = some e ∧ d.tally = e.tally := by
  have hcomment := h.comments j
  rw [hj] at hcomment
  split at hcomment
  · next hid => exact .inl ⟨hid, Option.some.inj hcomment⟩
  · next hid =>
    obtain ⟨e, he, htally⟩ := Option.map_eq_some_iff.1 hcomment.symm
    exact .inr ⟨e, hid, he, htally.symm⟩

/-- The shares of a vote with its direction. -/
def signed (weight abs_rshares : ℤ) : ℤ := if weight < 0 then -abs_rshares else abs_rshares

theorem countAtRoot_eq_ok : s.countAtRoot root abs_rshares = .ok t ↔
    ∃ d, s.comments.find? root = some d ∧ t = s.putComment root
      { d with children_abs_rshares := d.children_abs_rshares + abs_rshares } := by
  unfold countAtRoot
  rw [bind_ok]
  constructor
  · rintro ⟨d, hd, h⟩
    exact ⟨d, get_comment_eq_ok.1 hd, (Except.ok.inj h).symm⟩
  · rintro ⟨d, hd, rfl⟩
    exact ⟨d, get_comment_eq_ok.2 hd, rfl⟩

theorem tally_putComment (s : State) (id : CommentId) (c : Comment) (j : CommentId) :
    ((s.putComment id c).comments.find? j).map Comment.tally =
      if j = id then some c.tally else (s.comments.find? j).map Comment.tally := by
  simp only [putComment, OrdMap.find?_insert, eq_comm (a := id)]
  split <;> rfl

theorem tally_countAtRoot (h : s.countAtRoot root abs_rshares = .ok t) (j : CommentId) :
    (t.comments.find? j).map Comment.tally = (s.comments.find? j).map Comment.tally := by
  obtain ⟨d, hd, rfl⟩ := countAtRoot_eq_ok.1 h
  rw [tally_putComment]
  split
  · next hj =>
    rw [hj, hd]
    rfl
  · rfl

/-- The comment as it is found again after the root has counted the vote. -/
theorem get_comment_countAtRoot (h : (s.putComment id c).countAtRoot root abs_rshares = .ok t)
    (hd : t.get_comment id = .ok d) :
    d = { c with children_abs_rshares := d.children_abs_rshares } := by
  have htally := tally_countAtRoot h id
  rw [tally_putComment, if_pos rfl, get_comment_eq_ok.1 hd] at htally
  exact Comment.eq_of_tally (Option.some.inj htally)

theorem countAtRoot_rest
    (h : ((s.spendPower voter current_power used_power).putComment id c).countAtRoot root
      abs_rshares = .ok t) :
    t.ledger = s.ledger ∧ t.head_block_time = s.head_block_time ∧
      t.total_reward_shares2 = s.total_reward_shares2 := by
  obtain ⟨e, -, rfl⟩ := countAtRoot_eq_ok.1 h
  exact ⟨rfl, rfl, rfl⟩

theorem newWeight_congr (h : t.ledger = s.ledger) : t.newWeight = s.newWeight := by
  unfold newWeight curationEligible voteWeight discount get_curation_rewards_percent
    get_reward_fund has_hardfork head_block_time
  rw [h]

/-- Both kinds of votes: the comment is written, the root counts, and the weight is written. -/
theorem Voted.of_writes {voted : Comment} {total : ℤ}
    (ht : ((s.spendPower voter current_power used_power).putComment id voted).countAtRoot root
      abs_rshares = .ok t) (hd : t.get_comment id = .ok d) (hledger : s'.ledger = t.ledger)
    (hvoters : s'.voters = t.voters)
    (hcomments : s'.comments = t.comments.insert id { d with total_vote_weight := total })
    (hvotes : s'.votes = t.votes.insert (toLex (id, voter)) v)
    (hnext : s'.next_comment = t.next_comment)
    (hrate : s'.vote_power_reserve_rate = t.vote_power_reserve_rate) :
    Voted s s' voter id (current_power - used_power) { voted with total_vote_weight := total } v := by
  have hd' := get_comment_countAtRoot ht hd
  have htally := tally_countAtRoot ht
  obtain ⟨e, -, rfl⟩ := countAtRoot_eq_ok.1 ht
  refine ⟨hledger, hvoters, fun j => ?_, hvotes, hnext, hrate⟩
  rw [hcomments, hd']
  refine (tally_putComment _ id _ j).trans ?_
  by_cases hj : j = id
  · rw [if_pos hj, if_pos hj]
    rfl
  · rw [if_neg hj, if_neg hj, htally j, tally_putComment, if_neg hj]
    rfl

theorem newVote_voted (h : s.newVote voter id c weight current_power used_power abs_rshares = .ok s') :
    weight ≠ 0 ∧ (signed weight abs_rshares ≤ 0 ∨ s.mayIncrease c = true) ∧ 0 < abs_rshares ∧
      ∃ max_vote_weight vote_weight,
        s.newWeight (c.addVote (signed weight abs_rshares) abs_rshares) c.vote_rshares
          (signed weight abs_rshares) = .ok (max_vote_weight, vote_weight) ∧
        Voted s s' voter id (current_power - used_power)
          { c.addVote (signed weight abs_rshares) abs_rshares with
            total_vote_weight := (c.total_vote_weight + max_vote_weight) % 2 ^ 64 }
          { weight := vote_weight
            rshares := signed weight abs_rshares
            vote_percent := weight
            last_update := s.head_block_time } ∧
        s'.total_reward_shares2 = uint128 (uint128 (s.total_reward_shares2 -
          evaluate_reward_curve (max c.net_rshares 0)) + evaluate_reward_curve
            (max (c.addVote (signed weight abs_rshares) abs_rshares).net_rshares 0)) := by
  simp only [State.newVote, bind_ok, exists_check_eq_ok] at h
  obtain ⟨hweight, hlock, hpos, t, ht, ⟨max_vote_weight, vote_weight⟩, hweights, d, hd, h⟩ := h
  have hd' := get_comment_countAtRoot ht hd
  have htotal : d.total_vote_weight = c.total_vote_weight := by
    rw [hd']
    rfl
  obtain ⟨hledger, htime, hshares2⟩ := countAtRoot_rest ht
  cases h
  refine ⟨of_decide_eq_true hweight, by simpa [signed] using hlock, of_decide_eq_true hpos,
    max_vote_weight, vote_weight, newWeight_congr hledger ▸ hweights, ?_, ?_⟩
  · refine Voted.of_writes ht hd rfl rfl ?_ ?_ rfl rfl
    · rw [← htotal]
      rfl
    · rw [← htime]
      rfl
  · rw [← hshares2]
    rfl

theorem changeVote_voted
    (h : s.changeVote voter id c v weight current_power used_power abs_rshares = .ok s') :
    v.num_changes < STEEMIT_MAX_VOTE_CHANGES ∧ v.vote_percent ≠ weight ∧
      (signed weight abs_rshares ≤ v.rshares ∨ s.mayIncrease c = true) ∧
      Voted s s' voter id (current_power - used_power)
        { c with
          net_rshares := c.net_rshares - v.rshares + signed weight abs_rshares
          abs_rshares := c.abs_rshares + abs_rshares
          net_votes := c.net_votes + netVotesDelta v.rshares (signed weight abs_rshares)
          total_vote_weight := (c.total_vote_weight - v.weight) % 2 ^ 64 }
        { weight := 0
          rshares := signed weight abs_rshares
          vote_percent := weight
          last_update := s.head_block_time
          num_changes := v.num_changes + 1 } ∧
      s'.total_reward_shares2 = s.total_reward_shares2 := by
  simp only [State.changeVote, bind_ok, exists_check_eq_ok] at h
  obtain ⟨hchanges, hpercent, hlock, t, ht, d, hd, h⟩ := h
  have hd' := get_comment_countAtRoot ht hd
  have htotal : d.total_vote_weight = c.total_vote_weight := by rw [hd']
  obtain ⟨-, htime, hshares2⟩ := countAtRoot_rest ht
  cases h
  refine ⟨of_decide_eq_true hchanges, of_decide_eq_true hpercent, by simpa [signed] using hlock, ?_, ?_⟩
  · refine Voted.of_writes ht hd rfl rfl ?_ ?_ rfl rfl
    · rw [← htotal]
      rfl
    · rw [← htime]
      rfl
  · exact hshares2

theorem castVote_cases (h : s.castVote voter id c weight abs_rshares = .ok s') :
    (s.votes.find? (toLex (id, voter)) = none ∧
        s.newVote voter id c weight (s.currentPower (s.voters voter)) (s.votePower voter weight)
          abs_rshares = .ok s') ∨
      ∃ v, s.votes.find? (toLex (id, voter)) = some v ∧ v.num_changes ≠ -1 ∧
        s.changeVote voter id c v weight (s.currentPower (s.voters voter)) (s.votePower voter weight)
          abs_rshares = .ok s' := by
  unfold castVote at h
  split at h
  · next hnone => exact .inl ⟨hnone, h⟩
  · next v hv =>
    obtain ⟨hchanges, h⟩ := check_decide_ok.1 h
    exact .inr ⟨v, hv, hchanges, h⟩

/-- A vote on a comment that is not paid out uses power and is written. Only the counts of the comment
change. -/
theorem vote_voted (h : s.vote voter id weight = .ok s') :
    ∃ c a, s.comments.find? id = some c ∧ s.ledger.get_account voter = .ok a ∧
      ((c.cashout_time = MAXIMUM_TIME ∧ s' = s) ∨
        (c.cashout_time ≠ MAXIMUM_TIME ∧ (∃ abs_rshares, s.Powered voter weight a abs_rshares) ∧
          ∃ c' v, c' = { c with
              net_rshares := c'.net_rshares
              abs_rshares := c'.abs_rshares
              vote_rshares := c'.vote_rshares
              net_votes := c'.net_votes
              total_vote_weight := c'.total_vote_weight } ∧
            Voted s s' voter id
              (s.currentPower (s.voters voter) - s.votePower voter weight) c' v)) := by
  obtain ⟨c, a, hc, ha, -, ⟨hpaid, hsame⟩ | ⟨hpaid, abs_rshares, hpower, hcast⟩⟩ := vote_eq_ok.1 h
  · exact ⟨c, a, hc, ha, .inl ⟨hpaid, hsame⟩⟩
  · refine ⟨c, a, hc, ha, .inr ⟨hpaid, ⟨abs_rshares, hpower⟩, ?_⟩⟩
    obtain ⟨-, hnew⟩ | ⟨v, -, -, hchange⟩ := castVote_cases hcast
    · obtain ⟨-, -, -, _, _, -, hvoted, -⟩ := newVote_voted hnew
      refine ⟨_, _, ?_, hvoted⟩
      rfl
    · obtain ⟨-, -, -, hvoted, -⟩ := changeVote_voted hchange
      refine ⟨_, _, ?_, hvoted⟩
      rfl

end State

/-! ## The budget of voting power

The power of an account is a bucket that refills within five days, and votes take from it. So the
votes of an account in an interval use at most the whole power and what the interval refills, in
whatever way they are cast (`run_power_budget`).

The rest of the chain is one kind of step: it may change everything, except that it leaves the power
of the accounts alone, keeps all accounts and gives new ones the whole power. Only `vote` and the
creation of an account write `voting_power` or `last_vote_time`.
-/

/-! ## The bucket of an account -/

/-- The power that some seconds bring back, rounded down. -/
def regenerated (seconds : ℕ) : ℤ :=
  STEEMIT_100_PERCENT * seconds / STEEMIT_VOTE_REGENERATION_SECONDS

theorem refills_regenerated : Refills regenerated where
  nonneg d := Int.ediv_nonneg (mul_nonneg (by decide) (Int.natCast_nonneg d)) (by decide)
  add_le d e := by
    unfold regenerated STEEMIT_100_PERCENT STEEMIT_VOTE_REGENERATION_SECONDS
    omega

namespace State

variable {s s' : State} {voter : AccountName} {weight : ℤ}

def powerBucket (s : State) (name : AccountName) : Bucket ℤ :=
  ⟨(s.voters name).voting_power, (s.voters name).last_vote_time⟩

theorem currentPower_eq_available (h : (s.voters voter).last_vote_time ≤ s.head_block_time) :
    s.currentPower (s.voters voter) =
      (s.powerBucket voter).available (STEEMIT_100_PERCENT : ℤ) regenerated s.head_block_time := by
  have hcast : ((s.head_block_time - (s.voters voter).last_vote_time : ℕ) : ℤ) =
      (s.head_block_time : ℤ) - (s.voters voter).last_vote_time := Int.ofNat_sub h
  have hnonneg : 0 ≤ STEEMIT_100_PERCENT *
      ((s.head_block_time : ℤ) - (s.voters voter).last_vote_time) :=
    mul_nonneg (by decide) (by omega)
  unfold currentPower Bucket.available powerBucket regenerated
  rw [hcast, Int.tdiv_eq_ediv_of_nonneg hnonneg]

theorem Powered.votePower_nonneg {a : Ledger.Account} {abs_rshares : ℤ}
    (h : s.Powered voter weight a abs_rshares) : 0 ≤ s.votePower voter weight := by
  have hproduct : 0 ≤ s.currentPower (s.voters voter) * |weight| / STEEMIT_100_PERCENT :=
    Int.ediv_nonneg (mul_nonneg h.current_pos.le (abs_nonneg weight)) (by decide)
  have hdenom := h.denom_pos
  exact Int.ediv_nonneg (by omega) hdenom.le

end State

/-! ## Runs -/

namespace State

/-- What the rest of the chain does to the power of accounts. -/
def leavesPower (s s' : State) : Bool :=
  decide (s.head_block_time ≤ s'.head_block_time) &&
    s.ledger.accounts.keys.all (fun name => s'.ledger.accounts.contains name) &&
    s'.ledger.accounts.keys.all fun name =>
      decide ((s'.voters name).voting_power =
        if s.ledger.accounts.contains name then (s.voters name).voting_power
        else STEEMIT_100_PERCENT) &&
      decide ((s'.voters name).last_vote_time =
        if s.ledger.accounts.contains name then (s.voters name).last_vote_time
        else s.head_block_time)

end State

inductive PowerCall where
  | vote (voter : AccountName) (id : CommentId) (weight : ℤ)
  /-- A step of the rest of the chain. -/
  | rest (s' : State)

/-- `none` is thrown for what is no step of the chain. -/
def PowerCall.apply (s : State) : PowerCall → Except (Option Error) State
  | vote voter id weight => withError some (s.vote voter id weight)
  | rest s' => do
    check (s.leavesPower s') none
    .ok s'

structure PowerUse where
  voter : AccountName
  time : ℕ
  used_power : ℤ

/-- Votes on comments that are paid out use none. -/
def PowerCall.uses (s : State) : PowerCall → List PowerUse
  | vote voter id weight =>
    match s.comments.find? id with
    | none => []
    | some c =>
      if c.cashout_time = MAXIMUM_TIME then []
      else [⟨voter, s.head_block_time, s.votePower voter weight⟩]
  | rest _ => []

/-- The times and powers of one voter. -/
def usesOf (name : AccountName) (log : List PowerUse) : List (ℕ × ℤ) :=
  (log.filter fun u => u.voter = name).map fun u => (u.time, u.used_power)

theorem usesOf_append (name : AccountName) (log log' : List PowerUse) :
    usesOf name (log ++ log') = usesOf name log ++ usesOf name log' := by
  simp [usesOf]

/-- The uses of every account fit its bucket. -/
structure PowerKept (s : State) (log : List PowerUse) : Prop where
  budget : ∀ name, s.ledger.accounts.contains name = true →
    Budgeted (STEEMIT_100_PERCENT : ℤ) regenerated (s.powerBucket name) (usesOf name log)
  fresh : ∀ name, s.ledger.accounts.contains name = false → usesOf name log = []

namespace PowerKept

variable {s s' : State} {log : List PowerUse}

theorem vote {voter : AccountName} {id : CommentId} {weight : ℤ} (h : PowerKept s log)
    (heq : s.vote voter id weight = .ok s') :
    PowerKept s' (log ++ (PowerCall.vote voter id weight).uses s) := by
  obtain ⟨c, a, hc, ha, hcases⟩ := State.vote_voted heq
  have huses : (PowerCall.vote voter id weight).uses s = if c.cashout_time = MAXIMUM_TIME then []
      else [⟨voter, s.head_block_time, s.votePower voter weight⟩] := by
    simp only [PowerCall.uses, hc]
  rw [huses]
  obtain ⟨hpaid, rfl⟩ | ⟨hpaid, ⟨abs_rshares, hpower⟩, c', v, -, hvoted⟩ := hcases
  · rw [if_pos hpaid, List.append_nil]
    exact h
  have hinterval := hpower.interval
  have hlast : (s.voters voter).last_vote_time ≤ s.head_block_time := by
    unfold STEEMIT_MIN_VOTE_INTERVAL_SEC at hinterval
    omega
  have hvoter : s.ledger.accounts.contains voter = true :=
    (OrdMap.contains_iff _ _).2 ⟨a, Ledger.find_of_get_account ha⟩
  rw [if_neg hpaid]
  refine ⟨fun name hname => ?_, fun name hname => ?_⟩
  · rw [hvoted.ledger] at hname
    rw [usesOf_append]
    by_cases hsame : name = voter
    · subst hsame
      have hused := hpower.used_le
      rw [State.currentPower_eq_available hlast] at hused
      have htake := (h.budget name hname).take refills_regenerated hlast hpower.votePower_nonneg hused
      have hbucket : s'.powerBucket name = (s.powerBucket name).take (STEEMIT_100_PERCENT : ℤ)
          regenerated s.head_block_time (s.votePower name weight) := by
        unfold State.powerBucket Bucket.take
        rw [hvoted.voters, Function.update_self, State.currentPower_eq_available hlast]
        rfl
      rw [hbucket]
      simpa [usesOf] using htake
    · have hbucket : s'.powerBucket name = s.powerBucket name := by
        unfold State.powerBucket
        rw [hvoted.voters, Function.update_of_ne hsame]
      have hnone : usesOf name [⟨voter, s.head_block_time, s.votePower voter weight⟩] = [] := by
        simp [usesOf, Ne.symm hsame]
      rw [hbucket, hnone, List.append_nil]
      exact h.budget name hname
  · rw [hvoted.ledger] at hname
    have hother : voter ≠ name := by
      rintro rfl
      rw [hvoter] at hname
      cases hname
    rw [usesOf_append, h.fresh name hname]
    simp [usesOf, hother]

theorem rest (h : PowerKept s log) (hrest : s.leavesPower s' = true) : PowerKept s' log := by
  unfold State.leavesPower at hrest
  simp only [Bool.and_eq_true, List.all_eq_true, decide_eq_true_eq] at hrest
  obtain ⟨⟨-, hkept⟩, hpower⟩ := hrest
  refine ⟨fun name hname => ?_, fun name hname => ?_⟩
  · obtain ⟨hvoting, hlast⟩ :=
      hpower name (OrdMap.mem_keys.2 ((OrdMap.contains_iff _ _).1 hname))
    unfold State.powerBucket
    rw [hvoting, hlast]
    cases hold : s.ledger.accounts.contains name with
    | true => exact h.budget name hold
    | false =>
      rw [h.fresh name hold]
      exact Budgeted.full refills_regenerated (by decide) _
  · refine h.fresh name ?_
    by_contra hold
    rw [Bool.not_eq_false] at hold
    rw [hkept name (OrdMap.mem_keys.2 ((OrdMap.contains_iff _ _).1 hold))] at hname
    cases hname

theorem call {c : PowerCall} (h : PowerKept s log) (heq : c.apply s = .ok s') :
    PowerKept s' (log ++ c.uses s) := by
  cases c with
  | vote voter id weight => exact h.vote (withError_eq_ok.1 heq)
  | rest t =>
    obtain ⟨hrest, heq⟩ := check_bind_ok.1 heq
    cases heq
    rw [PowerCall.uses, List.append_nil]
    exact h.rest hrest

theorem genesis (ledger : Ledger.State) : PowerKept (genesis ledger fun _ => {}) [] :=
  ⟨fun _ _ => Budgeted.full refills_regenerated (by decide) _, fun _ _ => rfl⟩

end PowerKept

/-- In every state that votes and steps of the rest of the chain reach, the power of an account is
between nothing and the whole, and in every interval its votes used at most the whole power and what
the interval has refilled. -/
theorem run_power_budget (ledger : Ledger.State) (calls : List PowerCall) (name : AccountName) :
    ((runCalls PowerCall.apply (genesis ledger fun _ => {}) calls).ledger.accounts.contains name =
        true →
      0 ≤ ((runCalls PowerCall.apply (genesis ledger fun _ => {}) calls).voters name).voting_power ∧
        ((runCalls PowerCall.apply (genesis ledger fun _ => {}) calls).voters name).voting_power ≤
          STEEMIT_100_PERCENT) ∧
      ∀ start seconds : ℕ,
        takenIn start seconds (usesOf name (logCalls PowerCall.apply PowerCall.uses
            (genesis ledger fun _ => {}) calls)) ≤
          STEEMIT_100_PERCENT +
            STEEMIT_100_PERCENT * seconds / STEEMIT_VOTE_REGENERATION_SECONDS := by
  have hkept := logCalls_rule_all PowerCall.uses (P := PowerKept) (fun h heq => h.call heq)
    (PowerKept.genesis ledger) calls
  refine ⟨fun hname => ⟨(hkept.budget name hname).nonneg, (hkept.budget name hname).le⟩,
    fun start seconds => ?_⟩
  cases hname : (runCalls PowerCall.apply (genesis ledger fun _ => {}) calls).ledger.accounts.contains
    name with
  | true => exact (hkept.budget name hname).window start seconds
  | false =>
    rw [hkept.fresh name hname]
    exact add_nonneg (by decide) (refills_regenerated.nonneg seconds)

end Calibrd.Chain.Rewards
