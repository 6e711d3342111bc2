import Calibrd.Chain.RewardAwards
import Calibrd.Chain.VoteSteps

/-!
# The total of the reward shares

Before hardfork 17 payouts are parts of `total_reward_shares2`, which is meant to be the sum of the
reward shares of all comments. A first vote, a payout, a deletion and the share split keep it so, as a
`uint128_t`; a changed vote does not, because it does not touch the total. So the total is right in
every run in which the votes that are changed leave the positive part of `net_rshares` alone
(`Call.KeepsShares`, `run_total_reward_shares2`), and wrong after the first one that does not
(`changed_vote_not_counted`).
-/

namespace Calibrd.Chain.Rewards

open Calibrd.Lib Calibrd.Protocol
open Calibrd.Chain.Ledger (RewardFund)

/-- The reward shares of a comment. -/
def Comment.shares (c : Comment) : ℤ := evaluate_reward_curve (max c.net_rshares 0)

/-- The reward shares of all comments. -/
def State.shares (s : State) : ℤ := s.comments.sum Comment.shares

/-- The total is right as a `uint128_t`, as long as payouts use it. -/
def State.Counted (s : State) : Prop :=
  s.ledger.last_hardfork < 17 → s.total_reward_shares2 = uint128 s.shares

section Shares

variable {c : Comment}

theorem Comment.shares_nonneg (c : Comment) : 0 ≤ c.shares :=
  Int.emod_nonneg _ (by decide)

theorem Comment.shares_of_nonpos (h : c.net_rshares ≤ 0) : c.shares = 0 := by
  simp [Comment.shares, max_eq_right h, evaluate_reward_curve, uint128]

theorem Comment.shares_of_pos (h : 0 < c.net_rshares) :
    c.shares = evaluate_reward_curve c.net_rshares := by
  rw [Comment.shares, max_eq_left h.le]

/-- Only `net_rshares` counts. -/
theorem Comment.shares_congr {c' : Comment} (h : c'.net_rshares = c.net_rshares) :
    c'.shares = c.shares := by rw [Comment.shares, h, Comment.shares]

theorem State.shares_nonneg (s : State) : 0 ≤ s.shares :=
  OrdMap.sum_nonneg fun _ c _ => c.shares_nonneg

theorem State.shares_congr {s s' : State} (h : s'.comments = s.comments) : s'.shares = s.shares := by
  rw [State.shares, h, State.shares]

/-- The total in `uint128_t` follows the sum. -/
theorem uint128_adjust (x a b : ℤ) : uint128 (uint128 (uint128 x - a) + b) = uint128 (x - a + b) := by
  simp only [uint128]
  omega

end Shares

/-- What the branch for a changed vote requires of the earlier vote `v`. -/
def State.MayChange (s : State) (c : Comment) (v : Vote) (weight rshares : ℤ) : Prop :=
  v.num_changes ≠ -1 ∧ v.num_changes < STEEMIT_MAX_VOTE_CHANGES ∧ v.vote_percent ≠ weight ∧
    (rshares ≤ v.rshares ∨ s.mayIncrease c = true)

instance (s : State) (c : Comment) (v : Vote) (weight rshares : ℤ) :
    Decidable (s.MayChange c v weight rshares) :=
  inferInstanceAs (Decidable (_ ∧ _))

/-- A vote that changes an earlier one leaves the positive part of `net_rshares` alone. -/
def Call.KeepsShares (s : State) : Call → Prop
  | vote name id weight =>
    match s.comments.find? id, s.votes.find? (toLex (id, name)), s.ledger.get_account name with
    | some c, some v, .ok a =>
      let rshares := State.signed weight (s.voteShares name weight a)
      s.Entitled name weight c → c.cashout_time ≠ MAXIMUM_TIME →
        s.Powered name weight a (s.voteShares name weight a) → s.MayChange c v weight rshares →
          max (c.net_rshares - v.rshares + rshares) 0 = max c.net_rshares 0
    | _, _, _ => True
  | _ => True

instance (s : State) (call : Call) : Decidable (call.KeepsShares s) := by
  unfold Call.KeepsShares
  split
  · split <;> infer_instance
  · infer_instance

namespace State

variable {s s' : State} {id j : CommentId} {c c' : Comment}

/-- The shares of the comment with the id, if there is one. -/
def sharesAt (s : State) (id : CommentId) : ℤ := s.comments.sumAt Comment.shares id

theorem sharesAt_of_find (h : s.comments.find? id = some c) : s.sharesAt id = c.shares := by
  rw [sharesAt, OrdMap.sumAt, h, Option.elim_some]

theorem shares_putComment (s : State) (id : CommentId) (c' : Comment) :
    (s.putComment id c').shares = s.shares + (c'.shares - s.sharesAt id) :=
  OrdMap.sum_insert Comment.shares s.comments id c'

structure NoNew (s s' : State) : Prop where
  next_comment : s'.next_comment = s.next_comment
  find : ∀ j, s.comments.find? j = none → s'.comments.find? j = none

theorem NoNew.of_eq (hnext : s'.next_comment = s.next_comment) (h : s'.comments = s.comments) :
    NoNew s s' :=
  ⟨hnext, fun j hj => by rw [h, hj]⟩

theorem NoNew.putComment (h : s.comments.find? id = some c) (c' : Comment) :
    NoNew s (s.putComment id c') := by
  refine ⟨rfl, fun j hj => ?_⟩
  have hne : id ≠ j := by
    rintro rfl
    rw [h] at hj
    cases hj
  simpa [State.putComment, hne] using hj

/-! ## Votes -/

section Votes

variable {voter : AccountName} {weight power : ℤ} {v : Vote}

/-- A vote moves the shares of its comment. -/
theorem Voted.shares_eq (h : Voted s s' voter id power c v) :
    s'.shares = s.shares + (c.shares - s.sharesAt id) := by
  have htally : s'.comments.mapValues Comment.tally =
      (s.putComment id c).comments.mapValues Comment.tally := by
    refine OrdMap.ext_find fun j => ?_
    rw [OrdMap.find?_mapValues, OrdMap.find?_mapValues, h.comments, tally_putComment]
  have hsum : ∀ m : OrdMap CommentId Comment,
      (m.mapValues Comment.tally).sum Comment.shares = m.sum Comment.shares :=
    OrdMap.sum_mapValues Comment.shares Comment.tally
  rw [shares, ← hsum, htally, hsum]
  exact shares_putComment s id c

/-- A vote keeps the total right unless it changes an earlier one and the shares of its comment. -/
theorem Counted.vote (h : s.Counted) (hkeeps : (Call.vote voter id weight).KeepsShares s)
    (heq : s.vote voter id weight = .ok s') : s'.Counted := by
  obtain ⟨c, a, hc, ha, hentitled, ⟨-, rfl⟩ | ⟨hopen, abs_rshares, hpower, hcast⟩⟩ :=
    vote_eq_ok.1 heq
  · exact h
  obtain ⟨-, hnew⟩ | ⟨v, hv, hpaid, hchanged⟩ := castVote_cases hcast
  · obtain ⟨-, -, -, _, _, -, hvoted, htotal⟩ := newVote_voted hnew
    intro hfork
    rw [hvoted.ledger] at hfork
    rw [htotal, h hfork, uint128_adjust, hvoted.shares_eq, sharesAt_of_find hc, add_sub,
      add_sub_right_comm]
    rfl
  · obtain ⟨hchanges, hpercent, hlock, hvoted, htotal⟩ := changeVote_voted hchanged
    obtain rfl := hpower.eq_voteShares
    simp only [Call.KeepsShares, hc, hv, ha] at hkeeps
    have hnet := hkeeps hentitled hopen hpower ⟨hpaid, hchanges, hpercent, hlock⟩
    intro hfork
    rw [hvoted.ledger] at hfork
    rw [htotal, h hfork, hvoted.shares_eq, sharesAt_of_find hc, Comment.shares, hnet, Comment.shares,
      sub_self, add_zero]

end Votes

/-! ## Comments -/

theorem Counted.congr (h : s.Counted) (hshares : s'.shares = s.shares)
    (htotal : s'.total_reward_shares2 = s.total_reward_shares2)
    (hfork : s'.ledger.last_hardfork = s.ledger.last_hardfork) : s'.Counted := by
  intro hlt
  rw [htotal, hshares]
  exact h (hfork ▸ hlt)

/-- New comments have no votes. -/
theorem Counted.comment {author : AccountName} {reward_weight : ℤ} (h : s.Counted)
    (hfresh : s.comments.find? s.next_comment = none)
    (heq : s.comment author reward_weight = .ok s') : s'.Counted := by
  obtain ⟨_, -, heq⟩ := bind_ok.1 heq
  replace heq := ok_of_check heq
  cases heq
  refine h.congr ((shares_putComment s s.next_comment _).trans ?_) rfl rfl
  rw [Comment.shares_of_nonpos (by exact le_rfl), sharesAt, OrdMap.sumAt, hfresh]
  simp

theorem comment_options_eq {o : CommentOptions} (h : s.comment_options id o = .ok s') :
    ∃ c c' : Comment, s.comments.find? id = some c ∧
      c' = { c with
        max_accepted_payout := c'.max_accepted_payout
        percent_steem_dollars := c'.percent_steem_dollars
        allow_votes := c'.allow_votes
        allow_curation_rewards := c'.allow_curation_rewards
        beneficiaries := c'.beneficiaries } ∧
      s' = s.putComment id c' := by
  unfold State.comment_options at h
  simp only [bind_ok, exists_check_eq_ok] at h
  obtain ⟨-, -, c, hc, -, -, -, -, -, -, d, hd, h⟩ := h
  refine ⟨c, d, find_of_get_comment hc, ?_, (Except.ok.inj h).symm⟩
  unfold State.addBeneficiaries at hd
  split at hd
  · cases hd
    rfl
  · simp only [bind_ok, exists_check_eq_ok] at hd
    obtain ⟨-, -, -, -, hd⟩ := hd
    cases hd
    rfl

/-- A comment that is deleted has no shares. -/
theorem Counted.delete_comment (h : s.Counted) (heq : s.delete_comment id = .ok s') :
    s'.Counted := by
  unfold State.delete_comment at heq
  simp only [bind_ok, exists_check_eq_ok] at heq
  obtain ⟨c, hc, -, -, hnet, heq⟩ := heq
  cases heq
  refine h.congr ((OrdMap.sum_erase Comment.shares s.comments id).trans ?_) rfl rfl
  have hzero : s.comments.sumAt Comment.shares id = 0 :=
    (sharesAt_of_find (find_of_get_comment hc)).trans
      (Comment.shares_of_nonpos (of_decide_eq_true hnet))
  rw [hzero, sub_zero]
  rfl

/-! ## Payout -/

@[simp] theorem settleVotes_comments (s : State) (id : CommentId) (t : ℕ) :
    (s.settleVotes id t).comments = s.comments := by
  unfold settleVotes removeVotes
  split <;> rfl

@[simp] theorem settleVotes_ledger (s : State) (id : CommentId) (t : ℕ) :
    (s.settleVotes id t).ledger = s.ledger := by
  unfold settleVotes removeVotes
  split <;> rfl

@[simp] theorem settleVotes_total (s : State) (id : CommentId) (t : ℕ) :
    (s.settleVotes id t).total_reward_shares2 = s.total_reward_shares2 := by
  unfold settleVotes removeVotes
  split <;> rfl

theorem shares_settled (s : State) (c : Comment) : (s.settled c).shares = 0 :=
  Comment.shares_of_nonpos (min_le_right _ _)

/-- A payout takes the shares of its comment out of the total. -/
theorem Counted.cashout {ctx : Context} {r : ℤ} (h : s.Counted)
    (hc : s.comments.find? id = some c) (heq : s.cashout_comment_helper ctx id c = .ok (r, s')) :
    s'.Counted := by
  obtain ⟨t, ht, rfl⟩ := cashout_comment_helper_eq heq
  intro hfork
  rw [settleVotes_ledger] at hfork
  have hlast : s.ledger.last_hardfork < 17 := by
    rw [← ht.ledger.last_hardfork]
    refine lt_of_eq_of_lt ?_ hfork
    split <;> rfl
  have hsum : ∀ u : State, u.comments = s.comments →
      (u.putComment id (s.settled c)).shares = s.shares - c.shares := by
    intro u hu
    rw [shares_putComment, shares_settled, sharesAt, hu, ← sharesAt, sharesAt_of_find hc,
      shares_congr hu]
    omega
  have h17 : s.has_hardfork 17 = false := by
    simpa [has_hardfork, Ledger.State.has_hardfork] using hlast
  rw [settleVotes_total, shares_congr (settleVotes_comments _ _ _)]
  by_cases hpos : 0 < c.net_rshares
  · simp only [h17, hpos, Bool.not_false, decide_true, Bool.and_self, if_true]
    rw [hsum (t.adjust_rshares2 (evaluate_reward_curve c.net_rshares) 0) ht.comments]
    refine Eq.trans (congrArg (fun x => uint128 (uint128 (x - _) + 0)) ht.total_reward_shares2) ?_
    rw [h hlast, uint128_adjust, add_zero, Comment.shares_of_pos hpos]
  · simp only [hpos, decide_false, Bool.and_false, Bool.false_eq_true, if_false]
    rw [hsum _ ht.comments, Comment.shares_of_nonpos (not_lt.1 hpos), sub_zero]
    exact ht.total_reward_shares2.trans (h hlast)

/-! ## Hardforks -/

/-- Counting the shares of some comments, one by one. -/
theorem foldl_adjust_rshares2 (l : List (CommentId × Comment)) {s : State} {x : ℤ}
    (h : s.total_reward_shares2 = uint128 x) :
    (l.foldl (fun s r => if 0 < r.2.net_rshares then
        s.adjust_rshares2 0 (evaluate_reward_curve r.2.net_rshares) else s) s) =
      { s with total_reward_shares2 := uint128 (x + (l.map fun r => r.2.shares).sum) } := by
  induction l generalizing s x with
  | nil =>
    rw [List.foldl_nil, List.map_nil, List.sum_nil, add_zero, ← h]
  | cons r l ih =>
    rw [List.foldl_cons, List.map_cons, List.sum_cons, ← add_assoc]
    split
    · next hpos =>
      refine (ih (x := x + r.2.shares) ?_).trans rfl
      rw [Comment.shares_of_pos hpos]
      refine (congrArg (fun y => uint128 (uint128 (y - 0) + _)) h).trans ?_
      rw [uint128_adjust, sub_zero]
    · next hpos =>
      rw [Comment.shares_of_nonpos (not_lt.1 hpos), add_zero]
      exact ih h

theorem shares_mapValues (s : State) {f : Comment → Comment}
    (hf : ∀ c, (f c).net_rshares = c.net_rshares) :
    (s.comments.mapValues f).sum Comment.shares = s.shares := by
  rw [OrdMap.sum_mapValues]
  exact congrArg (fun g => s.comments.sum g) (funext fun c => Comment.shares_congr (hf c))

theorem cashoutAtHardfork12_net (s : State) (c : Comment) :
    (s.cashoutAtHardfork12 c).net_rshares = c.net_rshares := by
  unfold cashoutAtHardfork12
  split
  · rfl
  · split <;> rfl

variable {n : ℕ}

/-- A hardfork before the seventeenth keeps the total right. -/
theorem hardforkEffect_counted (hn : n < 17) (h : s.total_reward_shares2 = uint128 s.shares)
    (heq : s.hardforkEffect n = .ok s') : s'.total_reward_shares2 = uint128 s'.shares := by
  unfold hardforkEffect at heq
  split at heq
  · cases heq
    unfold perform_vesting_share_split
    dsimp only
    rw [foldl_adjust_rshares2 _ (x := 0) rfl, zero_add]
    rfl
  · split at heq
    · cases heq
      refine h.trans (congrArg uint128 ?_)
      exact (shares_mapValues s (cashoutAtHardfork12_net s)).symm
    · rw [if_neg (by omega), if_neg (by omega)] at heq
      cases heq
      exact h

theorem hardforkEffect_noNew (heq : s.hardforkEffect n = .ok s') : NoNew s s' := by
  have hkept := hardforkEffect_kept heq
  refine ⟨hkept.next_comment, fun j hj => Option.eq_none_iff_forall_ne_some.2 fun c hc => ?_⟩
  obtain ⟨d, hd, -⟩ := hkept.find j c hc
  rw [hj] at hd
  cases hd

theorem Counted.apply_hardfork (h : s.Counted) (heq : s.apply_hardfork = .ok s') : s'.Counted := by
  replace heq := ok_of_check heq
  obtain ⟨t, ht, heq⟩ := bind_ok.1 heq
  cases heq
  intro hfork
  have hlast : t.ledger.last_hardfork + 1 < 17 := hfork
  rw [(hardforkEffect_kept ht).ledger] at hlast
  change s.ledger.last_hardfork + 1 < 17 at hlast
  have htotal := hardforkEffect_counted hlast (h (by omega)) ht
  exact htotal

/-! ## Runs -/

/-- The total is right, and new comments get new ids. -/
structure SharesInv (s : State) : Prop where
  counted : s.Counted
  fresh : ∀ id, s.next_comment ≤ id → s.comments.find? id = none

theorem SharesInv.noNew (h : s.SharesInv) (hcounted : s'.Counted) (hnew : NoNew s s') :
    s'.SharesInv where
  counted := hcounted
  fresh id hid := hnew.find id (h.fresh id (hnew.next_comment ▸ hid))

theorem vote_noNew {voter : AccountName} {weight : ℤ} (heq : s.vote voter id weight = .ok s') :
    NoNew s s' := by
  obtain ⟨c, a, hc, -, ⟨-, rfl⟩ | ⟨-, -, _, _, -, hvoted⟩⟩ := vote_voted heq
  · exact .of_eq rfl rfl
  · refine ⟨hvoted.next_comment, fun j hj => Option.eq_none_iff_forall_ne_some.2 fun d hd => ?_⟩
    obtain ⟨rfl, -⟩ | ⟨e, -, he, -⟩ := hvoted.find hd
    · rw [hc] at hj
      cases hj
    · rw [he] at hj
      cases hj

theorem SharesInv.cashout {ctx : Context} {r : ℤ} (h : s.SharesInv)
    (hc : s.comments.find? id = some c) (heq : s.cashout_comment_helper ctx id c = .ok (r, s')) :
    s'.SharesInv := by
  refine h.noNew (h.counted.cashout hc heq) ?_
  obtain ⟨t, ht, rfl⟩ := cashout_comment_helper_eq heq
  have hput : NoNew s (s.putComment id (s.settled c)) := .putComment hc _
  refine ⟨?_, fun j hj => ?_⟩
  · unfold settleVotes removeVotes
    rw [ht.eq]
    split <;> split <;> rfl
  · rw [settleVotes_comments]
    have hj' := hput.find j hj
    split
    all_goals
      simp only [State.putComment, adjust_rshares2, ht.comments] at hj' ⊢
      exact hj'

end State

theorem State.SharesInv.call {s s' : State} {call : Call} (h : s.SharesInv)
    (hkeeps : call.KeepsShares s) (heq : call.apply s = .ok s') : s'.SharesInv := by
  cases call with
  | comment author reward_weight =>
    have hcounted := h.counted.comment (h.fresh _ le_rfl) heq
    obtain ⟨_, -, heq⟩ := bind_ok.1 heq
    replace heq := ok_of_check heq
    cases heq
    refine ⟨hcounted, fun id hid => ?_⟩
    have hlt : s.next_comment < id := hid
    simpa [State.putComment, hlt.ne] using h.fresh id hlt.le
  | comment_options id o =>
    obtain ⟨c, c', hc, hc', rfl⟩ := State.comment_options_eq heq
    have hnet : c'.net_rshares = c.net_rshares := by rw [hc']
    have hshares : (s.putComment id c').shares = s.shares := by
      rw [State.shares_putComment, State.sharesAt_of_find hc, Comment.shares_congr hnet, sub_self,
        add_zero]
    exact h.noNew (h.counted.congr hshares rfl rfl) (.putComment hc c')
  | delete_comment id =>
    have hcounted := h.counted.delete_comment heq
    unfold Call.apply State.delete_comment at heq
    simp only [bind_ok, exists_check_eq_ok] at heq
    obtain ⟨c, -, -, -, -, heq⟩ := heq
    cases heq
    refine h.noNew hcounted ⟨rfl, fun j hj => ?_⟩
    simp [hj]
  | vote name id weight => exact h.noNew (h.counted.vote hkeeps heq) (State.vote_noNew heq)
  | cashout ctx id =>
    obtain ⟨c, hc, heq⟩ := bind_ok.1 heq
    obtain ⟨⟨r, t⟩, ht, heq⟩ := map_eq_ok.1 heq
    cases heq
    exact h.cashout (State.find_of_get_comment hc) ht
  | process_comment_cashout =>
    refine State.process_comment_cashout_rule (fun h hc heq => h.cashout hc heq)
      (fun _ _ _ h => ?_) h heq
    exact ⟨h.counted.congr rfl rfl rfl, h.fresh⟩
  | apply_hardfork =>
    have hcounted := h.counted.apply_hardfork heq
    replace heq := ok_of_check heq
    obtain ⟨t, ht, heq⟩ := bind_ok.1 heq
    cases heq
    have hnew := State.hardforkEffect_noNew ht
    exact h.noNew hcounted ⟨hnew.next_comment, hnew.find⟩
  | balances l =>
    cases heq
    exact ⟨h.counted.congr rfl rfl rfl, h.fresh⟩
  | voter name v =>
    cases heq
    exact ⟨h.counted.congr rfl rfl rfl, h.fresh⟩
  | time t =>
    cases heq
    exact ⟨h.counted.congr rfl rfl rfl, h.fresh⟩

/-- Before hardfork 17, in every state of a run in which the votes that are changed leave the positive
part of `net_rshares` alone: the total is the sum of the shares exactly if that sum is a `uint128_t`, and then no
vote or payout subtracts more than the total. -/
theorem run_total_reward_shares2 (ledger : Ledger.State) (voters : AccountName → Voter)
    (calls : List Call)
    (hkeeps : Along Call.apply (fun s call => call.KeepsShares s) (genesis ledger voters) calls)
    (hfork : (run (genesis ledger voters) calls).ledger.last_hardfork < 17) :
    ((run (genesis ledger voters) calls).total_reward_shares2 =
        (run (genesis ledger voters) calls).shares ↔
      (run (genesis ledger voters) calls).shares < 2 ^ 128) ∧
    ((run (genesis ledger voters) calls).shares < 2 ^ 128 → ∀ id c,
      (run (genesis ledger voters) calls).comments.find? id = some c →
        c.shares ≤ (run (genesis ledger voters) calls).total_reward_shares2) := by
  have hinv : (run (genesis ledger voters) calls).SharesInv :=
    runCalls_rule (fun h hkeeps heq => h.call hkeeps heq) ⟨fun _ => rfl, fun _ _ => rfl⟩ hkeeps
  have htotal := hinv.counted hfork
  generalize run (genesis ledger voters) calls = s at htotal ⊢
  have hexact : s.shares < 2 ^ 128 → s.total_reward_shares2 = s.shares := fun hlt =>
    htotal.trans (uint128_of_nonneg s.shares_nonneg hlt)
  refine ⟨⟨fun h => ?_, hexact⟩, fun hlt id c hc => ?_⟩
  · rw [← h, htotal]
    exact Int.emod_lt_of_pos _ (by decide)
  · rw [hexact hlt, ← State.sharesAt_of_find hc]
    have hsum := OrdMap.sum_erase Comment.shares s.comments id
    have hrest : 0 ≤ (s.comments.erase id).sum Comment.shares :=
      OrdMap.sum_nonneg fun _ c _ => c.shares_nonneg
    rw [hsum] at hrest
    exact sub_nonneg.1 hrest

/-- An author and two voters with stake. -/
def threeAccounts : Ledger.State where
  accounts := ((OrdMap.empty.insert 1 {}).insert 2 { vesting_shares := 1000000000000 }).insert 3
    { vesting_shares := 1000000000000 }
  time := 1500000000

/-- A vote against a post becomes a vote for it, then somebody votes against it. -/
def turnedVote : List Call :=
  [.comment 1 10000, .vote 2 0 (-10000), .time 1500000003, .vote 2 0 10000]

/-- The vote that was turned is missing in the total, and the next vote takes more than there is. -/
theorem changed_vote_not_counted :
    (run (genesis threeAccounts fun _ => {}) turnedVote).total_reward_shares2 = 0 ∧
      0 < (run (genesis threeAccounts fun _ => {}) turnedVote).shares ∧
      (run (genesis threeAccounts fun _ => {})
        (turnedVote ++ [.vote 3 0 (-10000)])).total_reward_shares2 =
          2 ^ 128 - (run (genesis threeAccounts fun _ => {}) turnedVote).shares := by
  decide +kernel

/-- A vote for a post without curation rewards, and a vote against another one that is changed. -/
def countedVotes : List Call :=
  [.comment 1 10000,
    .comment_options 0
      { max_accepted_payout := 1000000000
        percent_steem_dollars := 10000
        allow_votes := true
        allow_curation_rewards := false },
    .vote 2 0 10000, .comment 1 10000, .vote 3 1 (-10000), .time 1500000003, .vote 3 1 (-5000)]

theorem run_total_reward_shares2_countedVotes :
    0 < (run (genesis threeAccounts fun _ => {}) countedVotes).shares ∧
      (run (genesis threeAccounts fun _ => {}) countedVotes).total_reward_shares2 =
        (run (genesis threeAccounts fun _ => {}) countedVotes).shares :=
  ⟨by decide +kernel,
    (run_total_reward_shares2 threeAccounts (fun _ => {}) countedVotes (by decide +kernel)
      (by decide +kernel)).1.2 (by decide +kernel)⟩

end Calibrd.Chain.Rewards
