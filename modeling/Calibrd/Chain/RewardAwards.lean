import Calibrd.Chain.Rewards

/-!
# Payouts as lists of awards

A payout of a comment is a list of awards: vesting shares for curators, beneficiaries and the author,
and SBD or STEEM for the author. The claimed reward is the sum of their STEEM (`payReward_awards`).
Awards change balances only, and no STEEM is new (`Spent`), so a payout leaves the rest of the state to
what it writes itself (`cashout_comment_helper_eq`).
-/

namespace Calibrd.Chain.Rewards

open Calibrd.Lib Calibrd.Protocol
open Calibrd.Chain.Ledger (RewardFund toShare)

/-! ## What a payout leaves alone -/

structure Paid (s s' : State) : Prop where
  eq : s' = { s with ledger := s'.ledger }
  ledger : Ledger.SameChain s.ledger s'.ledger

section Frame

variable {s s' s'' : State}

theorem Paid.refl (s : State) : Paid s s := ⟨rfl, .refl _⟩

theorem Paid.trans (h : Paid s s') (h' : Paid s' s'') : Paid s s'' where
  eq := by rw [h'.eq, h.eq]
  ledger := h.ledger.trans h'.ledger

theorem Paid.has_hardfork (h : Paid s s') (n : ℕ) : s'.has_hardfork n = s.has_hardfork n :=
  h.ledger.has_hardfork n

theorem Paid.comments (h : Paid s s') : s'.comments = s.comments := by rw [h.eq]

theorem Paid.total_reward_shares2 (h : Paid s s') :
    s'.total_reward_shares2 = s.total_reward_shares2 := by rw [h.eq]

theorem Paid.head_block_time (h : Paid s s') : s'.head_block_time = s.head_block_time :=
  h.ledger.time

/-- Balances have changed, and no STEEM is new. -/
structure Spent (s s' : State) : Prop extends Paid s s' where
  current_supply : s.ledger.FeedOk → s'.ledger.current_supply ≤ s.ledger.current_supply

theorem Spent.refl (s : State) : Spent s s := ⟨.refl s, fun _ => le_rfl⟩

theorem Spent.trans (h : Spent s s') (h' : Spent s' s'') : Spent s s'' where
  toPaid := h.toPaid.trans h'.toPaid
  current_supply hfeed :=
    (h'.current_supply (h.ledger.feedOk hfeed)).trans (h.current_supply hfeed)

end Frame

/-! ## Awards -/

inductive Role where
  | curator
  | beneficiary
  | author_vesting
  | author_sbd
deriving DecidableEq, Repr

/-- STEEM that a payout turns into something else for an account. -/
structure Award where
  role : Role
  account : AccountName
  steem : ℤ
deriving DecidableEq, Repr

def Award.apply (s : State) (a : Award) : Result State :=
  if a.role = .author_sbd then do
    let (_, ledger) ← withError .ledger (s.ledger.create_sbd a.account a.steem s.toRewardBalance)
    .ok { s with ledger }
  else s.create_vesting a.account a.steem

/-- The awards one after the other lead from `s` to `s'`. -/
def Awarded (s : State) (awards : List Award) (s' : State) : Prop :=
  awards.foldlM Award.apply s = .ok s'

/-- The STEEM of the awards. -/
def awardedSteem (awards : List Award) : ℤ := (awards.map Award.steem).sum

section Awards

variable {s s' t : State} {awards awards' : List Award} {c : Comment} {id : CommentId}

theorem Award.spent {a : Award} (h : a.apply s = .ok s') : Spent s s' := by
  unfold Award.apply at h
  split at h
  · obtain ⟨⟨r, l⟩, hl, h⟩ := bind_ok.1 h
    cases h
    have hsbd := withError_eq_ok.1 hl
    exact ⟨⟨rfl, Ledger.sameChain_create_sbd hsbd⟩,
      fun hfeed => Ledger.current_supply_create_sbd hfeed hsbd⟩
  · obtain ⟨l, hl, h⟩ := bind_ok.1 h
    cases h
    have hmoved := Ledger.moved_create_vesting (withError_eq_ok.1 hl)
    exact ⟨⟨rfl, hmoved.toSameChain⟩, fun _ => hmoved.current_supply.le⟩

theorem Awarded.spent (h : Awarded s awards s') : Spent s s' :=
  foldlM_rule (P := Spent s) (fun hspent ha => hspent.trans (Award.spent ha)) (.refl s) h

theorem Awarded.append (h : Awarded s awards t) (h' : Awarded t awards' s') :
    Awarded s (awards ++ awards') s' := by
  rw [Awarded, List.foldlM_append]
  exact bind_ok.2 ⟨t, h, h'⟩

theorem Awarded.cons {a : Award} (h : a.apply s = .ok t) (h' : Awarded t awards s') :
    Awarded s (a :: awards) s' := by
  rw [Awarded, List.foldlM_cons]
  exact bind_ok.2 ⟨t, h, h'⟩

theorem awardedSteem_append : awardedSteem (awards ++ awards') =
    awardedSteem awards + awardedSteem awards' := by
  rw [awardedSteem, List.map_append, List.sum_append]
  rfl

/-- Every curator is paid from what was unclaimed. -/
theorem payVoters_awards {max_rewards total_weight : ℤ} {l : List (AccountName × Vote)}
    {r r' : ℤ × State} (h : State.payVoters max_rewards total_weight l r = .ok r') :
    ∃ awards, Awarded r.2 awards r'.2 ∧ (∀ a ∈ awards, a.role = .curator ∧ a.account ∈ l.map Prod.fst) ∧
      awardedSteem awards = r.1 - r'.1 := by
  induction l generalizing r with
  | nil =>
    cases h
    exact ⟨[], rfl, nofun, (sub_self _).symm⟩
  | cons v l ih =>
    obtain ⟨voter, v⟩ := v
    obtain ⟨unclaimed, s⟩ := r
    obtain ⟨claim, -, h⟩ := bind_ok.1 h
    split at h
    · obtain ⟨t, ht, h⟩ := bind_ok.1 h
      obtain ⟨awards, hawarded, hroles, hsum⟩ := ih h
      refine ⟨⟨.curator, voter, claim⟩ :: awards, .cons ht hawarded, ?_, ?_⟩
      · exact List.forall_mem_cons.2 ⟨⟨rfl, List.mem_cons_self⟩,
          fun a ha => (hroles a ha).imp_right (List.mem_cons_of_mem _)⟩
      · simp only [awardedSteem, List.map_cons, List.sum_cons] at hsum ⊢
        omega
    · obtain ⟨awards, hawarded, hroles, hsum⟩ := ih h
      exact ⟨awards, hawarded, fun a ha => ⟨(hroles a ha).1, List.mem_cons_of_mem _ (hroles a ha).2⟩, hsum⟩

/-- Without curation rewards their part stays in the fund; otherwise it is paid or unclaimed. -/
theorem pay_curators_awards {max_rewards unclaimed paid : ℤ}
    (h : s.pay_curators id c max_rewards = .ok ((unclaimed, paid), s')) :
    (∃ awards, Awarded s awards s' ∧
      (∀ a ∈ awards, a.role = .curator ∧ a.account ∈ (s.votesByWeight id).map Prod.fst) ∧
      awardedSteem awards = paid) ∧
    unclaimed + paid = if c.allow_curation_rewards then max_rewards else 0 := by
  unfold State.pay_curators at h
  split at h
  · rename_i hallow
    cases h
    rw [Bool.not_eq_true'] at hallow
    exact ⟨⟨[], rfl, nofun, rfl⟩, by simp [hallow]⟩
  · rename_i hallow
    rw [Bool.not_eq_true', Bool.not_eq_false] at hallow
    rw [if_pos hallow]
    split at h
    · obtain ⟨⟨left, t⟩, ht, h⟩ := bind_ok.1 h
      cases h
      obtain ⟨awards, hawarded, hroles, hsum⟩ := payVoters_awards ht
      exact ⟨⟨awards, hawarded, hroles, hsum⟩, by omega⟩
    · cases h
      exact ⟨⟨[], rfl, nofun, rfl⟩, add_zero _⟩

theorem payBeneficiaries_awards {author_tokens : ℤ} {l : List (AccountName × ℤ)} {r r' : ℤ × State}
    (h : State.payBeneficiaries author_tokens l r = .ok r') :
    ∃ awards, Awarded r.2 awards r'.2 ∧
      (∀ a ∈ awards, a.role = .beneficiary ∧ a.account ∈ l.map Prod.fst) ∧
      awardedSteem awards = r'.1 - r.1 := by
  induction l generalizing r with
  | nil =>
    cases h
    exact ⟨[], rfl, nofun, (sub_self _).symm⟩
  | cons b l ih =>
    obtain ⟨account, weight⟩ := b
    obtain ⟨total, s⟩ := r
    obtain ⟨product, -, h⟩ := bind_ok.1 h
    obtain ⟨t, ht, h⟩ := bind_ok.1 h
    obtain ⟨awards, hawarded, hroles, hsum⟩ := ih h
    refine ⟨⟨.beneficiary, account, product.tdiv STEEMIT_100_PERCENT⟩ :: awards, .cons ht hawarded, ?_, ?_⟩
    · exact List.forall_mem_cons.2 ⟨⟨rfl, List.mem_cons_self⟩,
        fun a ha => (hroles a ha).imp_right (List.mem_cons_of_mem _)⟩
    · simp only [awardedSteem, List.map_cons, List.sum_cons] at hsum ⊢
      omega

theorem payAuthor_awards {author_tokens r : ℤ} (h : s.payAuthor c author_tokens = .ok (r, s')) :
    ∃ vesting sbd, Awarded s [⟨.author_vesting, c.author, vesting⟩, ⟨.author_sbd, c.author, sbd⟩] s' ∧
      vesting + sbd = author_tokens := by
  obtain ⟨product, -, h⟩ := bind_ok.1 h
  obtain ⟨t, ht, h⟩ := bind_ok.1 h
  obtain ⟨⟨paid, l⟩, hl, h⟩ := bind_ok.1 h
  cases h
  refine ⟨_, _, .cons ht (.cons ?_ rfl), sub_add_cancel _ _⟩
  exact bind_ok.2 ⟨(paid, l), hl, rfl⟩

/-- Who gets an award of a payout. -/
def Entitled (s : State) (id : CommentId) (c : Comment) (a : Award) : Prop :=
  match a.role with
  | .curator => a.account ∈ (s.votesByWeight id).map Prod.fst
  | .beneficiary => a.account ∈ c.beneficiaries.map Prod.fst
  | .author_vesting => a.account = c.author
  | .author_sbd => a.account = c.author

/-- The claimed reward is what was turned into awards, and no more than the reward. -/
theorem payReward_awards {reward_tokens claimed : ℤ}
    (h : s.payReward id c reward_tokens = .ok (claimed, s')) :
    ∃ awards, Awarded s awards s' ∧ (∀ a ∈ awards, Entitled s id c a) ∧
      awardedSteem awards = claimed ∧ ∃ percent curation_tokens,
        s.get_curation_rewards_percent = .ok percent ∧
        toShare (uint128 (reward_tokens * percent) / STEEMIT_100_PERCENT) = .ok curation_tokens ∧
        claimed = if c.allow_curation_rewards then reward_tokens else reward_tokens - curation_tokens := by
  obtain ⟨percent, hpercent, h⟩ := bind_ok.1 h
  obtain ⟨curation_tokens, htokens, h⟩ := bind_ok.1 h
  obtain ⟨⟨⟨unclaimed, paid⟩, t1⟩, h1, h⟩ := bind_ok.1 h
  obtain ⟨⟨total_beneficiary, t2⟩, h2, h⟩ := bind_ok.1 h
  obtain ⟨⟨author_steem, t3⟩, h3, h⟩ := bind_ok.1 h
  obtain ⟨_, -, h⟩ := bind_ok.1 h
  obtain ⟨_, -, h⟩ := bind_ok.1 h
  obtain ⟨_, -, h⟩ := bind_ok.1 h
  obtain ⟨_, -, h⟩ := bind_ok.1 h
  cases h
  obtain ⟨⟨curators, hcurators, hcuratorRoles, hcuratorSum⟩, hsplit⟩ := pay_curators_awards h1
  obtain ⟨beneficiaries, hbeneficiaries, hbeneficiaryRoles, hbeneficiarySum⟩ := payBeneficiaries_awards h2
  obtain ⟨vesting, sbd, hauthor, hauthorSum⟩ := payAuthor_awards h3
  refine ⟨_, hcurators.append (hbeneficiaries.append hauthor), ?_, ?_, percent, curation_tokens,
    hpercent, withError_eq_ok.1 htokens, ?_⟩
  · intro a ha
    rcases List.mem_append.1 ha with ha | ha
    · simp only [Entitled, (hcuratorRoles a ha).1]
      exact (hcuratorRoles a ha).2
    · rcases List.mem_append.1 ha with ha | ha
      · simp only [Entitled, (hbeneficiaryRoles a ha).1]
        exact (hbeneficiaryRoles a ha).2
      · rcases List.mem_pair.1 ha with rfl | rfl
        · rfl
        · rfl
  · rw [awardedSteem_append, awardedSteem_append, hcuratorSum, hbeneficiarySum]
    simp only [awardedSteem, List.map_cons, List.map_nil, List.sum_cons, List.sum_nil]
    omega
  · split_ifs at hsplit with hallow
    · rw [if_pos hallow]
      omega
    · rw [if_neg hallow]
      omega

/-- The payout of the rewards changes balances, and before hardfork 17 the total. -/
theorem payRewards_eq {ctx : Context} {r : ℤ} (h : s.payRewards ctx id c = .ok (r, s')) :
    ∃ t, Spent s t ∧ s' = if !s.has_hardfork 17 && decide (0 < c.net_rshares) then
      t.adjust_rshares2 (evaluate_reward_curve c.net_rshares) 0 else t := by
  unfold State.payRewards at h
  split at h
  · next hpos =>
    obtain ⟨ctx', -, h⟩ := bind_ok.1 h
    obtain ⟨reward, -, h⟩ := bind_ok.1 h
    obtain ⟨⟨claimed, t⟩, ht, h⟩ := bind_ok.1 h
    have hpaid : Spent s t := by
      unfold State.payTokens at ht
      split at ht
      · obtain ⟨awards, hawarded, -⟩ := payReward_awards ht
        exact hawarded.spent
      · cases ht
        exact .refl s
    refine ⟨t, hpaid, ?_⟩
    dsimp only at h
    rw [hpaid.has_hardfork] at h
    split at h
    all_goals
      next hfork =>
        cases h
        simp [hfork, hpos]
  · next hpos =>
    cases h
    exact ⟨s, .refl s, by simp [hpos]⟩

/-- A payout: rewards, then the comment and its votes. -/
theorem cashout_comment_helper_eq {ctx : Context} {r : ℤ}
    (h : s.cashout_comment_helper ctx id c = .ok (r, s')) :
    ∃ t, Spent s t ∧
      s' = ((if !s.has_hardfork 17 && decide (0 < c.net_rshares) then
        t.adjust_rshares2 (evaluate_reward_curve c.net_rshares) 0 else t).putComment id
          (s.settled c)).settleVotes id (s.nextCashout c) := by
  obtain ⟨⟨claimed, u⟩, hpay, h⟩ := bind_ok.1 h
  obtain ⟨t, ht, hu⟩ := payRewards_eq hpay
  have hfork : ∀ n, u.has_hardfork n = s.has_hardfork n := by
    intro n
    rw [hu, ← ht.has_hardfork n]
    split <;> rfl
  have htime : u.head_block_time = s.head_block_time := by
    rw [hu, ← ht.head_block_time]
    split <;> rfl
  have hnext : u.nextCashout c = s.nextCashout c := by
    simp only [State.nextCashout, hfork, htime]
  have hsettled : u.settled c = s.settled c := by simp only [State.settled, hnext, htime]
  cases h
  exact ⟨t, ht, by rw [← hu, hsettled, hnext]⟩

end Awards

/-! ## What the loop over the payouts keeps -/

namespace State

variable {s s' : State} {id : CommentId} {c : Comment}

theorem find_of_get_comment (h : s.get_comment id = .ok c) : s.comments.find? id = some c := by
  unfold get_comment at h
  split at h
  · cases h
    assumption
  · cases h

/-- The first comment to pay is one of the comments. -/
theorem find_of_firstCashout (h : s.firstCashout = some (id, c)) : s.comments.find? id = some c := by
  -- the best row so far is one of the rows
  have hrow : (id, c) ∈ s.comments.rows := by
    refine List.foldlRecOn s.comments.rows _
      (motive := fun best => ∀ q, best = some q → q ∈ s.comments.rows) ?_ ?_ (id, c) h
    · intro q hq
      cases hq
    · intro best hbest r hr q hq
      cases best with
      | none =>
        cases hq
        exact hr
      | some b =>
        dsimp only at hq
        split at hq
        · cases hq
          exact hr
        · exact hbest q hq
  exact OrdMap.mem_rows.1 hrow

section Rule

variable {P : State → Prop}
  (hcashout : ∀ {s s' : State} {ctx : Context} {id : CommentId} {c : Comment} {r : ℤ}, P s →
    s.comments.find? id = some c → s.cashout_comment_helper ctx id c = .ok (r, s') → P s')
  (hfund : ∀ {s : State} (steem : ℤ) (fund : Option RewardFund),
    fund.map RewardFund.rules = s.ledger.post_fund.map RewardFund.rules → P s →
    P { s with ledger := { s.ledger with total_reward_fund_steem := steem, post_fund := fund } })

include hcashout hfund

theorem payDiscussion_rule {ids : List CommentId} (hs : P s) (h : payDiscussion ids s = .ok s') :
    P s' := by
  induction ids generalizing s with
  | nil =>
    cases h
    exact hs
  | cons id ids ih =>
    obtain ⟨c, hc, h⟩ := bind_ok.1 h
    obtain ⟨⟨reward, t⟩, ht, h⟩ := bind_ok.1 h
    have hpaid : P t := hcashout hs (find_of_get_comment hc) ht
    refine ih ?_ h
    dsimp only
    split
    · exact hfund _ _ rfl hpaid
    · exact hpaid

theorem payDue_rule {fund : Option RewardFund} {fuel : ℕ} {r r' : ℤ × State} (hs : P r.2)
    (h : payDue fund fuel r = .ok r') : P r'.2 := by
  induction fuel generalizing r with
  | zero => cases h
  | succ fuel ih =>
    obtain ⟨awarded, s⟩ := r
    unfold payDue at h
    split at h
    · cases h
      exact hs
    · next id c hfirst =>
      split at h
      · split at h
        · split at h
          · cases h
          · obtain ⟨⟨reward, t⟩, ht, h⟩ := bind_ok.1 h
            exact ih (hcashout hs (find_of_firstCashout hfirst) ht) h
        · obtain ⟨t, ht, h⟩ := bind_ok.1 h
          exact ih (payDiscussion_rule hcashout hfund hs ht) h
      · cases h
        exact hs

/-- What every payout and every write to the funds keeps, the whole loop keeps. -/
theorem process_comment_cashout_rule (hs : P s) (h : s.process_comment_cashout = .ok s') : P s' := by
  unfold process_comment_cashout at h
  split at h
  · cases h
    exact hs
  · split at h
    · obtain ⟨⟨awarded, t⟩, ht, h⟩ := bind_ok.1 h
      cases h
      exact payDue_rule hcashout hfund hs ht
    · rename_i f hf
      obtain ⟨⟨awarded, t⟩, ht, h⟩ := bind_ok.1 h
      cases h
      refine hfund _ _ (by cases t.ledger.post_fund <;> rfl) (payDue_rule hcashout hfund ?_ ht)
      exact hfund _ _ (by rw [hf]; rfl) hs

end Rule

end State

end Calibrd.Chain.Rewards
