import Calibrd.Chain.RewardPayouts

/-!
# The reward fund in runs of blocks

What the payouts need to know about the state holds in every state that blocks reach: a comment has at
most its whole reward weight and the fund gives at most all of a reward to curators (`TermsOk`).
-/

namespace Calibrd.Chain.Rewards

open Calibrd.Lib Calibrd.Protocol
open Calibrd.Chain.Ledger (RewardFund InPercent STEEMIT_1_PERCENT Kept)

/-- No part is more than the whole. -/
structure TermsOk (s : State) : Prop where
  weights : ∀ id c, s.comments.find? id = some c → InPercent c.reward_weight
  percent : ∀ f, s.ledger.post_fund = some f → InPercent f.percent_curation_rewards

namespace TermsOk

variable {s s' t : State} {id : CommentId} {c c' : Comment}

theorem percent_of_terms {p p' : Option RewardFund}
    (hterms : p'.map RewardFund.terms = p.map RewardFund.terms)
    (h : ∀ f, p = some f → InPercent f.percent_curation_rewards) :
    ∀ f, p' = some f → InPercent f.percent_curation_rewards := by
  rintro f rfl
  obtain ⟨g, hg, hsame⟩ := Option.map_eq_some_iff.1 hterms.symm
  have hpercent : g.percent_curation_rewards = f.percent_curation_rewards := congrArg Prod.snd hsame
  rw [← hpercent]
  exact h g hg

theorem of_kept (h : TermsOk s) (hcomments : s'.comments = s.comments)
    (hkept : Kept s.ledger s'.ledger) : TermsOk s' :=
  ⟨by rw [hcomments]; exact h.weights, percent_of_terms hkept.fund h.percent⟩

section

variable (h : TermsOk s)

include h

theorem putComment (hc : InPercent c.reward_weight) : TermsOk (s.putComment id c) :=
  ⟨OrdMap.forall_insert h.weights hc, h.percent⟩

theorem vote {voter : AccountName} {weight : ℤ}
    (heq : s.vote voter id weight = .ok s') : TermsOk s' := by
  obtain ⟨c, a, hc, -, ⟨-, rfl⟩ | ⟨-, -, c', v, hc', hvoted⟩⟩ := State.vote_voted heq
  · exact h
  · refine ⟨fun j d hd => ?_, hvoted.ledger ▸ h.percent⟩
    obtain ⟨rfl, htally⟩ | ⟨e, -, he, htally⟩ := hvoted.find hd
    · rw [Comment.eq_of_tally htally, hc']
      exact h.weights j c hc
    · rw [Comment.eq_of_tally htally]
      exact h.weights j e he

theorem comment {author : AccountName} {reward_weight : ℤ}
    (heq : s.comment author reward_weight = .ok s') : TermsOk s' := by
  obtain ⟨_, -, heq⟩ := bind_ok.1 heq
  obtain ⟨hweight, heq⟩ := check_decide_ok.1 heq
  cases heq
  exact ⟨OrdMap.forall_insert h.weights hweight, h.percent⟩

theorem comment_options {o : CommentOptions}
    (heq : s.comment_options id o = .ok s') : TermsOk s' := by
  obtain ⟨c, c', hc, hc', rfl⟩ := State.comment_options_eq heq
  refine h.putComment ?_
  rw [hc']
  exact h.weights id c hc

theorem delete_comment (heq : s.delete_comment id = .ok s') : TermsOk s' := by
  simp only [State.delete_comment, bind_ok, exists_check_eq_ok] at heq
  obtain ⟨c, -, -, -, -, heq⟩ := heq
  cases heq
  exact ⟨fun j d hd => h.weights j d (OrdMap.find?_of_erase hd), h.percent⟩

theorem evaluate {op : Operation} (heq : s.evaluate op = .ok s') : TermsOk s' := by
  have hkept := (evaluate_spec heq).1.kept
  cases op
  case comment => exact h.comment heq
  case comment_options => exact h.comment_options heq
  case delete_comment => exact h.delete_comment heq
  case vote => exact h.vote heq
  case voter =>
    cases heq
    exact ⟨h.weights, h.percent⟩
  case account_create_with_delegation =>
    obtain ⟨l, _, -, rfl⟩ := createDelegated_eq_ok heq
    exact h.of_kept rfl hkept
  case other =>
    cases heq
    exact h
  all_goals
    dsimp only [State.evaluate] at heq
    obtain ⟨l, -, rfl⟩ := onLedger_eq_ok.1 heq
    exact h.of_kept rfl hkept

theorem process_comment_cashout (heq : s.process_comment_cashout = .ok s') :
    TermsOk s' := by
  refine State.process_comment_cashout_rule (fun {s s' ctx id c r} hs hc hcashout => ?_)
    (fun _ _ hrules hs => ⟨hs.weights, percent_of_terms (RewardFund.terms_of_rules hrules) hs.percent⟩)
    h heq
  obtain ⟨u, hu, rfl⟩ := cashout_comment_helper_eq hcashout
  have hpaid : TermsOk u := hs.of_kept hu.comments hu.ledger.kept
  have hweight : InPercent c.reward_weight := hs.weights id c hc
  refine ⟨?_, ?_⟩
  · rw [State.settleVotes_comments]
    split
    all_goals exact OrdMap.forall_insert hpaid.weights hweight
  · rw [State.settleVotes_ledger]
    split
    all_goals exact hpaid.percent

end

theorem hardforkEffect {n : ℕ} (h : TermsOk s) (heq : s.hardforkEffect n = .ok s') : TermsOk s' := by
  have hkept := State.hardforkEffect_kept heq
  refine ⟨fun id c' hc' => ?_, fun f hf => ?_⟩
  · obtain ⟨c, hc, hweight⟩ := hkept.find id c' hc'
    rw [hweight]
    exact h.weights id c hc
  · obtain hnew | ⟨g, hg, hsame⟩ := hkept.percent f hf
    · rw [hnew]
      decide
    · rw [hsame]
      exact h.percent g hg

theorem applyHardforks {n : ℕ} (h : TermsOk s) (heq : Block.applyHardforks n s = .ok s') :
    TermsOk s' := by
  induction n generalizing s with
  | zero =>
    cases heq
    exact h
  | succ n ih =>
    obtain ⟨t, ht, heq⟩ := bind_ok.1 heq
    replace ht := ok_of_check ht
    obtain ⟨u, hu, ht⟩ := bind_ok.1 ht
    cases ht
    have hfork := h.hardforkEffect hu
    refine ih ?_ heq
    exact ⟨hfork.weights, hfork.percent⟩

variable {b : Block}

theorem beforeCashout (h : TermsOk s) (heq : b.beforeCashout s = .ok s') : TermsOk s' := by
  obtain ⟨t, l2, l3, l4, paid, h1, h2, h3, h4, rfl⟩ := beforeCashout_steps heq
  have hops : TermsOk t := by
    refine foldlM_rule (P := TermsOk) (fun ht hop => ht.evaluate hop) ?_ h1
    exact ⟨h.weights, h.percent⟩
  have hlater := (Ledger.kept_process_funds h3).trans (Ledger.capped_process_conversions h4).toKept
  exact ⟨hops.weights, percent_of_terms (hlater.fund.trans (beforeFunds_spec h2).2.1) hops.percent⟩

theorem apply (h : TermsOk s) (heq : b.apply s = .ok s') : TermsOk s' := by
  obtain ⟨t4, t5, l6, l7, l8, h4, h5, h6, h7, h8, heq⟩ := apply_steps heq
  have hpaid := (h.beforeCashout h4).process_comment_cashout h5
  have hlater := (kept_afterCashout h6).trans ((Ledger.capped_update_virtual_supply h7).toKept.trans
    (Ledger.expire_escrow_ratification_spec h8).moved.toSameChain.kept)
  have hescrows : TermsOk { t5 with ledger := l8 } := hpaid.of_kept rfl hlater
  exact hescrows.applyHardforks heq

theorem runBlocks (init_supply : ℤ) (blocks : List Block) :
    TermsOk (runBlocks (init_genesis init_supply) blocks) := by
  refine runCalls_rule_all (fun hs h => hs.apply h) ⟨fun id c hc => ?_, fun f hf => ?_⟩ blocks
  · have hempty : (init_genesis init_supply).comments.find? id = none := rfl
    rw [hempty] at hc
    cases hc
  · have hnone : (init_genesis init_supply).ledger.post_fund = none := rfl
    rw [hnone] at hf
    cases hf

end TermsOk

/-- In every run of blocks, the payouts of the next one are covered by the fund and account for all
that it loses, if the claims fit into a `uint128_t`. -/
theorem runBlocks_fundSafe {init_supply : ℤ} {blocks : List Block} {b : Block} {s s' : State}
    {f : RewardFund} (hs : b.beforeCashout (runBlocks (init_genesis init_supply) blocks) = .ok s)
    (hfork : s.has_hardfork 17 = true) (hfund : s.ledger.post_fund = some f)
    (hbalance : 0 ≤ f.reward_balance)
    (hfits : (s.decayed f).recent_claims + s.dueClaims f < 2 ^ 128)
    (h : s.process_comment_cashout = .ok s') : ∃ log, FundSafe s s' f log := by
  have hterms := (TermsOk.runBlocks init_supply blocks).beforeCashout hs
  have hfeed := beforeCashout_feedOk (runBlocks_feedOk init_supply blocks) hs
  exact process_comment_cashout_fundSafe ⟨hfork, hfund, hterms.percent f hfund, hterms.weights, hfeed⟩
    hbalance hfits h

/-- The miner has two posts. A quarter of the first is for a beneficiary, and another account votes on
the second. -/
def postBlocks : List Block :=
  escrowBlocks.take 1 ++
    [minerBlock 6
      [.transfer_to_vesting STEEMIT_INIT_MINER_NAME STEEMIT_INIT_MINER_NAME 1000000000,
        .transfer_to_vesting STEEMIT_INIT_MINER_NAME STEEMIT_MINER_ACCOUNT 1000000000,
        .comment STEEMIT_INIT_MINER_NAME 10000, .comment STEEMIT_INIT_MINER_NAME 10000,
        .comment_options 0
          { max_accepted_payout := 10 ^ 9
            percent_steem_dollars := 10000
            allow_votes := true
            allow_curation_rewards := true
            beneficiaries := some [(STEEMIT_TEMP_ACCOUNT, 2500)] }],
      minerBlock 2000 [.vote STEEMIT_INIT_MINER_NAME 0 10000, .vote STEEMIT_MINER_ACCOUNT 1 10000]]

/-- The shares that an account can claim. -/
def claimableShares (s : State) (name : AccountName) : ℤ :=
  (s.ledger.accounts.find? name).elim 0 (·.reward_vesting_balance)

/-- Two comments are due and get paid, with them the beneficiary and the curator. -/
def PaysBoth (s s' : State) : Prop :=
  s.comments.keys = [0, 1] ∧ (∀ r ∈ s.comments.rows, r.2.cashout_time ≤ s.head_block_time) ∧
    (∀ r ∈ s'.comments.rows, r.2.cashout_time = MAXIMUM_TIME) ∧
    ∀ name ∈ [STEEMIT_TEMP_ACCOUNT, STEEMIT_MINER_ACCOUNT],
      claimableShares s name < claimableShares s' name

instance PaysBoth.decidable (s s' : State) : Decidable (PaysBoth s s') :=
  inferInstanceAs (Decidable (_ ∧ _ ∧ _ ∧ _))

/-- A week later the posts are paid, and the fund loses something. -/
def paysFromFund (s : State) : Bool :=
  s.ledger.post_fund.any fun f =>
    s.has_hardfork 17 && decide (0 ≤ f.reward_balance) &&
      decide ((s.decayed f).recent_claims + s.dueClaims f < 2 ^ 128) &&
      s.process_comment_cashout.toOption.any fun s' =>
        decide (PaysBoth s s') &&
          s'.ledger.post_fund.any fun f' => decide (f'.reward_balance < f.reward_balance)

theorem runBlocks_fundSafe_post :
    ∃ s s' f f' log,
      (minerBlock 700000 []).beforeCashout (runBlocks (init_genesis (10 ^ 15)) postBlocks) = .ok s ∧
      s.process_comment_cashout = .ok s' ∧ s.ledger.post_fund = some f ∧
      s'.ledger.post_fund = some f' ∧ f'.reward_balance < f.reward_balance ∧ PaysBoth s s' ∧
      FundSafe s s' f log := by
  have hrun : ((minerBlock 700000 []).beforeCashout
      (runBlocks (init_genesis (10 ^ 15)) postBlocks)).toOption.any paysFromFund = true := by
    decide +kernel
  obtain ⟨s, hs, hpays⟩ := exists_ok_of_any hrun
  obtain ⟨f, hfund, hpays⟩ := (Option.any_eq_true _ _).1 hpays
  simp only [Bool.and_eq_true, decide_eq_true_eq] at hpays
  obtain ⟨⟨⟨hfork, hbalance⟩, hfits⟩, hpays⟩ := hpays
  obtain ⟨s', hs', hpays⟩ := exists_ok_of_any hpays
  obtain ⟨hboth, hpays⟩ := Bool.and_eq_true_iff.1 hpays
  obtain ⟨f', hfund', hless⟩ := (Option.any_eq_true _ _).1 hpays
  obtain ⟨log, hsafe⟩ := runBlocks_fundSafe hs hfork hfund hbalance hfits hs'
  exact ⟨s, s', f, f', log, hs, hs', hfund, hfund', of_decide_eq_true hless,
    of_decide_eq_true hboth, hsafe⟩

end Calibrd.Chain.Rewards
