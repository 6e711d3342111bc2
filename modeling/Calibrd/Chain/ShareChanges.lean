import Calibrd.Chain.VoteProxies

/-!
# What the calls of the vote model do to shares

The adjustments of votes never change the shares of an account. This holds in every state, so each
call of `WitnessVotes` has an exact effect on the shares, their total and the number of accounts:

* the evaluators of votes and proxies have none (`SameShares`);
* additions and withdrawals change the shares by amounts that are read off the call (`ChangedBy`).
-/

namespace Calibrd.Chain.WitnessVotes.State

open Calibrd.Lib Calibrd.Lib.Forest

variable {s s' s1 s2 : State} {a x : AccountId}

/-! ## Calls without an effect on shares -/

structure SameShares (s s' : State) : Prop where
  num_accounts : s'.num_accounts = s.num_accounts
  last_hardfork : s'.last_hardfork = s.last_hardfork
  total : s'.total_vesting_shares = s.total_vesting_shares
  shares : s'.shares = s.shares

theorem SameShares.trans (h : SameShares s s1) (h' : SameShares s1 s2) : SameShares s s2 where
  num_accounts := h'.num_accounts.trans h.num_accounts
  last_hardfork := h'.last_hardfork.trans h.last_hardfork
  total := h'.total.trans h.total
  shares := h'.shares.trans h.shares

theorem SameShares.modifyAccount (s : State) (a : AccountId) {f : Account → Account}
    (h : ∀ acc, (f acc).vesting_shares = acc.vesting_shares) :
    SameShares s (s.modifyAccount a f) := by
  refine ⟨rfl, rfl, rfl, ?_⟩
  funext x
  exact field_modifyAccount Account.vesting_shares (h _) x

theorem SameShares.adjust_witness_votes {delta : ℤ}
    (h : s.adjust_witness_votes a delta = .ok s') : SameShares s s' := by
  rw [adjustAll_spec h]
  exact ⟨rfl, rfl, rfl, rfl⟩

theorem SameShares.adjustChain {change : ℕ → ℕ → ℤ} {total : ℕ → ℤ} {left depth : ℕ}
    (h : adjustChain change total left depth a s = .ok s') : SameShares s s' := by
  obtain ⟨f, g, rfl⟩ := adjustChain_shifted h
  exact ⟨rfl, rfl, rfl, rfl⟩

theorem SameShares.clear_witness_votes (s : State) (a : AccountId) :
    SameShares s (s.clear_witness_votes a) := by
  unfold State.clear_witness_votes
  dsimp only
  split
  · have hcount := SameShares.modifyAccount s a
      (f := fun acc => { acc with witnesses_voted_for := 0 }) fun _ => rfl
    exact ⟨hcount.num_accounts, hcount.last_hardfork, hcount.total, hcount.shares⟩
  · exact ⟨rfl, rfl, rfl, rfl⟩

theorem SameShares.account_witness_proxy {proxy : Option AccountId}
    (h : s.account_witness_proxy a proxy = .ok s') : SameShares s s' := by
  replace h := ok_of_check h
  replace h := ok_of_check h
  replace h := ok_of_check h
  replace h := ok_of_check h
  obtain ⟨s1, h1, h⟩ := bind_ok.1 h
  refine (SameShares.adjustChain h1).trans ?_
  cases proxy with
  | none =>
    cases h
    exact .modifyAccount s1 a fun _ => rfl
  | some p =>
    replace h := ok_of_check h
    obtain ⟨u, -, h⟩ := bind_ok.1 h
    refine (SameShares.clear_witness_votes s1 a).trans (.trans ?_ (.adjustChain h))
    exact .modifyAccount _ a fun _ => rfl

theorem SameShares.account_witness_vote {v : WitnessId} {approve : Bool}
    (h : s.account_witness_vote a v approve = .ok s') : SameShares s s' := by
  obtain ⟨-, rfl⟩ | ⟨-, -, -, -, -, -, -, rfl⟩ := account_witness_vote_cases h
  · exact ⟨rfl, rfl, rfl, shares_revoted⟩
  · exact ⟨rfl, rfl, rfl, shares_revoted⟩

theorem SameShares.declineVotingRights (h : s.declineVotingRights a = .ok s') :
    SameShares s s' := by
  replace h := ok_of_check h
  obtain ⟨s1, h1, h⟩ := bind_ok.1 h
  cases h
  refine (SameShares.adjustChain h1).trans ((SameShares.clear_witness_votes s1 a).trans ?_)
  exact .modifyAccount _ a fun _ => rfl

theorem SameShares.tallyAccounts {l : List AccountId} (h : tallyAccounts l s = .ok s') :
    SameShares s s' := by
  induction l generalizing s with
  | nil =>
    cases h
    exact ⟨rfl, rfl, rfl, rfl⟩
  | cons a rest ih =>
    unfold State.tallyAccounts at h
    split at h
    · exact ih h
    · obtain ⟨s1, h1, h⟩ := bind_ok.1 h
      exact (SameShares.adjust_witness_votes h1).trans (ih h)

theorem SameShares.retally_witness_votes (h : s.retally_witness_votes = .ok s') :
    SameShares s s' := by
  have htally := SameShares.tallyAccounts h
  exact ⟨htally.num_accounts, htally.last_hardfork, htally.total, htally.shares⟩

/-! ## Additions and withdrawals -/

/-- `d x` more shares for each account `x`, and `t` more in total. -/
structure ChangedBy (s s' : State) (d : AccountId → ℤ) (t : ℤ) : Prop where
  num_accounts : s'.num_accounts = s.num_accounts
  last_hardfork : s'.last_hardfork = s.last_hardfork
  total : s'.total_vesting_shares = s.total_vesting_shares + t
  shares : ∀ x, s'.shares x = s.shares x + d x
  /-- Only accounts that exist change. -/
  fresh : ∀ x, s.num_accounts ≤ x → d x = 0

variable {d d1 d2 : AccountId → ℤ} {t t1 t2 : ℤ}

theorem SameShares.changedBy (h : SameShares s s') : ChangedBy s s' (fun _ => 0) 0 :=
  ⟨h.num_accounts, h.last_hardfork, by rw [h.total, add_zero],
    fun x => by rw [h.shares, add_zero], fun _ _ => rfl⟩

theorem ChangedBy.trans (h1 : ChangedBy s s1 d1 t1) (h2 : ChangedBy s1 s2 d2 t2) :
    ChangedBy s s2 (fun x => d1 x + d2 x) (t1 + t2) where
  num_accounts := h2.num_accounts.trans h1.num_accounts
  last_hardfork := h2.last_hardfork.trans h1.last_hardfork
  total := by rw [h2.total, h1.total, add_assoc]
  shares x := by rw [h2.shares, h1.shares, add_assoc]
  fresh x hx := by
    rw [h1.fresh x hx, h2.fresh x (by rw [h1.num_accounts]; exact hx), add_zero]

theorem ChangedBy.same (h : ChangedBy s s1 d t) (h' : SameShares s1 s2) : ChangedBy s s2 d t where
  num_accounts := h'.num_accounts.trans h.num_accounts
  last_hardfork := h'.last_hardfork.trans h.last_hardfork
  total := h'.total.trans h.total
  shares x := by rw [h'.shares, h.shares]
  fresh := h.fresh

theorem ChangedBy.withShares (ha : a < s.num_accounts) (v t : ℤ) :
    ChangedBy s (s.withShares a v (s.total_vesting_shares + t)) (fun x => if x = a then v else 0)
      t where
  num_accounts := rfl
  last_hardfork := rfl
  total := rfl
  shares x := by
    rw [shares_withShares]
    by_cases hx : x = a
    · rw [hx, Function.update_self, if_pos rfl]
    · rw [Function.update_of_ne hx, if_neg hx, add_zero]
  fresh x hx := if_neg (Nat.ne_of_gt (ha.trans_le hx))

theorem ChangedBy.addShares {v : ℤ} (h : s.addShares a v = .ok s') :
    ChangedBy s s' (fun x => if x = a then v else 0) v := by
  obtain ⟨ha, h⟩ := check_decide_ok.1 h
  exact (ChangedBy.withShares ha v v).same (.adjustChain h)

/-- What the auto-vest routes give to `x`. -/
def vested (to_withdraw : ℕ) : List Route → AccountId → ℤ
  | [], _ => 0
  | r :: rest, x =>
    (if r.auto_vest ∧ r.to_account = x then (r.to_deposit to_withdraw : ℤ) else 0) +
      vested to_withdraw rest x

theorem vested_nonneg (to_withdraw : ℕ) (routes : List Route) (x : AccountId) :
    0 ≤ vested to_withdraw routes x := by
  induction routes with
  | nil => exact le_rfl
  | cons r rest ih =>
    rw [vested]
    split
    · exact add_nonneg (Int.natCast_nonneg _) ih
    · rwa [zero_add]

theorem ChangedBy.depositVests {to_withdraw : ℕ} {routes : List Route}
    (h : depositVests to_withdraw routes s = .ok s') :
    ChangedBy s s' (vested to_withdraw routes) 0 := by
  induction routes generalizing s with
  | nil =>
    cases h
    exact (SameShares.changedBy ⟨rfl, rfl, rfl, rfl⟩)
  | cons r rest ih =>
    unfold State.depositVests at h
    split_ifs at h with hr
    · obtain ⟨ha, h⟩ := check_decide_ok.1 h
      obtain ⟨s1, h1, h⟩ := bind_ok.1 h
      have hvotes : SameShares
          (s.withShares r.to_account (r.to_deposit to_withdraw) (s.total_vesting_shares + 0)) s1 := by
        rw [add_zero]
        exact .adjustChain h1
      have hfirst := (ChangedBy.withShares ha (r.to_deposit to_withdraw) 0).same
        hvotes
      have hall := hfirst.trans (ih h)
      have hd : ∀ x, vested to_withdraw (r :: rest) x =
          (if x = r.to_account then (r.to_deposit to_withdraw : ℤ) else 0) +
            vested to_withdraw rest x := by
        intro x
        simp only [vested, hr.1, true_and, eq_comm (a := x)]
      exact ⟨hall.num_accounts, hall.last_hardfork, hall.total,
        fun x => by rw [hd]; exact hall.shares x, fun x hx => by rw [hd]; exact hall.fresh x hx⟩
    · -- a route that is skipped gives nothing
      have hskip : ∀ x, vested to_withdraw (r :: rest) x = vested to_withdraw rest x := by
        intro x
        rw [vested]
        split
        · rename_i hx
          have hzero : r.to_deposit to_withdraw = 0 := by
            by_contra hne
            exact hr ⟨hx.1, Nat.pos_of_ne_zero hne⟩
          rw [hzero, Nat.cast_zero, zero_add]
        · rw [zero_add]
      have hrest := ih h
      exact ⟨hrest.num_accounts, hrest.last_hardfork, hrest.total,
        fun x => by rw [hskip]; exact hrest.shares x, fun x hx => by rw [hskip]; exact hrest.fresh x hx⟩

theorem ChangedBy.withdrawVesting {to_withdraw : ℕ} {routes : List Route}
    (h : s.withdrawVesting a to_withdraw routes = .ok s') :
    ChangedBy s s'
      (fun x => vested to_withdraw routes x + if x = a then -(to_withdraw : ℤ) else 0)
      (deposited true to_withdraw routes - to_withdraw) := by
  obtain ⟨ha, h⟩ := check_decide_ok.1 h
  obtain ⟨s1, h1, h⟩ := bind_ok.1 h
  replace h := ok_of_check h
  have hdeposit := ChangedBy.depositVests h1
  have ha1 : a < s1.num_accounts := hdeposit.num_accounts ▸ ha
  have hwithdraw := ChangedBy.withShares ha1 (-(to_withdraw : ℤ))
    (deposited true to_withdraw routes - to_withdraw)
  have hall := hdeposit.trans hwithdraw
  rw [zero_add] at hall
  refine hall.same ?_
  -- the last step only adjusts votes
  have hstate : s1.withShares a (-(to_withdraw : ℤ))
        (s1.total_vesting_shares + (deposited true to_withdraw routes - to_withdraw)) =
      { s1.modifyAccount a fun acc =>
          { acc with vesting_shares := acc.vesting_shares - to_withdraw } with
        total_vesting_shares := s1.total_vesting_shares - deposited false to_withdraw routes -
          (to_withdraw - deposited false to_withdraw routes - deposited true to_withdraw routes : ℤ) } := by
    have htotal : s1.total_vesting_shares + (deposited true to_withdraw routes - to_withdraw : ℤ) =
        s1.total_vesting_shares - deposited false to_withdraw routes -
          (to_withdraw - deposited false to_withdraw routes - deposited true to_withdraw routes : ℤ) := by
      omega
    rw [State.withShares, htotal]
    rfl
  rw [hstate]
  dsimp only at h
  split at h
  · exact .adjustChain h
  · cases h
    exact ⟨rfl, rfl, rfl, rfl⟩

/-! ## Hardforks -/

/-- What the next hardfork multiplies all shares by. -/
def nextSplit (s : State) : ℤ := if s.last_hardfork = 0 then 1000000 else 1

theorem one_le_nextSplit (s : State) : 1 ≤ s.nextSplit := by
  unfold nextSplit
  split <;> omega

structure SplitBy (s s' : State) (m : ℤ) : Prop where
  num_accounts : s'.num_accounts = s.num_accounts
  total : s'.total_vesting_shares = s.total_vesting_shares * m
  shares : ∀ x, s'.shares x = s.shares x * m

theorem SameShares.splitBy (h : SameShares s s') : SplitBy s s' 1 :=
  ⟨h.num_accounts, by rw [h.total, mul_one], fun x => by rw [h.shares, mul_one]⟩

theorem SplitBy.hardforkChanges (h : s.hardforkChanges (s.last_hardfork + 1) = .ok s') :
    SplitBy s s' s.nextSplit := by
  by_cases hzero : s.last_hardfork = 0
  · rw [nextSplit, if_pos hzero]
    rw [hzero] at h
    cases h
    exact ⟨rfl, rfl, fun _ => rfl⟩
  · rw [nextSplit, if_neg hzero]
    unfold State.hardforkChanges at h
    split at h
    · omega
    · exact (SameShares.retally_witness_votes h).splitBy
    · exact (SameShares.retally_witness_votes h).splitBy
    all_goals
      cases h
      refine SameShares.splitBy ?_
      exact ⟨rfl, rfl, rfl, rfl⟩

theorem SplitBy.applyNextHardfork (h : s.applyNextHardfork = .ok s') :
    SplitBy s s' s.nextSplit ∧ s'.last_hardfork = s.last_hardfork + 1 := by
  replace h := ok_of_check h
  obtain ⟨s1, h1, h⟩ := bind_ok.1 h
  have hsplit := SplitBy.hardforkChanges h1
  cases h
  exact ⟨⟨hsplit.num_accounts, hsplit.total, hsplit.shares⟩, rfl⟩

end Calibrd.Chain.WitnessVotes.State
