import Calibrd.Chain.ShareChanges
import Calibrd.Chain.Vesting

/-!
# What each call of the vesting model does

One relation for each kind of change, and for every evaluator and maintenance step of `Vesting` the
relation that its result is in:

* `Quiet`: shares may grow, and no delegation or withdrawal changes;
* `Created`: a new account, with or without a delegation;
* `Withdrawn`: one processed withdrawal.

The loops come with a rule each (`withdrawalsFrom_rule`, `returnDelegations_rule`): what one round
keeps is kept by all.
-/

namespace Calibrd.Chain.Vesting

open Calibrd.Lib
open Calibrd.Chain.WitnessVotes (AccountId WitnessId Route STEEMIT_NULL_ACCOUNT)
open Calibrd.Chain.WitnessVotes.State (ChangedBy SameShares SplitBy vested vested_nonneg deposited
  field_update)

/-- What a record says about delegation and withdrawal. -/
def Power.stake (p : Power) : Power := { p with balance := 0, withdraw_routes := 0 }

variable (p : Power) {c : Call}

theorem Power.stake_withdraw_routes (n : ℕ) :
    { p with withdraw_routes := n }.stake = p.stake := rfl

theorem mulPrice_nonneg {amount num den r : ℤ} (h : mulPrice amount num den = .ok r) : 0 ≤ r := by
  obtain ⟨hden, h⟩ := check_decide_ok.1 h
  replace h := ok_of_check h
  cases h
  exact Int.ediv_nonneg (Int.emod_nonneg _ (by decide)) (le_of_lt hden)

namespace State

variable {s s' s1 s2 : State} {a creator : AccountId}

theorem power_modifyPower (s : State) (a : AccountId) (f : Power → Power) (x : AccountId) :
    (s.modifyPower a f).power x = if x = a then f (s.power a) else s.power x :=
  Function.update_apply s.power a _ x

theorem stake_update {m : AccountId → Power} {p : Power} (h : p.stake = (m a).stake)
    (x : AccountId) : (Function.update m a p x).stake = (m x).stake :=
  field_update Power.stake h x

/-! ## Quiet calls -/

/-- Shares may grow; delegations and withdrawals are as before. -/
structure Quiet (s s' : State) : Prop where
  num_accounts : s'.base.num_accounts = s.base.num_accounts
  shares : ∀ a, s.shares a ≤ s'.shares a
  stake : ∀ a, (s'.power a).stake = (s.power a).stake
  delegations : s'.delegations = s.delegations
  expirations : s'.expirations = s.expirations
  next_expiration_id : s'.next_expiration_id = s.next_expiration_id
  time : s.head_block_time < TIME_LIMIT → s'.head_block_time < TIME_LIMIT

theorem Quiet.of_sameShares {base : WitnessVotes.State} (h : SameShares s.base base) :
    Quiet s { s with base := base } :=
  ⟨h.num_accounts, fun a => (congrFun h.shares a).ge, fun _ => rfl, rfl, rfl, rfl, id⟩

theorem Quiet.addShares {base : WitnessVotes.State} {v fund : ℤ} (hv : 0 ≤ v)
    (h : s.base.addShares a v = .ok base) :
    Quiet s { s with base := base, total_vesting_fund_steem := fund } := by
  have hchange := ChangedBy.addShares h
  refine ⟨hchange.num_accounts, fun x => ?_, fun _ => rfl, rfl, rfl, rfl, id⟩
  have hx : base.shares x = s.base.shares x + if x = a then v else 0 := hchange.shares x
  have hle : s.base.shares x ≤ base.shares x := by
    rw [hx]
    split <;> omega
  exact hle

theorem Quiet.create_vesting {steem : ℤ} (h : s.create_vesting a steem = .ok s') : Quiet s s' := by
  obtain ⟨v, hv, h⟩ := bind_ok.1 h
  obtain ⟨base, hbase, h⟩ := bind_ok.1 h
  cases h
  exact .addShares (mulPrice_nonneg hv) (withError_eq_ok.1 hbase)

theorem Quiet.createReward {steem : ℕ} (h : s.createReward a steem = .ok s') : Quiet s s' := by
  replace h := ok_of_check h
  obtain ⟨v, -, h⟩ := bind_ok.1 h
  cases h
  exact ⟨rfl, fun _ => le_rfl, fun _ => rfl, rfl, rfl, rfl, id⟩

theorem Quiet.claim_reward_balance {reward_vests : ℕ}
    (h : s.claim_reward_balance a reward_vests = .ok s') : Quiet s s' := by
  replace h := ok_of_check h
  replace h := ok_of_check h
  obtain ⟨base, hbase, h⟩ := bind_ok.1 h
  cases h
  have hshares : Quiet s { s with base := base, total_vesting_fund_steem := 0 } :=
    .addShares (Int.natCast_nonneg _) (withError_eq_ok.1 hbase)
  exact ⟨hshares.num_accounts, hshares.shares, fun _ => rfl, rfl, rfl, rfl, id⟩

section Routes

variable {to_account : AccountId} {percent : ℕ} {auto_vest : Bool}

theorem changeRoute_cases (h : s.changeRoute a to_account percent auto_vest = .ok s') :
    (s.routes.find? (toLex (a, to_account)) = none ∧
      (s.power a).withdraw_routes < STEEMIT_MAX_WITHDRAW_ROUTES ∧
      s' = { s.modifyPower a fun p =>
          { p with withdraw_routes := (p.withdraw_routes + 1) % 2 ^ 16 } with
        routes := s.routes.insert (toLex (a, to_account)) { to_account, percent, auto_vest } }) ∨
    (∃ r, s.routes.find? (toLex (a, to_account)) = some r ∧
      s' = { s.modifyPower a fun p =>
          { p with withdraw_routes := (p.withdraw_routes + (2 ^ 16 - 1)) % 2 ^ 16 } with
        routes := s.routes.erase (toLex (a, to_account)) }) ∨
    (∃ r, s.routes.find? (toLex (a, to_account)) = some r ∧
      s' = { s with
        routes := s.routes.insert (toLex (a, to_account)) { to_account, percent, auto_vest } }) := by
  unfold State.changeRoute at h
  dsimp only at h
  split at h
  · rename_i hnone
    replace h := ok_of_check h
    obtain ⟨hlt, h⟩ := check_decide_ok.1 h
    exact .inl ⟨hnone, hlt, (Except.ok.inj h).symm⟩
  · rename_i r hsome
    split at h
    · exact .inr (.inl ⟨r, hsome, (Except.ok.inj h).symm⟩)
    · exact .inr (.inr ⟨r, hsome, (Except.ok.inj h).symm⟩)

theorem set_withdraw_vesting_route_eq_ok
    (h : s.set_withdraw_vesting_route a to_account percent auto_vest = .ok s') :
    percent ≤ STEEMIT_100_PERCENT ∧ a < s.base.num_accounts ∧
      s.changeRoute a to_account percent auto_vest = .ok s' ∧
      ((s'.routesOf a).map Route.percent).sum % 2 ^ 16 ≤ STEEMIT_100_PERCENT := by
  obtain ⟨hvalid, h⟩ := check_decide_ok.1 h
  obtain ⟨hlt, h⟩ := check_decide_ok.1 h
  replace h := ok_of_check h
  obtain ⟨s1, h1, h⟩ := bind_ok.1 h
  obtain ⟨htotal, h⟩ := check_decide_ok.1 h
  cases h
  exact ⟨hvalid, hlt, h1, htotal⟩

theorem Quiet.set_withdraw_vesting_route
    (h : s.set_withdraw_vesting_route a to_account percent auto_vest = .ok s') : Quiet s s' := by
  obtain ⟨-, -, h, -⟩ := set_withdraw_vesting_route_eq_ok h
  rcases changeRoute_cases h with ⟨-, -, rfl⟩ | ⟨_, -, rfl⟩ | ⟨_, -, rfl⟩
  · exact ⟨rfl, fun _ => le_rfl, stake_update (Power.stake_withdraw_routes _ _), rfl, rfl, rfl, id⟩
  · exact ⟨rfl, fun _ => le_rfl, stake_update (Power.stake_withdraw_routes _ _), rfl, rfl, rfl, id⟩
  · exact ⟨rfl, fun _ => le_rfl, fun _ => rfl, rfl, rfl, rfl, id⟩

end Routes

theorem Quiet.adjust_balance (s : State) (a : AccountId) (delta : ℤ) :
    Quiet s (s.modifyPower a fun p => { p with balance := p.balance + delta }) :=
  ⟨rfl, fun _ => le_rfl, stake_update rfl, rfl, rfl, rfl, id⟩

/-! ## New accounts -/

structure Created (s s' : State) (creator : AccountId) (delegation : ℤ) : Prop where
  creator_lt : creator < s.base.num_accounts
  nonneg : 0 ≤ delegation
  covered : 0 < delegation → delegation ≤ s.available creator
  num_accounts : s'.base.num_accounts = s.base.num_accounts + 1
  shares : ∀ a, a ≠ s.base.num_accounts → s.shares a ≤ s'.shares a
  new_shares : 0 ≤ s'.shares s.base.num_accounts
  new_stake : (s'.power s.base.num_accounts).stake = { received_vesting_shares := delegation }
  creator_stake : (s'.power creator).stake =
    { (s.power creator).stake with
      delegated_vesting_shares := (s.power creator).delegated_vesting_shares + delegation }
  stake : ∀ a, a ≠ s.base.num_accounts → a ≠ creator → (s'.power a).stake = (s.power a).stake
  delegations : s'.delegations =
    if 0 < delegation then
      s.delegations.insert (toLex (creator, s.base.num_accounts))
        { delegator := creator
          delegatee := s.base.num_accounts
          vesting_shares := delegation
          min_delegation_time := s.head_block_time + STEEMIT_CREATE_ACCOUNT_DELEGATION_TIME }
    else s.delegations
  expirations : s'.expirations = s.expirations
  next_expiration_id : s'.next_expiration_id = s.next_expiration_id
  time : s.head_block_time < TIME_LIMIT → s'.head_block_time < TIME_LIMIT

variable {delegation : ℤ} {P : State → Prop}

theorem Created.quiet (h : Created s s1 creator delegation) (h' : Quiet s1 s') :
    Created s s' creator delegation where
  creator_lt := h.creator_lt
  nonneg := h.nonneg
  covered := h.covered
  num_accounts := h'.num_accounts.trans h.num_accounts
  shares a ha := (h.shares a ha).trans (h'.shares a)
  new_shares := h.new_shares.trans (h'.shares _)
  new_stake := (h'.stake _).trans h.new_stake
  creator_stake := (h'.stake _).trans h.creator_stake
  stake a ha hc := (h'.stake a).trans (h.stake a ha hc)
  delegations := h'.delegations.trans h.delegations
  expirations := h'.expirations.trans h.expirations
  next_expiration_id := h'.next_expiration_id.trans h.next_expiration_id
  time := h'.time ∘ h.time

theorem Created.fee {fee : ℕ} (h : Created s s1 creator delegation)
    (hfee : (if 0 < fee then s1.create_vesting s.base.num_accounts fee else .ok s1) = .ok s') :
    Created s s' creator delegation := by
  split at hfee
  · exact h.quiet (.create_vesting hfee)
  · rwa [← Except.ok.inj hfee]

theorem shares_createAccount (base : WitnessVotes.State) (x : AccountId) :
    (base.createAccount.accounts x).vesting_shares =
      if x = base.num_accounts then 0 else (base.accounts x).vesting_shares := by
  dsimp only [WitnessVotes.State.createAccount]
  rw [Function.update_apply]
  split <;> rfl

theorem Created.of_records {p q : Power} (hlt : creator < s.base.num_accounts)
    (hnonneg : 0 ≤ delegation) (hcovered : 0 < delegation → delegation ≤ s.available creator)
    (hp : p.stake = { (s.power creator).stake with
      delegated_vesting_shares := (s.power creator).delegated_vesting_shares + delegation })
    (hq : q.stake = { received_vesting_shares := delegation }) :
    Created s
      { s with
        base := s.base.createAccount
        power := Function.update (Function.update s.power creator p) s.base.num_accounts q
        delegations :=
          if 0 < delegation then
            s.delegations.insert (toLex (creator, s.base.num_accounts))
              { delegator := creator
                delegatee := s.base.num_accounts
                vesting_shares := delegation
                min_delegation_time := s.head_block_time + STEEMIT_CREATE_ACCOUNT_DELEGATION_TIME }
          else s.delegations } creator delegation where
  creator_lt := hlt
  nonneg := hnonneg
  covered := hcovered
  num_accounts := rfl
  shares x hx := ((shares_createAccount s.base x).trans (if_neg hx)).ge
  new_shares := ((shares_createAccount s.base _).trans (if_pos rfl)).ge
  new_stake := by
    dsimp only
    rw [Function.update_self, hq]
  creator_stake := by
    dsimp only
    rw [Function.update_of_ne (Nat.ne_of_lt hlt), Function.update_self, hp]
  stake x hn hc := by
    dsimp only
    rw [Function.update_of_ne hn, Function.update_of_ne hc]
  delegations := rfl
  expirations := rfl
  next_expiration_id := rfl
  time := id

theorem Created.account_create {fee : ℕ} (h : s.account_create creator fee = .ok s') :
    Created s s' creator 0 := by
  obtain ⟨hlt, h⟩ := check_decide_ok.1 h
  replace h := ok_of_check h
  replace h := ok_of_check h
  refine Created.fee ?_ h
  refine Created.of_records hlt le_rfl (fun h => absurd h (lt_irrefl 0)) ?_ rfl
  rw [add_zero]
  rfl

theorem Created.account_create_with_delegation {fee : ℕ}
    (h : s.account_create_with_delegation creator fee delegation = .ok s') :
    Created s s' creator delegation := by
  obtain ⟨hnonneg, h⟩ := check_decide_ok.1 h
  obtain ⟨hlt, h⟩ := check_decide_ok.1 h
  replace h := ok_of_check h
  obtain ⟨hcovered, h⟩ := check_decide_ok.1 h
  obtain ⟨target, -, h⟩ := bind_ok.1 h
  obtain ⟨current, -, h⟩ := bind_ok.1 h
  replace h := ok_of_check h
  replace h := ok_of_check h
  refine Created.fee ?_ h
  exact Created.of_records hlt hnonneg
    (fun _ => hcovered) rfl rfl

/-! ## Delegations -/

/-- A delegation is created or increased, or a part of it is taken back. -/
theorem delegate_vesting_shares_cases {delegator delegatee : AccountId} {v : ℤ}
    (h : s.delegate_vesting_shares delegator delegatee v = .ok s') :
    delegator ≠ delegatee ∧ 0 ≤ v ∧ delegator < s.base.num_accounts ∧
      delegatee < s.base.num_accounts ∧
      ((s.delegations.find? (toLex (delegator, delegatee)) = none ∧ v ≤ s.available delegator ∧
          s' = (s.grow delegator delegatee v).setDelegation delegator delegatee
            ⟨delegator, delegatee, v, s.head_block_time⟩) ∨
        (∃ d, s.delegations.find? (toLex (delegator, delegatee)) = some d ∧ d.vesting_shares ≤ v ∧
          v - d.vesting_shares ≤ s.available delegator ∧
          s' = (s.grow delegator delegatee (v - d.vesting_shares)).setDelegation delegator delegatee
            { d with vesting_shares := v }) ∨
        (∃ d, s.delegations.find? (toLex (delegator, delegatee)) = some d ∧ v < d.vesting_shares ∧
          s' = s.takeBack delegator delegatee d v)) := by
  obtain ⟨hne, h⟩ := check_decide_ok.1 h
  obtain ⟨hnonneg, h⟩ := check_decide_ok.1 h
  obtain ⟨hdelegator, h⟩ := check_decide_ok.1 h
  obtain ⟨hdelegatee, h⟩ := check_decide_ok.1 h
  obtain ⟨min_delegation, -, h⟩ := bind_ok.1 h
  obtain ⟨min_update, -, h⟩ := bind_ok.1 h
  refine ⟨hne, hnonneg, hdelegator,
    hdelegatee, ?_⟩
  cases hd : s.delegations.find? (toLex (delegator, delegatee)) with
  | none =>
    simp only [hd] at h
    obtain ⟨havailable, h⟩ := check_decide_ok.1 h
    replace h := ok_of_check h
    exact .inl ⟨rfl, havailable, (Except.ok.inj h).symm⟩
  | some d =>
    simp only [hd] at h
    split at h
    · rename_i hle
      replace h := ok_of_check h
      obtain ⟨havailable, h⟩ := check_decide_ok.1 h
      exact .inr (.inl ⟨d, rfl, hle, havailable, (Except.ok.inj h).symm⟩)
    · rename_i hlt
      refine .inr (.inr ⟨d, rfl, not_le.1 hlt, ?_⟩)
      split at h
      · replace h := ok_of_check h
        replace h := ok_of_check h
        exact (Except.ok.inj h).symm
      · replace h := ok_of_check h
        exact (Except.ok.inj h).symm

/-- What one returned delegation keeps, `clear_expired_delegations` keeps. -/
theorem returnDelegations_rule (hstep : ∀ {s : State} {key : ℕ ×ₗ ℕ} {e : Expiration}, P s →
      s.expirations.find? key = some e → P (s.returnDelegation key e)) (hP : P s) :
    P s.clear_expired_delegations := by
  -- the rows still to come are rows of the table, since one round removes the row it is at
  have hloop : ∀ (rows : List ((ℕ ×ₗ ℕ) × Expiration)) (s : State), P s →
      (rows.map Prod.fst).Nodup → (∀ r ∈ rows, s.expirations.find? r.1 = some r.2) →
      P (returnDelegations rows s) := by
    intro rows
    induction rows with
    | nil => exact fun s hs _ _ => hs
    | cons r rest ih =>
      intro s hs hnodup hrows
      obtain ⟨hfirst, hrest⟩ := List.nodup_cons.1 hnodup
      unfold returnDelegations
      split
      · refine ih _ (hstep hs (hrows r List.mem_cons_self)) hrest fun q hq => ?_
        have hne : r.1 ≠ q.1 := fun he => hfirst (he ▸ List.mem_map_of_mem hq)
        have hkeep : (s.expirations.erase r.1).find? q.1 = some q.2 := by
          rw [OrdMap.find?_erase, if_neg hne]
          exact hrows q (List.mem_cons_of_mem r hq)
        exact hkeep
      · exact hs
  exact hloop _ s hP s.expirations.nodup_keys fun r hr => OrdMap.mem_rows.1 hr

/-! ## Withdrawals -/

/-- The rate of a withdrawal of `v`. -/
def withdrawRate (v : ℤ) : ℤ :=
  if v.tdiv STEEMIT_VESTING_WITHDRAW_INTERVALS = 0 then 1
  else v.tdiv STEEMIT_VESTING_WITHDRAW_INTERVALS

theorem withdraw_vesting_cases {v : ℤ} (h : s.withdraw_vesting a v = .ok s') :
    a < s.base.num_accounts ∧ v ≤ s.shares a - (s.power a).delegated_vesting_shares ∧
      ((v = 0 ∧ s' = s.modifyPower a fun p =>
          { p with
            vesting_withdraw_rate := 0
            next_vesting_withdrawal := none
            to_withdraw := 0
            withdrawn := 0 }) ∨
        (v ≠ 0 ∧ s' = s.modifyPower a fun p =>
          { p with
            vesting_withdraw_rate := withdrawRate v
            next_vesting_withdrawal :=
              some (s.head_block_time + STEEMIT_VESTING_WITHDRAW_INTERVAL_SECONDS)
            to_withdraw := v
            withdrawn := 0 })) := by
  obtain ⟨hlt, h⟩ := check_decide_ok.1 h
  replace h := ok_of_check h
  obtain ⟨hv, h⟩ := check_decide_ok.1 h
  obtain ⟨fee_vests, -, h⟩ := bind_ok.1 h
  replace h := ok_of_check h
  refine ⟨hlt, hv, ?_⟩
  split at h
  · rename_i hzero
    replace h := ok_of_check h
    exact .inl ⟨hzero, (Except.ok.inj h).symm⟩
  · rename_i hzero
    replace h := ok_of_check h
    exact .inr ⟨hzero, (Except.ok.inj h).symm⟩

theorem pay_keeps {β : Type} {f : Power → β} (hf : ∀ p balance, f { p with balance } = f p)
    (m : Payout) (a : AccountId) (vests steem : ℤ) (x : AccountId) :
    f ((m.pay a vests steem).power x) = f (m.power x) :=
  field_update f (hf _ _) x

theorem payRoutes_keeps {β : Type} {f : Power → β} (hf : ∀ p balance, f { p with balance } = f p)
    {to_withdraw : ℕ} {routes : List Route} {m m' : Payout}
    (h : payRoutes to_withdraw routes m = .ok m') (x : AccountId) :
    f (m'.power x) = f (m.power x) := by
  induction routes generalizing m with
  | nil => rw [← Except.ok.inj h]
  | cons r rest ih =>
    unfold payRoutes at h
    split at h
    · exact ih h
    · obtain ⟨converted, -, h⟩ := bind_ok.1 h
      rw [ih h]
      split
      · exact pay_keeps hf m _ _ _ x
      · rfl

theorem stake_balance (balance : ℤ) : { p with balance }.stake = p.stake := rfl

theorem stake_settle (to_withdraw shares : ℤ) :
    (settle p to_withdraw shares).stake = settle p.stake to_withdraw shares := by
  by_cases hc : p.to_withdraw ≤ p.withdrawn + to_withdraw ∨ shares = 0
  · simp only [settle, Power.stake, hc, if_true]
  · simp only [settle, Power.stake, hc, if_false]

theorem settle_keeps {β : Type} {f : Power → β}
    (hf : ∀ p withdrawn rate next, f { p with
      withdrawn, vesting_withdraw_rate := rate, next_vesting_withdrawal := next } = f p)
    (to_withdraw shares : ℤ) : f (settle p to_withdraw shares) = f p := by
  unfold settle
  dsimp only
  split <;> exact hf p _ _ _

structure Withdrawn (s s' : State) (a : AccountId) : Prop where
  amount : 0 ≤ s.withdrawalAmount a
  base : ChangedBy s.base s'.base
    (fun x => vested (s.withdrawalAmount a).toNat (s.routesOf a) x +
      if x = a then -((s.withdrawalAmount a).toNat : ℤ) else 0)
    (deposited true (s.withdrawalAmount a).toNat (s.routesOf a) - (s.withdrawalAmount a).toNat)
  stake : ∀ x, x ≠ a → (s'.power x).stake = (s.power x).stake
  own_stake : (s'.power a).stake = settle (s.power a).stake (s.withdrawalAmount a) (s'.shares a)
  delegations : s'.delegations = s.delegations
  expirations : s'.expirations = s.expirations
  next_expiration_id : s'.next_expiration_id = s.next_expiration_id
  head_block_time : s'.head_block_time = s.head_block_time

theorem Withdrawn.processWithdrawal (h : s.processWithdrawal a = .ok s') : Withdrawn s s' a := by
  simp only [State.processWithdrawal, bind_ok, exists_check_eq_ok] at h
  obtain ⟨hamount, base, hbase, paid, hpaid, converted, -, h⟩ := h
  have hamount := of_decide_eq_true hamount
  cases h
  refine ⟨hamount, ChangedBy.withdrawVesting (withError_eq_ok.1 hbase), fun x hx => ?_, ?_, rfl, rfl,
    rfl, rfl⟩
  · dsimp only
    rw [Function.update_of_ne hx, pay_keeps stake_balance, payRoutes_keeps stake_balance hpaid]
  · dsimp only
    rw [Function.update_self, stake_settle, Int.toNat_of_nonneg hamount]
    congr 1
    exact (pay_keeps stake_balance paid a _ _ a).trans (payRoutes_keeps stake_balance hpaid a)

theorem Withdrawn.next_vesting_withdrawal (h : Withdrawn s s' a) {x : AccountId} (hx : x ≠ a) :
    (s'.power x).next_vesting_withdrawal = (s.power x).next_vesting_withdrawal := by
  have hnext := congrArg Power.next_vesting_withdrawal (h.stake x hx)
  exact hnext

theorem Withdrawn.shares_le (h : Withdrawn s s' a) {x : AccountId} (hx : x ≠ a) :
    s.shares x ≤ s'.shares x := by
  have hshares : s'.shares x = s.shares x + _ := h.base.shares x
  have hvested := vested_nonneg (s.withdrawalAmount a).toNat (s.routesOf a) x
  rw [if_neg hx] at hshares
  omega

theorem Withdrawn.own_shares_le (h : Withdrawn s s' a) :
    s.shares a - s.withdrawalAmount a ≤ s'.shares a := by
  have hshares : s'.shares a = s.shares a + _ := h.base.shares a
  have hvested := vested_nonneg (s.withdrawalAmount a).toNat (s.routesOf a) a
  have hamount := Int.toNat_of_nonneg h.amount
  rw [if_pos rfl] at hshares
  omega

theorem mem_withdrawalIndex {k : ℕ ×ₗ ℕ} :
    k ∈ s.withdrawalIndex ↔ (ofLex k).2 < s.base.num_accounts ∧
      (s.power (ofLex k).2).next_vesting_withdrawal = some (ofLex k).1 := by
  unfold withdrawalIndex
  rw [List.mem_mergeSort, List.mem_filterMap]
  constructor
  · rintro ⟨x, hx, hk⟩
    obtain ⟨t, ht, rfl⟩ := Option.map_eq_some_iff.1 hk
    exact ⟨List.mem_range.1 hx, ht⟩
  · rintro ⟨hlt, ht⟩
    exact ⟨(ofLex k).2, List.mem_range.2 hlt, by rw [ht]; rfl⟩

/-- The place after `current` is still in the index when `current` has been processed. -/
theorem Withdrawn.mem_withdrawalIndex {current k : ℕ ×ₗ ℕ} (h : Withdrawn s s' (ofLex current).2)
    (hcurrent : current ∈ s.withdrawalIndex)
    (hk : s.withdrawalIndex.find? (fun k => decide (current < k)) = some k) :
    k ∈ s'.withdrawalIndex := by
  have hlt : current < k := by simpa using List.find?_some hk
  have hmem := State.mem_withdrawalIndex.1 (List.mem_of_find?_eq_some hk)
  have hne : (ofLex k).2 ≠ (ofLex current).2 := by
    intro he
    have hcurrent := (State.mem_withdrawalIndex.1 hcurrent).2
    rw [← he, hmem.2] at hcurrent
    exact hlt.ne (congrArg toLex (Prod.ext (Option.some.inj hcurrent).symm he.symm))
  rw [State.mem_withdrawalIndex, h.next_vesting_withdrawal hne, h.base.num_accounts]
  exact hmem

/-- What the loop of `process_vesting_withdrawals` withdraws from `a`. -/
def withdrawalsFrom (a : AccountId) : ℕ → Option (ℕ ×ₗ ℕ) → State → List ℤ
  | 0, _, _ => []
  | _, none, _ => []
  | steps + 1, some current, s =>
    if s.head_block_time < (ofLex current).1 then []
    else
      match s.processWithdrawal (ofLex current).2 with
      | .error _ => []
      | .ok s' =>
        (if (ofLex current).2 = a then [s.withdrawalAmount a] else []) ++
          withdrawalsFrom a steps (s.withdrawalIndex.find? fun k => decide (current < k)) s'

variable {steps : ℕ} {current : Option (ℕ ×ₗ ℕ)}

/-- The loop ends, or there is one more round. -/
theorem processFrom_cases (h : processFrom steps current s = .ok s') :
    (s' = s ∧ withdrawalsFrom a steps current s = [] ∧ ∀ k ∈ current, s.head_block_time < (ofLex k).1) ∨
      ∃ rest k s1, steps = rest + 1 ∧ current = some k ∧ s.processWithdrawal (ofLex k).2 = .ok s1 ∧
        processFrom rest (s.withdrawalIndex.find? fun j => decide (k < j)) s1 = .ok s' ∧
        withdrawalsFrom a steps current s =
          (if (ofLex k).2 = a then [s.withdrawalAmount a] else []) ++
            withdrawalsFrom a rest (s.withdrawalIndex.find? fun j => decide (k < j)) s1 := by
  unfold processFrom at h
  cases current with
  | none =>
    refine .inl ⟨(Except.ok.inj h).symm, ?_, nofun⟩
    cases steps <;> rfl
  | some k =>
    dsimp only at h
    split at h
    · rename_i hlater
      refine .inl ⟨(Except.ok.inj h).symm, ?_, fun _ hk => Option.some.inj hk ▸ hlater⟩
      cases steps with
      | zero => rfl
      | succ rest => exact if_pos hlater
    · rename_i hdue
      cases steps with
      | zero => cases h
      | succ rest =>
        obtain ⟨s1, h1, h⟩ := bind_ok.1 h
        refine .inr ⟨rest, k, s1, rfl, rfl, h1, h, ?_⟩
        rw [withdrawalsFrom, if_neg hdue, h1]

/-- A statement about the state and the withdrawals of `a` so far. -/
theorem withdrawalsFrom_rule {P : State → List ℤ → Prop}
    (hstep : ∀ {s s' : State} {x : AccountId} {t : ℕ} {paid : List ℤ}, P s paid →
      x < s.base.num_accounts → (s.power x).next_vesting_withdrawal = some t →
      s.processWithdrawal x = .ok s' →
      P s' (paid ++ if x = a then [s.withdrawalAmount a] else []))
    (paid : List ℤ) (hcurrent : ∀ k ∈ current, k ∈ s.withdrawalIndex) (hP : P s paid)
    (h : processFrom steps current s = .ok s') :
    P s' (paid ++ withdrawalsFrom a steps current s) := by
  induction steps using Nat.strong_induction_on generalizing current s paid with
  | _ steps ih =>
    obtain ⟨rfl, hnil, -⟩ | ⟨rest, k, s1, rfl, rfl, h1, h, hlog⟩ := processFrom_cases (a := a) h
    · rwa [hnil, List.append_nil]
    · have hk := hcurrent k rfl
      obtain ⟨hlt, hnext⟩ := State.mem_withdrawalIndex.1 hk
      rw [hlog, ← List.append_assoc]
      exact ih rest (Nat.lt_succ_self rest) _
        (fun j hj => (Withdrawn.processWithdrawal h1).mem_withdrawalIndex hk hj)
        (hstep hP hlt hnext h1) h

/-- What one processed withdrawal keeps, the loop keeps. -/
theorem process_vesting_withdrawals_rule
    (hstep : ∀ {s s' : State} {a : AccountId} {t : ℕ}, P s → a < s.base.num_accounts →
      (s.power a).next_vesting_withdrawal = some t → s.processWithdrawal a = .ok s' → P s')
    (hP : P s) (h : s.process_vesting_withdrawals = .ok s') : P s' :=
  withdrawalsFrom_rule (a := 0) (P := fun s _ => P s) hstep []
    (fun _ hk => List.mem_of_mem_head? hk) hP h

/-! ## The null account and hardforks -/

/-- The null account without what it can spend or claim. -/
def nullEmptied (s : State) : State :=
  s.clearNullReward.modifyPower STEEMIT_NULL_ACCOUNT fun p => { p with balance := min p.balance 0 }

/-- What `clear_null_account_balance` can do. -/
inductive NullCleared (s : State) : State → Prop
  | early (hfork : ¬s.base.has_hardfork 14) : NullCleared s s
  | balance (hzero : ¬0 < s.shares STEEMIT_NULL_ACCOUNT) : NullCleared s s.nullEmptied
  | shares {converted : ℤ} (hfork : s.base.has_hardfork 14) (hpos : 0 < s.shares STEEMIT_NULL_ACCOUNT)
      (hconverted : vestsToSteem s.base.total_vesting_shares s.total_vesting_fund_steem
        (s.shares STEEMIT_NULL_ACCOUNT) = .ok converted) :
      NullCleared s { s.nullEmptied with
        base := s.base.clear_null_account_balance
        total_vesting_fund_steem := s.total_vesting_fund_steem - converted }

theorem NullCleared.of_ok (h : s.clear_null_account_balance = .ok s') : NullCleared s s' := by
  unfold State.clear_null_account_balance at h
  split at h
  · rename_i hfork
    dsimp only at h
    split at h
    · rename_i hpos
      obtain ⟨converted, hconverted, h⟩ := bind_ok.1 h
      cases h
      exact .shares hfork hpos hconverted
    · rename_i hzero
      cases h
      exact .balance hzero
  · rename_i hfork
    cases h
    exact .early hfork

structure Cleared (s s' : State) : Prop where
  num_accounts : s'.base.num_accounts = s.base.num_accounts
  shares : ∀ a, a ≠ STEEMIT_NULL_ACCOUNT → s'.shares a = s.shares a
  null_shares : s'.shares STEEMIT_NULL_ACCOUNT = s.shares STEEMIT_NULL_ACCOUNT ∨
    s'.shares STEEMIT_NULL_ACCOUNT = 0
  stake : ∀ a, (s'.power a).stake = (s.power a).stake
  delegations : s'.delegations = s.delegations
  expirations : s'.expirations = s.expirations
  next_expiration_id : s'.next_expiration_id = s.next_expiration_id
  time : s.head_block_time < TIME_LIMIT → s'.head_block_time < TIME_LIMIT

theorem Cleared.clear_null_account_balance (h : s.clear_null_account_balance = .ok s') :
    Cleared s s' := by
  cases NullCleared.of_ok h with
  | early => exact ⟨rfl, fun _ _ => rfl, .inl rfl, fun _ => rfl, rfl, rfl, rfl, id⟩
  | balance => exact ⟨rfl, fun _ _ => rfl, .inl rfl, stake_update rfl, rfl, rfl, rfl, id⟩
  | shares hfork hpos =>
    have hbase : s.base.clear_null_account_balance =
        { s.base.modifyAccount STEEMIT_NULL_ACCOUNT fun acc => { acc with vesting_shares := 0 } with
          total_vesting_shares := s.base.total_vesting_shares - s.shares STEEMIT_NULL_ACCOUNT } :=
      if_pos ⟨hfork, hpos⟩
    refine ⟨?_, fun x hx => ?_, .inr ?_, stake_update rfl, rfl, rfl, rfl, id⟩
    · dsimp only
      rw [hbase]
      rfl
    · dsimp only [State.shares]
      rw [hbase]
      simp [WitnessVotes.State.modifyAccount, Function.update_of_ne hx]
    · dsimp only [State.shares]
      rw [hbase]
      simp [WitnessVotes.State.modifyAccount]

structure Hardforked (s s' : State) : Prop where
  base : SplitBy s.base s'.base s.base.nextSplit
  last_hardfork : s'.base.last_hardfork = s.base.last_hardfork + 1
  power : ∀ a, s'.power a =
    if s.base.last_hardfork = 0 then splitPower 1000000 (s.power a) else s.power a
  delegations : s'.delegations = s.delegations ∨
    s'.delegations = dropEmptyDelegations s.delegations
  expirations : s'.expirations = s.expirations
  next_expiration_id : s'.next_expiration_id = s.next_expiration_id
  time : s.head_block_time < TIME_LIMIT → s'.head_block_time < TIME_LIMIT

theorem Hardforked.applyNextHardfork (h : s.applyNextHardfork = .ok s') : Hardforked s s' := by
  obtain ⟨base, hbase, h⟩ := bind_ok.1 h
  obtain ⟨hsplit, hnext⟩ := SplitBy.applyNextHardfork (withError_eq_ok.1 hbase)
  cases h
  refine ⟨hsplit, hnext, fun a => ?_, ?_, rfl, rfl, id⟩
  · dsimp only
    rw [hnext]
    by_cases hzero : s.base.last_hardfork = 0
    · rw [if_pos (by omega), if_pos hzero]
    · rw [if_neg (by omega), if_neg hzero]
  · dsimp only
    split
    · exact .inr rfl
    · exact .inl rfl

end State

/-! ## All calls -/

/-- What an accepted call does. -/
inductive Effect (s : State) : Call → State → Prop
  | quiet {c : Call} {s' : State} (h : s.Quiet s') : Effect s c s'
  | created {c : Call} {s' : State} {creator : AccountId} {delegation : ℤ}
      (hsigner : c.signer = some creator) (h : s.Created s' creator delegation) : Effect s c s'
  | delegate {delegator delegatee : AccountId} {v : ℤ} {s' : State}
      (h : s.delegate_vesting_shares delegator delegatee v = .ok s') :
      Effect s (.delegate_vesting_shares delegator delegatee v) s'
  | expire : Effect s .clear_expired_delegations s.clear_expired_delegations
  | withdraw {account : AccountId} {v : ℤ} {s' : State}
      (h : s.withdraw_vesting account v = .ok s') : Effect s (.withdraw_vesting account v) s'
  | process {s' : State} (h : s.process_vesting_withdrawals = .ok s') :
      Effect s .process_vesting_withdrawals s'
  | cleared {s' : State} (h : s.Cleared s') : Effect s .clear_null_account_balance s'
  | hardfork {s' : State} (h : s.Hardforked s') : Effect s .apply_hardfork s'

theorem Call.signer_ne_null {s s' : State} (h : c.apply s = .ok s') :
    c.signer ≠ some STEEMIT_NULL_ACCOUNT :=
  of_decide_eq_true (check_bind_ok.1 h).1

theorem Effect.of_votes {s s' : State} {x : Except WitnessVotes.VoteError WitnessVotes.State}
    (hx : ∀ {base}, x = .ok base → SameShares s.base base)
    (h : (do .ok { s with base := ← withError VestingError.votes x }) = Except.ok s') :
    Effect s c s' := by
  obtain ⟨base, hbase, h⟩ := bind_ok.1 h
  cases h
  exact .quiet (.of_sameShares (hx (withError_eq_ok.1 hbase)))

theorem Call.effect {s s' : State} (h : c.apply s = .ok s') : Effect s c s' := by
  replace h := (check_bind_ok.1 h).2
  cases c with
  | create_vesting to_account steem => exact .quiet (.create_vesting h)
  | createReward to_account steem => exact .quiet (.createReward h)
  | claim_reward_balance account reward_vests => exact .quiet (.claim_reward_balance h)
  | account_create creator fee => exact .created rfl (.account_create h)
  | account_create_with_delegation creator fee delegation =>
    exact .created rfl (.account_create_with_delegation h)
  | delegate_vesting_shares delegator delegatee v => exact .delegate h
  | clear_expired_delegations =>
    cases h
    exact .expire
  | withdraw_vesting account v => exact .withdraw h
  | set_withdraw_vesting_route from_account to_account percent auto_vest =>
    exact .quiet (.set_withdraw_vesting_route h)
  | process_vesting_withdrawals => exact .process h
  | clear_null_account_balance => exact .cleared (.clear_null_account_balance h)
  | create_witness =>
    cases h
    exact .quiet (.of_sameShares ⟨rfl, rfl, rfl, rfl⟩)
  | account_witness_proxy account proxy => exact .of_votes .account_witness_proxy h
  | account_witness_vote account witness approve => exact .of_votes .account_witness_vote h
  | decline_voting_rights account => exact .of_votes .declineVotingRights h
  | apply_hardfork => exact .hardfork (.applyNextHardfork h)
  | advance_time seconds =>
    obtain ⟨htime, h⟩ := check_decide_ok.1 h
    cases h
    exact .quiet ⟨rfl, fun _ => le_rfl, fun _ => rfl, rfl, rfl, rfl, fun _ => htime⟩
  | add_to_fund steem =>
    cases h
    exact .quiet ⟨rfl, fun _ => le_rfl, fun _ => rfl, rfl, rfl, rfl, id⟩
  | set_account_creation_fee fee =>
    cases h
    exact .quiet ⟨rfl, fun _ => le_rfl, fun _ => rfl, rfl, rfl, rfl, id⟩
  | adjust_balance account delta =>
    cases h
    exact .quiet (.adjust_balance s account delta)

theorem State.num_accounts_process_vesting_withdrawals {s s' : State}
    (h : s.process_vesting_withdrawals = .ok s') : s'.base.num_accounts = s.base.num_accounts :=
  process_vesting_withdrawals_rule
    (P := fun s' : State => s'.base.num_accounts = s.base.num_accounts)
    (fun hP _ _ hs => (Withdrawn.processWithdrawal hs).base.num_accounts.trans hP) rfl h

theorem Effect.num_accounts_le {s s' : State} (h : Effect s c s') :
    s.base.num_accounts ≤ s'.base.num_accounts := by
  cases h with
  | quiet h => exact h.num_accounts.ge
  | created _ h => exact (Nat.le_succ _).trans_eq h.num_accounts.symm
  | delegate h =>
    obtain ⟨-, -, -, -, ⟨-, -, rfl⟩ | ⟨d, -, -, -, rfl⟩ | ⟨d, -, -, rfl⟩⟩ :=
      State.delegate_vesting_shares_cases h
    · exact le_rfl
    · exact le_rfl
    · exact le_rfl
  | expire =>
    exact State.returnDelegations_rule (P := fun s' => s.base.num_accounts ≤ s'.base.num_accounts)
      (fun hP _ => hP) le_rfl
  | withdraw h =>
    obtain ⟨-, -, ⟨-, rfl⟩ | ⟨-, rfl⟩⟩ := State.withdraw_vesting_cases h
    · exact le_rfl
    · exact le_rfl
  | process h => exact (State.num_accounts_process_vesting_withdrawals h).ge
  | cleared h => exact h.num_accounts.ge
  | hardfork h => exact h.base.num_accounts.ge

theorem Effect.time_lt {s s' : State} (h : Effect s c s') (ht : s.head_block_time < TIME_LIMIT) :
    s'.head_block_time < TIME_LIMIT := by
  cases h with
  | quiet h => exact h.time ht
  | created _ h => exact h.time ht
  | delegate h =>
    obtain ⟨-, -, -, -, ⟨-, -, rfl⟩ | ⟨d, -, -, -, rfl⟩ | ⟨d, -, -, rfl⟩⟩ :=
      State.delegate_vesting_shares_cases h
    · exact ht
    · exact ht
    · exact ht
  | expire =>
    exact State.returnDelegations_rule (P := fun s' => s'.head_block_time < TIME_LIMIT)
      (fun hP _ => hP) ht
  | withdraw h =>
    obtain ⟨-, -, ⟨-, rfl⟩ | ⟨-, rfl⟩⟩ := State.withdraw_vesting_cases h
    · exact ht
    · exact ht
  | process h =>
    exact State.process_vesting_withdrawals_rule (P := fun s' => s'.head_block_time < TIME_LIMIT)
      (fun hP _ _ hs => (State.Withdrawn.processWithdrawal hs).head_block_time.trans_lt hP) ht h
  | cleared h => exact h.time ht
  | hardfork h => exact h.time ht

/-- No sum of a time and a period wraps. -/
theorem run_add_period_lt (calls : List Call) {period : ℕ} (hperiod : period ≤ 60 * 60 * 24 * 30) :
    (run genesis calls).head_block_time + period < 2 ^ 32 :=
  add_period_lt (runCalls_rule_all (P := fun s : State => s.head_block_time < TIME_LIMIT)
    (fun ht hs => (Call.effect hs).time_lt ht) (by decide) calls) hperiod

end Calibrd.Chain.Vesting
