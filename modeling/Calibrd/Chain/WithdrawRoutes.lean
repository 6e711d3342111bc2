import Calibrd.Chain.VestingSteps

/-!
# Withdraw routes

The routes of an account, of `set_withdraw_vesting_route`, and what a weekly withdrawal does with
them. The table is read from behind the pair of the account and the id `0`, in the evaluator and in
both passes of `process_vesting_withdrawals`, so a route to account `0` neither counts for the limit
nor is paid.

`Routed` holds in every run: the counts are exact, and the routes that are read stay within 100%. An
account that never sets a route to account `0` has in addition what is meant (`run_routesOk`).
-/

namespace Calibrd.Chain.Vesting

open Calibrd.Lib
open Calibrd.Chain.WitnessVotes (AccountId Route)
open Calibrd.Chain.WitnessVotes.State (ChangedBy vested deposited)

/-! ## What is meant -/

/-- All routes of `a`. -/
def State.allRoutes (s : State) (a : AccountId) : List Route :=
  (s.routes.rows.filter fun r => (ofLex r.1).1 = a).map Prod.snd

/-- Shares are converted for one account after the other, each time at the price that the ones before
have left. -/
def convertAll : List (AccountId × ℤ) → Payout → Except VestingError Payout
  | [], m => .ok m
  | (a, vests) :: rest, m => do
    let steem ← vestsToSteem m.total m.fund vests
    convertAll rest (m.pay a vests steem)

/-- What the routes that do not vest again convert, and for whom. -/
def conversions (to_withdraw : ℕ) (routes : List Route) : List (AccountId × ℤ) :=
  (routes.filter fun r => r.auto_vest = false).map fun r => (r.to_account, (r.to_deposit to_withdraw : ℤ))

/-- What the routes take of a withdrawal. -/
def routed (to_withdraw : ℕ) (routes : List Route) : ℕ :=
  (routes.map fun r => r.to_deposit to_withdraw).sum

/-- A withdrawal of `w` shares of `a` by the given routes: each target gets its part as shares or
converted, and `a` the rest, converted. -/
structure WithdrawnBy (s s' : State) (a : AccountId) (w : ℕ) (routes : List Route) : Prop where
  covered : routed w routes ≤ w
  shares : ∀ x, s'.shares x = s.shares x + vested w routes x - if x = a then (w : ℤ) else 0
  paid : ∃ m,
    convertAll (conversions w routes ++ [(a, (w : ℤ) - routed w routes)])
      ⟨s.base.total_vesting_shares, s.total_vesting_fund_steem, s.power⟩ = .ok m ∧
    s'.base.total_vesting_shares = m.total ∧ s'.total_vesting_fund_steem = m.fund ∧
      ∀ x, (s'.power x).balance = (m.power x).balance

/-- What the routes of `a` are for. The state `t` of a withdrawal is any with these routes, so also
one in the middle of the loop over the accounts. -/
structure RoutesOk (s : State) (a : AccountId) : Prop where
  percent : ((s.allRoutes a).map Route.percent).sum ≤ STEEMIT_100_PERCENT
  count : (s.power a).withdraw_routes = (s.allRoutes a).length
  bound : (s.allRoutes a).length ≤ STEEMIT_MAX_WITHDRAW_ROUTES
  withdrawal : ∀ t t' : State, t.routes = s.routes → t.processWithdrawal a = .ok t' →
    WithdrawnBy t t' a (t.withdrawalAmount a).toNat (s.allRoutes a)

/-! ## One withdrawal -/

section Withdrawal

variable {s s' : State} {a : AccountId} {w : ℕ}

theorem mulPrice_zero {num den r : ℤ} (h : mulPrice 0 num den = .ok r) : r = 0 := by
  replace h := ok_of_check h
  replace h := ok_of_check h
  cases h
  simp

theorem Payout.pay_zero (m : Payout) (a : AccountId) : m.pay a 0 0 = m := by
  simp [Payout.pay]

theorem convertAll_append {l l' : List (AccountId × ℤ)} {m m' : Payout}
    (h : convertAll l m = .ok m') : convertAll (l ++ l') m = convertAll l' m' := by
  induction l generalizing m with
  | nil => rw [Except.ok.inj h, List.nil_append]
  | cons r rest ih =>
    obtain ⟨steem, hsteem, h⟩ := bind_ok.1 h
    rw [List.cons_append, convertAll, hsteem]
    exact ih h

/-- The second pass over the routes; a route that gets nothing is skipped. -/
theorem convertAll_of_payRoutes {routes : List Route} {m m' : Payout}
    (h : payRoutes w routes m = .ok m') : convertAll (conversions w routes) m = .ok m' := by
  induction routes generalizing m with
  | nil => exact h
  | cons r rest ih =>
    rw [payRoutes] at h
    cases hvest : r.auto_vest with
    | true =>
      have hskip : conversions w (r :: rest) = conversions w rest := by simp [conversions, hvest]
      rw [if_pos hvest] at h
      rw [hskip]
      exact ih h
    | false =>
      have hfirst : conversions w (r :: rest) =
          (r.to_account, (r.to_deposit w : ℤ)) :: conversions w rest := by
        simp [conversions, hvest]
      rw [if_neg (by simp [hvest])] at h
      obtain ⟨converted, hconverted, h⟩ := bind_ok.1 h
      rw [hfirst, convertAll]
      refine bind_ok.2 ⟨converted, hconverted, ?_⟩
      split at h
      · exact ih h
      · rename_i hzero
        have hzero : r.to_deposit w = 0 := Nat.eq_zero_of_not_pos hzero
        rw [hzero, Nat.cast_zero] at hconverted ⊢
        rw [mulPrice_zero hconverted, Payout.pay_zero]
        exact ih h

theorem deposited_add (w : ℕ) (routes : List Route) :
    deposited false w routes + deposited true w routes = routed w routes := by
  induction routes with
  | nil => rfl
  | cons r rest ih =>
    unfold deposited routed at *
    cases hvest : r.auto_vest <;>
      simp only [List.filter_cons, hvest, decide_true, decide_false, List.map_cons, List.sum_cons,
        reduceCtorEq, Bool.false_eq_true, if_true, if_false] <;> omega

theorem total_of_convertAll {l : List (AccountId × ℤ)} {m m' : Payout}
    (h : convertAll l m = .ok m') : m'.total = m.total - (l.map Prod.snd).sum := by
  induction l generalizing m with
  | nil => simp [Except.ok.inj h]
  | cons r rest ih =>
    obtain ⟨steem, -, h⟩ := bind_ok.1 h
    rw [ih h, List.map_cons, List.sum_cons, Payout.pay]
    ring

theorem sum_conversions (w : ℕ) (routes : List Route) :
    ((conversions w routes).map Prod.snd).sum = deposited false w routes := by
  simp [conversions, deposited, Function.comp_def]

theorem routed_le_of_withdrawVesting {base base' : WitnessVotes.State} {routes : List Route}
    (h : base.withdrawVesting a w routes = .ok base') : routed w routes ≤ w := by
  replace h := ok_of_check h
  obtain ⟨base1, -, h⟩ := bind_ok.1 h
  obtain ⟨hle, -⟩ := check_bind_ok.1 h
  rw [← deposited_add]
  exact of_decide_eq_true hle

/-- A withdrawal follows the routes that the passes read. -/
theorem WithdrawnBy.processWithdrawal (h : s.processWithdrawal a = .ok s') :
    WithdrawnBy s s' a (s.withdrawalAmount a).toNat (s.routesOf a) := by
  simp only [State.processWithdrawal, bind_ok, exists_check_eq_ok] at h
  obtain ⟨-, base, hbase, paid, hpaid, converted, hconverted, h⟩ := h
  generalize (s.withdrawalAmount a).toNat = w at *
  generalize s.routesOf a = routes at *
  have hrest : (w : ℤ) - deposited false w routes - deposited true w routes = w - routed w routes := by
    rw [← deposited_add]
    push_cast
    ring
  rw [hrest] at hconverted
  have hall : convertAll (conversions w routes ++ [(a, (w : ℤ) - routed w routes)])
      ⟨s.base.total_vesting_shares, s.total_vesting_fund_steem, s.power⟩ =
      .ok (paid.pay a (w - routed w routes) converted) := by
    rw [convertAll_append (convertAll_of_payRoutes hpaid), convertAll, hconverted]
    rfl
  have hchange := ChangedBy.withdrawVesting (withError_eq_ok.1 hbase)
  cases h
  refine ⟨routed_le_of_withdrawVesting (withError_eq_ok.1 hbase), fun x => ?_, _, hall, ?_, rfl,
    fun x => ?_⟩
  · have hx : base.shares x = s.base.shares x + _ := hchange.shares x
    refine hx.trans ?_
    dsimp only [State.shares, WitnessVotes.State.shares]
    split <;> omega
  · have htotal := total_of_convertAll hall
    rw [List.map_append, List.sum_append, sum_conversions] at htotal
    rw [htotal, hchange.total, ← deposited_add]
    simp
    ring
  · by_cases hx : x = a
    · subst hx
      dsimp only
      rw [Function.update_self, State.settle_keeps (f := Power.balance) _ fun _ _ _ _ => rfl, hrest]
    · dsimp only
      rw [Function.update_of_ne hx, hrest]

end Withdrawal

/-! ## The table of routes -/

/-- What a row adds to the percentage that is read for `a`. -/
def percentRow (a : AccountId) (k : AccountId ×ₗ AccountId) (r : Route) : ℤ :=
  if (ofLex k).1 = a ∧ 0 < (ofLex k).2 then r.percent else 0

/-- What a row adds to the routes of `a`. -/
def countRow (a : AccountId) (k : AccountId ×ₗ AccountId) (_ : Route) : ℤ :=
  if (ofLex k).1 = a then 1 else 0

/-- The counts are exact and within their bound, and the routes that are read are within 100%. -/
structure Routed (s : State) : Prop where
  source : ∀ k r, s.routes.find? k = some r → (ofLex k).1 < s.base.num_accounts
  count : ∀ a, ((s.power a).withdraw_routes : ℤ) = s.routes.sumRows (countRow a)
  bound : ∀ a, (s.power a).withdraw_routes ≤ STEEMIT_MAX_WITHDRAW_ROUTES
  percent : ∀ a, s.routes.sumRows (percentRow a) ≤ STEEMIT_100_PERCENT

section Table

variable {s s' : State} {a to_account : AccountId} {percent : ℕ} {auto_vest : Bool}

theorem sumRows_percentRow (s : State) (a : AccountId) :
    s.routes.sumRows (percentRow a) = ((s.routesOf a).map Route.percent).sum := by
  rw [State.routesOf, List.map_map, Nat.cast_list_sum, List.map_map]
  exact OrdMap.sumRows_ite (fun k _ => (ofLex k).1 = a ∧ 0 < (ofLex k).2) (fun _ r => r.percent)
    s.routes

theorem sumRows_countRow (s : State) (a : AccountId) :
    s.routes.sumRows (countRow a) = (s.allRoutes a).length := by
  have hsum := OrdMap.sumRows_ite (fun k _ => (ofLex k).1 = a) (fun _ _ => 1) s.routes
  refine hsum.trans ?_
  simp [State.allRoutes]

theorem percentRow_nonneg (a : AccountId) (k : AccountId ×ₗ AccountId) (r : Route) :
    0 ≤ percentRow a k r := by
  unfold percentRow
  split <;> omega

theorem percentRow_le (a : AccountId) (k : AccountId ×ₗ AccountId) (r : Route) :
    percentRow a k r ≤ r.percent := by
  unfold percentRow
  split <;> omega

/-- The table is written at one key only. -/
theorem percent_of_changeRoute (h : s.changeRoute a to_account percent auto_vest = .ok s')
    (x : AccountId) :
    s'.routes.sumRows (percentRow x) ≤ s.routes.sumRows (percentRow x) +
      if x = a then (percent : ℤ) else 0 := by
  have hold : ∀ v : Option Route, 0 ≤ v.elim 0 (percentRow x (toLex (a, to_account))) := by
    intro v
    cases v with
    | none => exact le_rfl
    | some r => exact percentRow_nonneg x _ r
  have hnew : percentRow x (toLex (a, to_account)) { to_account, percent, auto_vest } ≤
      if x = a then (percent : ℤ) else 0 := by
    split
    · exact percentRow_le x _ _
    · rename_i hx
      exact (if_neg fun h => hx h.1.symm).le
  have hnonneg := percentRow_nonneg x (toLex (a, to_account)) { to_account, percent, auto_vest }
  have hold := hold (s.routes.find? (toLex (a, to_account)))
  rcases State.changeRoute_cases h with ⟨-, -, rfl⟩ | ⟨r, -, rfl⟩ | ⟨r, -, rfl⟩
  · dsimp only
    rw [OrdMap.sumRows_insert]
    omega
  · dsimp only
    rw [OrdMap.sumRows_erase]
    omega
  · dsimp only
    rw [OrdMap.sumRows_insert]
    omega

theorem count_of_changeRoute (hs : Routed s)
    (h : s.changeRoute a to_account percent auto_vest = .ok s') (x : AccountId) :
    ((s'.power x).withdraw_routes : ℤ) = s'.routes.sumRows (countRow x) ∧
      (s'.power x).withdraw_routes ≤ STEEMIT_MAX_WITHDRAW_ROUTES := by
  have hcount := hs.count x
  have hbound := hs.bound x
  have hrow : ∀ r, countRow x (toLex (a, to_account)) r = if x = a then 1 else 0 := by
    intro r
    exact if_congr eq_comm rfl rfl
  have hmax : STEEMIT_MAX_WITHDRAW_ROUTES = 10 := rfl
  rcases State.changeRoute_cases h with ⟨hnone, hlt, rfl⟩ | ⟨r, hsome, rfl⟩ | ⟨r, hsome, rfl⟩
  · dsimp only
    rw [OrdMap.sumRows_insert, hnone, Option.elim_none, hrow, State.power_modifyPower]
    split
    · rename_i hx
      subst hx
      dsimp only
      omega
    · omega
  · dsimp only
    rw [OrdMap.sumRows_erase, hsome, Option.elim_some, hrow, State.power_modifyPower]
    split
    · rename_i hx
      subst hx
      -- the row that is removed has been counted
      have hpos : 0 < (s.power x).withdraw_routes := by
        have hlength : (s.allRoutes x).length = (s.power x).withdraw_routes := by
          have hsum := sumRows_countRow s x
          omega
        have hmem : r ∈ s.allRoutes x :=
          List.mem_map.2 ⟨_, List.mem_filter.2 ⟨OrdMap.mem_rows.2 hsome, by simp⟩, rfl⟩
        rw [← hlength]
        exact List.length_pos_of_mem hmem
      dsimp only
      omega
    · omega
  · dsimp only
    rw [OrdMap.sumRows_insert, hsome, Option.elim_some, hrow, hrow]
    exact ⟨by omega, hbound⟩

theorem source_of_changeRoute (hs : Routed s) (hlt : a < s.base.num_accounts)
    (h : s.changeRoute a to_account percent auto_vest = .ok s') {k : AccountId ×ₗ AccountId}
    {r : Route} (hr : s'.routes.find? k = some r) : (ofLex k).1 < s'.base.num_accounts := by
  have hinsert : ∀ v, (s.routes.insert (toLex (a, to_account)) v).find? k = some r →
      (ofLex k).1 < s.base.num_accounts := by
    intro v hv
    exact OrdMap.forall_insert (P := fun k _ => (ofLex k).1 < _) hs.source hlt k r hv
  rcases State.changeRoute_cases h with ⟨-, -, rfl⟩ | ⟨_, -, rfl⟩ | ⟨_, -, rfl⟩
  · exact hinsert _ hr
  · exact hs.source k r (OrdMap.find?_of_erase hr)
  · exact hinsert _ hr

theorem Routed.set_withdraw_vesting_route (hs : Routed s)
    (h : s.set_withdraw_vesting_route a to_account percent auto_vest = .ok s') : Routed s' := by
  obtain ⟨hvalid, hlt, h1, htotal⟩ := State.set_withdraw_vesting_route_eq_ok h
  refine ⟨fun _ _ hr => source_of_changeRoute hs hlt h1 hr,
    fun x => (count_of_changeRoute hs h1 x).1, fun x => (count_of_changeRoute hs h1 x).2,
    fun x => ?_⟩
  have hold := hs.percent x
  have hle := percent_of_changeRoute h1 x
  have hhundred : STEEMIT_100_PERCENT = 10000 := rfl
  by_cases hx : x = a
  · subst hx
    rw [if_pos rfl] at hle
    have hsum := sumRows_percentRow s' x
    -- the sum in 16 bits is the sum: it was within 100% before one percentage was written
    omega
  · rw [if_neg hx, add_zero] at hle
    exact hle.trans hold

end Table

/-! ## Calls -/

structure SameRoutes (s s' : State) : Prop where
  num_accounts : s.base.num_accounts ≤ s'.base.num_accounts
  routes : s'.routes = s.routes
  counts : ∀ a, (s'.power a).withdraw_routes = (s.power a).withdraw_routes ∨
    s.base.num_accounts ≤ a ∧ (s'.power a).withdraw_routes = 0

variable {c : Call}

section Calls

variable {s s' s1 : State}

/-- A new account has no route yet. -/
theorem Routed.same (hs : Routed s) (h : SameRoutes s s') : Routed s' := by
  have hcounts : ∀ a, (s'.power a).withdraw_routes = (s.power a).withdraw_routes := by
    intro a
    rcases h.counts a with heq | ⟨hfresh, hzero⟩
    · exact heq
    · have hrows : s.routes.sumRows (countRow a) = 0 := by
        refine List.sum_eq_zero fun x hx => ?_
        obtain ⟨r, hr, rfl⟩ := List.mem_map.1 hx
        have hlt := hs.source r.1 r.2 (OrdMap.mem_rows.1 hr)
        exact if_neg (hlt.trans_le hfresh).ne
      have hcount := hs.count a
      omega
  refine ⟨fun k r hr => ?_, fun a => ?_, fun a => ?_, fun a => ?_⟩
  · rw [h.routes] at hr
    exact (hs.source k r hr).trans_le h.num_accounts
  · rw [hcounts, h.routes]
    exact hs.count a
  · rw [hcounts]
    exact hs.bound a
  · rw [h.routes]
    exact hs.percent a

theorem SameRoutes.trans (h : SameRoutes s s1) (h' : SameRoutes s1 s') : SameRoutes s s' := by
  refine ⟨h.num_accounts.trans h'.num_accounts, h'.routes.trans h.routes, fun a => ?_⟩
  have hn := h.num_accounts
  rcases h'.counts a with heq | ⟨hfresh, hzero⟩
  · rw [heq]
    exact h.counts a
  · exact .inr ⟨hn.trans hfresh, hzero⟩

theorem SameRoutes.of_power (hn : s.base.num_accounts ≤ s'.base.num_accounts)
    (hroutes : s'.routes = s.routes)
    (hpower : ∀ a, (s'.power a).withdraw_routes = (s.power a).withdraw_routes) : SameRoutes s s' :=
  ⟨hn, hroutes, fun a => .inl (hpower a)⟩

theorem SameRoutes.refl (s : State) : SameRoutes s s := .of_power le_rfl rfl fun _ => rfl

theorem SameRoutes.modifyPower {f : Power → Power}
    (hf : ∀ p, (f p).withdraw_routes = p.withdraw_routes) (s : State) (a : AccountId) :
    SameRoutes s (s.modifyPower a f) := by
  refine .of_power le_rfl rfl fun x => ?_
  rw [State.power_modifyPower]
  split
  · rename_i hx
    rw [hf, hx]
  · rfl

variable {a creator : AccountId}

theorem SameRoutes.create_vesting {steem : ℤ} (h : s.create_vesting a steem = .ok s') :
    SameRoutes s s' := by
  have hquiet := State.Quiet.create_vesting h
  obtain ⟨v, -, h⟩ := bind_ok.1 h
  obtain ⟨base, -, h⟩ := bind_ok.1 h
  cases h
  exact .of_power hquiet.num_accounts.ge rfl fun _ => rfl

theorem SameRoutes.claim_reward_balance {reward_vests : ℕ}
    (h : s.claim_reward_balance a reward_vests = .ok s') : SameRoutes s s' := by
  have hquiet := State.Quiet.claim_reward_balance h
  replace h := ok_of_check h
  replace h := ok_of_check h
  obtain ⟨base, -, h⟩ := bind_ok.1 h
  cases h
  exact .of_power hquiet.num_accounts.ge rfl fun _ => rfl

theorem SameRoutes.of_records {p q : Power}
    (hpower : s'.power = Function.update (Function.update s.power creator p) s.base.num_accounts q)
    (hp : p.withdraw_routes = (s.power creator).withdraw_routes) (hq : q.withdraw_routes = 0)
    (hn : s'.base.num_accounts = s.base.num_accounts + 1) (hroutes : s'.routes = s.routes) :
    SameRoutes s s' := by
  refine ⟨by omega, hroutes, fun x => ?_⟩
  rw [hpower]
  by_cases hx : x = s.base.num_accounts
  · right
    rw [hx, Function.update_self]
    exact ⟨le_rfl, hq⟩
  · left
    rw [Function.update_of_ne hx]
    by_cases hc : x = creator
    · rw [hc, Function.update_self, hp]
    · rw [Function.update_of_ne hc]

theorem SameRoutes.fee {fee : ℕ} (h : SameRoutes s s1)
    (hfee : (if 0 < fee then s1.create_vesting a fee else .ok s1) = .ok s') : SameRoutes s s' := by
  split at hfee
  · exact h.trans (.create_vesting hfee)
  · rwa [← Except.ok.inj hfee]

theorem SameRoutes.account_create {fee : ℕ} (h : s.account_create creator fee = .ok s') :
    SameRoutes s s' := by
  replace h := ok_of_check h
  replace h := ok_of_check h
  replace h := ok_of_check h
  refine SameRoutes.fee ?_ h
  exact .of_records rfl rfl rfl rfl rfl

theorem SameRoutes.account_create_with_delegation {fee : ℕ} {delegation : ℤ}
    (h : s.account_create_with_delegation creator fee delegation = .ok s') : SameRoutes s s' := by
  replace h := ok_of_check h
  replace h := ok_of_check h
  replace h := ok_of_check h
  replace h := ok_of_check h
  obtain ⟨target, -, h⟩ := bind_ok.1 h
  obtain ⟨current, -, h⟩ := bind_ok.1 h
  replace h := ok_of_check h
  replace h := ok_of_check h
  refine SameRoutes.fee ?_ h
  exact .of_records rfl rfl rfl rfl rfl

theorem SameRoutes.delegate_vesting_shares {delegator delegatee : AccountId} {v : ℤ}
    (h : s.delegate_vesting_shares delegator delegatee v = .ok s') : SameRoutes s s' := by
  have hgrow : ∀ delta d, SameRoutes s ((s.grow delegator delegatee delta).setDelegation delegator
      delegatee d) := by
    intro delta d
    have hboth : SameRoutes s (s.grow delegator delegatee delta) :=
      (SameRoutes.modifyPower (by exact fun _ => rfl) s delegator).trans
        (.modifyPower (by exact fun _ => rfl) _ delegatee)
    exact ⟨hboth.num_accounts, hboth.routes, hboth.counts⟩
  obtain ⟨-, -, -, -, hcases⟩ := State.delegate_vesting_shares_cases h
  rcases hcases with ⟨-, -, rfl⟩ | ⟨d, -, -, -, rfl⟩ | ⟨d, -, -, rfl⟩
  · exact hgrow _ _
  · exact hgrow _ _
  · have hfirst : SameRoutes s (s.modifyPower delegatee fun p =>
        { p with received_vesting_shares := p.received_vesting_shares - (d.vesting_shares - v) }) :=
      .modifyPower (by exact fun _ => rfl) s delegatee
    exact ⟨hfirst.num_accounts, hfirst.routes, hfirst.counts⟩

theorem SameRoutes.clear_expired_delegations (s : State) :
    SameRoutes s s.clear_expired_delegations := by
  refine State.returnDelegations_rule (P := SameRoutes s) (fun {t key e} h _ => ?_) (.refl s)
  have hback : SameRoutes t (t.modifyPower e.delegator fun p =>
      { p with delegated_vesting_shares := p.delegated_vesting_shares - e.vesting_shares }) :=
    .modifyPower (by exact fun _ => rfl) t e.delegator
  exact h.trans ⟨hback.num_accounts, hback.routes, hback.counts⟩

theorem SameRoutes.withdraw_vesting {v : ℤ} (h : s.withdraw_vesting a v = .ok s') :
    SameRoutes s s' := by
  obtain ⟨-, -, ⟨-, rfl⟩ | ⟨-, rfl⟩⟩ := State.withdraw_vesting_cases h
  · exact .modifyPower (by exact fun _ => rfl) s a
  · exact .modifyPower (by exact fun _ => rfl) s a

theorem SameRoutes.processWithdrawal (h : s.processWithdrawal a = .ok s') :
    SameRoutes s s' := by
  have hn := (State.Withdrawn.processWithdrawal h).base.num_accounts
  simp only [State.processWithdrawal, bind_ok, exists_check_eq_ok] at h
  obtain ⟨-, base, -, paid, hpaid, converted, -, h⟩ := h
  cases h
  have hkeep : ∀ (p : Power) (balance : ℤ),
      Power.withdraw_routes { p with balance } = p.withdraw_routes := fun _ _ => rfl
  refine .of_power hn.ge rfl fun x => ?_
  dsimp only
  by_cases hx : x = a
  · subst hx
    rw [Function.update_self, State.settle_keeps (f := Power.withdraw_routes) _ fun _ _ _ _ => rfl,
      State.pay_keeps hkeep, State.payRoutes_keeps hkeep hpaid]
  · rw [Function.update_of_ne hx, State.pay_keeps hkeep, State.payRoutes_keeps hkeep hpaid]

theorem SameRoutes.clear_null_account_balance (h : s.clear_null_account_balance = .ok s') :
    SameRoutes s s' := by
  have hn := (State.Cleared.clear_null_account_balance h).num_accounts
  have hreward : SameRoutes s s.clearNullReward := .of_power le_rfl rfl fun _ => rfl
  have hbalance : SameRoutes s s.nullEmptied := hreward.trans
    (.modifyPower (by exact fun _ => rfl) s.clearNullReward WitnessVotes.STEEMIT_NULL_ACCOUNT)
  cases State.NullCleared.of_ok h with
  | early => exact .of_power le_rfl rfl fun _ => rfl
  | balance => exact hbalance
  | shares => exact ⟨hn.ge, rfl, hbalance.counts⟩

theorem SameRoutes.applyNextHardfork (h : s.applyNextHardfork = .ok s') : SameRoutes s s' := by
  have hfork := State.Hardforked.applyNextHardfork h
  obtain ⟨base, -, h⟩ := bind_ok.1 h
  cases h
  refine .of_power hfork.base.num_accounts.ge rfl fun x => ?_
  rw [hfork.power]
  split <;> rfl

theorem SameRoutes.of_votes {x : Except WitnessVotes.VoteError WitnessVotes.State}
    (hx : ∀ {base}, x = .ok base → WitnessVotes.State.SameShares s.base base)
    (h : (do .ok { s with base := ← withError VestingError.votes x }) = Except.ok s') :
    SameRoutes s s' := by
  obtain ⟨base, hbase, h⟩ := bind_ok.1 h
  cases h
  exact .of_power (hx (withError_eq_ok.1 hbase)).num_accounts.ge rfl fun _ => rfl

/-- Only `set_withdraw_vesting_route` changes routes. -/
theorem Call.routes_cases (h : c.apply s = .ok s') :
    SameRoutes s s' ∨ ∃ from_account to_account percent auto_vest,
      c = .set_withdraw_vesting_route from_account to_account percent auto_vest ∧
        s.set_withdraw_vesting_route from_account to_account percent auto_vest = .ok s' := by
  replace h := (check_bind_ok.1 h).2
  cases c with
  | create_vesting to_account steem => exact .inl (.create_vesting h)
  | createReward to_account steem =>
    replace h := ok_of_check h
    obtain ⟨v, -, h⟩ := bind_ok.1 h
    cases h
    exact .inl (.of_power le_rfl rfl fun _ => rfl)
  | claim_reward_balance account reward_vests => exact .inl (.claim_reward_balance h)
  | account_create creator fee => exact .inl (.account_create h)
  | account_create_with_delegation creator fee delegation =>
    exact .inl (.account_create_with_delegation h)
  | delegate_vesting_shares delegator delegatee v => exact .inl (.delegate_vesting_shares h)
  | clear_expired_delegations =>
    cases h
    exact .inl (.clear_expired_delegations s)
  | withdraw_vesting account v => exact .inl (.withdraw_vesting h)
  | set_withdraw_vesting_route from_account to_account percent auto_vest =>
    exact .inr ⟨from_account, to_account, percent, auto_vest, rfl, h⟩
  | process_vesting_withdrawals =>
    exact .inl (State.process_vesting_withdrawals_rule (P := SameRoutes s)
      (fun hP _ _ hstep => hP.trans (.processWithdrawal hstep)) (.refl s) h)
  | clear_null_account_balance => exact .inl (.clear_null_account_balance h)
  | account_witness_proxy account proxy => exact .inl (.of_votes .account_witness_proxy h)
  | account_witness_vote account witness approve =>
    exact .inl (.of_votes .account_witness_vote h)
  | decline_voting_rights account => exact .inl (.of_votes .declineVotingRights h)
  | apply_hardfork => exact .inl (.applyNextHardfork h)
  | adjust_balance account delta =>
    cases h
    exact .inl (.modifyPower (by exact fun _ => rfl) s account)
  | advance_time _ =>
    replace h := ok_of_check h
    cases h
    exact .inl (.of_power le_rfl rfl fun _ => rfl)
  | create_witness | add_to_fund _ | set_account_creation_fee _ =>
    cases h
    exact .inl (.of_power le_rfl rfl fun _ => rfl)

theorem Routed.call (hs : Routed s) (h : c.apply s = .ok s') : Routed s' := by
  rcases Call.routes_cases h with hsame | ⟨_, _, _, _, -, hset⟩
  · exact hs.same hsame
  · exact hs.set_withdraw_vesting_route hset

end Calls

/-! ## Runs -/

theorem genesis_routed : Routed genesis := by
  refine ⟨fun k r hr => ?_, fun _ => rfl, fun _ => Nat.zero_le _, fun _ => Int.natCast_nonneg _⟩
  exact nomatch hr

theorem run_routed (calls : List Call) : Routed (run genesis calls) :=
  runCalls_rule_all (fun h hcall => h.call hcall) genesis_routed calls

/-- The call sets no route from `a` to account `0`. -/
def Call.sparesFirst (a : AccountId) : Call → Bool
  | set_withdraw_vesting_route from_account to_account _ _ => from_account != a || to_account != 0
  | _ => true

section Runs

variable {s s' : State} {a : AccountId}

theorem find?_of_changeRoute {from_account to_account : AccountId} {percent : ℕ} {auto_vest : Bool}
    {k : AccountId ×ₗ AccountId} (hk : toLex (from_account, to_account) ≠ k)
    (h : s.changeRoute from_account to_account percent auto_vest = .ok s') :
    s'.routes.find? k = s.routes.find? k := by
  rcases State.changeRoute_cases h with ⟨-, -, rfl⟩ | ⟨_, -, rfl⟩ | ⟨_, -, rfl⟩
  · exact OrdMap.find?_insert_ne _ _ hk
  · exact (OrdMap.find?_erase _ _ _).trans (if_neg hk)
  · exact OrdMap.find?_insert_ne _ _ hk

theorem Call.find?_of_sparesFirst (hc : c.sparesFirst a = true) (h : c.apply s = .ok s') :
    s'.routes.find? (toLex (a, 0)) = s.routes.find? (toLex (a, 0)) := by
  rcases Call.routes_cases h with hsame | ⟨from_account, to_account, percent, auto_vest, rfl, hset⟩
  · rw [hsame.routes]
  · obtain ⟨-, -, h1, -⟩ := State.set_withdraw_vesting_route_eq_ok hset
    refine find?_of_changeRoute (fun hk => ?_) h1
    obtain ⟨rfl, rfl⟩ := Prod.mk.inj (toLex_inj.1 hk)
    simp [Call.sparesFirst] at hc

/-- Without a route to account `0` all routes are read. -/
theorem allRoutes_eq_routesOf (h : s.routes.find? (toLex (a, 0)) = none) :
    s.allRoutes a = s.routesOf a := by
  have hfilter : (s.routes.rows.filter fun r => (ofLex r.1).1 = a) =
      s.routes.rows.filter fun r => (ofLex r.1).1 = a ∧ 0 < (ofLex r.1).2 := by
    refine List.filter_congr fun r hr => ?_
    rw [decide_eq_decide]
    refine ⟨fun ha => ⟨ha, Nat.pos_of_ne_zero fun hzero => ?_⟩, fun ha => ha.1⟩
    have hrow : s.routes.find? (toLex (a, 0)) = some r.2 := by
      rw [← ha, ← hzero]
      exact OrdMap.mem_rows.1 hr
    rw [h] at hrow
    exact nomatch hrow
  rw [State.allRoutes, State.routesOf, hfilter]

theorem Routed.routesOk (hs : Routed s) (h : s.routes.find? (toLex (a, 0)) = none) : RoutesOk s a := by
  have hroutes := allRoutes_eq_routesOf h
  have hcount := hs.count a
  rw [sumRows_countRow] at hcount
  have hcount : (s.power a).withdraw_routes = (s.allRoutes a).length := by exact_mod_cast hcount
  refine ⟨?_, hcount, hcount ▸ hs.bound a, fun t t' ht hwithdrawal => ?_⟩
  · have hpercent := hs.percent a
    rw [sumRows_percentRow] at hpercent
    rw [hroutes]
    exact_mod_cast hpercent
  · have hsame : s.allRoutes a = t.routesOf a := by
      rw [hroutes, State.routesOf, State.routesOf, ht]
    rw [hsame]
    exact .processWithdrawal hwithdrawal

end Runs

/-- In every run in which `a` sets no route to account `0`, its routes are what they are meant to
be. -/
theorem run_routesOk (a : AccountId) (calls : List Call)
    (h : Along Call.apply (fun _ c => c.sparesFirst a = true) genesis calls) :
    RoutesOk (run genesis calls) a := by
  have hfirst : (run genesis calls).routes.find? (toLex (a, 0)) = none :=
    runCalls_rule (P := fun s => s.routes.find? (toLex (a, 0)) = none)
      (fun hP hc hcall => (Call.find?_of_sparesFirst hc hcall).trans hP) rfl h
  exact (run_routed calls).routesOk hfirst

/-- Account 3 vests, routes its withdrawals by the given percentages to accounts 0 and 2, and
withdraws once. -/
def withdrawOnce (first second : ℕ) : List Call :=
  [ .create_vesting 3 1000000, .set_withdraw_vesting_route 3 0 first false,
    .set_withdraw_vesting_route 3 2 second false, .withdraw_vesting 3 13000000,
    .advance_time STEEMIT_VESTING_WITHDRAW_INTERVAL_SECONDS, .process_vesting_withdrawals ]

theorem run_routesOk_half : RoutesOk (run genesis (withdrawOnce 0 5000)) 3 :=
  run_routesOk 3 (withdrawOnce 0 5000) (by decide +kernel)

/-- The routes of account 3 take 200% of a withdrawal, and all that is paid goes to the second one;
with the first one alone, account 3 gets everything itself. -/
theorem first_account_gets_nothing :
    (((run genesis (withdrawOnce 10000 10000)).allRoutes 3).map Route.percent).sum = 20000 ∧
      ¬ RoutesOk (run genesis (withdrawOnce 10000 10000)) 3 ∧
      (((run genesis (withdrawOnce 10000 0)).allRoutes 3).map fun r => (r.to_account, r.percent)) =
        [(0, 10000)] ∧
      ((run genesis (withdrawOnce 10000 0)).power 0).balance = 0 ∧
        ((run genesis (withdrawOnce 10000 0)).power 3).balance = 1000 := by
  have hpercent : (((run genesis (withdrawOnce 10000 10000)).allRoutes 3).map Route.percent).sum =
      20000 := by
    decide +kernel
  refine ⟨hpercent, fun h => ?_, by decide +kernel, by decide +kernel, by decide +kernel⟩
  have hle := h.percent
  rw [hpercent] at hle
  exact absurd hle (by decide)

end Calibrd.Chain.Vesting
