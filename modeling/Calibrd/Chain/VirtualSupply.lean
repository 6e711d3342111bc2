import Calibrd.Chain.Maintenance

/-!
# The virtual supply at the end of a block

`update_virtual_supply` is the last step but two: `expire_escrow_ratification` and the hardforks come
after it. A refund in SBD pays the interest of the sender, and `adjust_balance` adds the value of
that interest, rounded down on its own, to the virtual supply. So the virtual supply is right at the
end of the block if and only if the interests, rounded one by one, add up to what they add to the
rounded total (`apply_virtualSupplyOk_iff`).

The loop over the escrows is followed by `Refunded`: the senders that were paid have no more interest
in this block, and the others are as before the loop.
-/

namespace Calibrd.Chain.Ledger

open Calibrd.Lib Calibrd.Protocol

namespace State

variable (s : State)

/-- The interest that the next refund in SBD pays to an account. -/
def interestOn (name : AccountName) : ℤ :=
  ((s.accounts.find? name).map fun a => a.purse.sbd.owed s.time s.sbd_interest_rate).getD 0

/-- The value in STEEM, rounded down. -/
def steemValue (sbd : ℤ) : ℤ := (s.to_steem sbd).toOption.getD 0

/-- Who gets a refund from an escrow that expires. -/
def refundees : Finset AccountName := (s.expiredEscrows.map Escrow.from_account).toFinset

/-- The current supply and the value of all SBD. -/
def VirtualSupplyOk : Prop := s.to_steem s.current_sbd_supply = .ok (s.virtual_supply - s.current_supply)

instance : Decidable s.VirtualSupplyOk := inferInstanceAs (Decidable (_ = _))

/-- Rounding the interests one by one gives what rounding the total gives. -/
def InterestRounds : Prop :=
  s.to_steem (s.current_sbd_supply + ∑ x ∈ s.refundees, s.interestOn x) =
    .ok (s.steemValue s.current_sbd_supply + ∑ x ∈ s.refundees, s.steemValue (s.interestOn x))

end State

section Value

variable {s s' : State}

theorem steemValue_of_ok {sbd value : ℤ} (h : s.to_steem sbd = .ok value) :
    s.steemValue sbd = value := by
  simp [State.steemValue, h, Except.toOption]

theorem SameChain.to_steem (h : SameChain s s') (sbd : ℤ) : s'.to_steem sbd = s.to_steem sbd := by
  simp only [State.to_steem, State.convert, h.current_median_history]

/-- SBD has no value at the null price, so `to_steem` agrees with a conversion that succeeds. -/
theorem to_steem_of_convert {sbd : ℤ} {a : Asset} (h : s.convert ⟨sbd, .SBD⟩ = .ok a) :
    s.to_steem sbd = .ok a.amount := by
  have hnull : s.current_median_history.is_null = false := by
    by_contra hnull
    obtain ⟨hb, hq⟩ := Price.is_null_iff.1 (Bool.eq_true_of_not_eq_false hnull)
    simp [State.convert, Asset.mul, hb, hq, withError] at h
  simp [State.to_steem, hnull, h]

theorem steemValue_zero (s : State) : s.steemValue 0 = 0 := by
  cases h : s.to_steem 0 with
  | error e => simp [State.steemValue, h, Except.toOption]
  | ok value =>
    rw [steemValue_of_ok h]
    unfold State.to_steem at h
    split at h
    · cases h
      rfl
    · obtain ⟨a, ha, rfl⟩ := map_eq_ok.1 h
      have hm := withError_eq_ok.1 ha
      unfold Asset.mul at hm
      split at hm
      · obtain ⟨r, hr, hm⟩ := bind_ok.1 hm
        cases hm
        obtain ⟨-, -, hr⟩ := mulDiv_eq_ok.1 hr
        simpa [uint128, int64] using hr
      · split at hm
        · obtain ⟨r, hr, hm⟩ := bind_ok.1 hm
          cases hm
          obtain ⟨-, -, hr⟩ := mulDiv_eq_ok.1 hr
          simpa [uint128, int64] using hr
        · cases hm

end Value

/-! ## One credit -/

/-- An account was credited, and `interest` was issued for it. -/
structure Credited (s s' : State) (name : AccountName) (interest : ℤ) : Prop where
  moved : Moved s s'
  others : ∀ x, x ≠ name → s'.accounts.find? x = s.accounts.find? x
  current_sbd_supply : s'.current_sbd_supply = s.current_sbd_supply + interest
  virtual_supply : s'.virtual_supply = s.virtual_supply + s.steemValue interest

section Credit

variable {s s' s'' : State} {name : AccountName} {delta : Asset} {i j : ℤ}

/-- No interest is issued, and the account is the only row that is written. -/
theorem credited_putAccount (s : State) (name : AccountName) (a : Account) :
    Credited s (s.putAccount name a) name 0 where
  moved := moved_putAccount s name a
  others x hx := OrdMap.find?_insert_ne _ _ (Ne.symm hx)
  current_sbd_supply := (add_zero _).symm
  virtual_supply := by rw [steemValue_zero, add_zero]; rfl

/-- Two credits of one account, of which one issues interest at most. -/
theorem Credited.trans (h : Credited s s' name i) (h' : Credited s' s'' name j)
    (hij : i = 0 ∨ j = 0) : Credited s s'' name (i + j) where
  moved := h.moved.trans h'.moved
  others x hx := (h'.others x hx).trans (h.others x hx)
  current_sbd_supply := by rw [h'.current_sbd_supply, h.current_sbd_supply, add_assoc]
  virtual_supply := by
    have hv : s'.steemValue j = s.steemValue j := by
      rw [State.steemValue, State.steemValue, h.moved.toSameChain.to_steem]
    rw [h'.virtual_supply, h.virtual_supply, hv]
    obtain rfl | rfl := hij <;> simp [steemValue_zero]

theorem payInterest_spec (name : AccountName) {b b' : SbdBalance} (h : s.payInterest b = .ok (b', s')) :
    b'.seconds_last_update = s.time ∧
      Credited s s' name (b.owed s.time s.sbd_interest_rate) ∧ s'.accounts = s.accounts := by
  have hmoved := moved_payInterest h
  obtain ⟨rfl, value, rfl, hvalue⟩ := payInterest_ok h
  refine ⟨b.settled_last_update _ _, ⟨hmoved, fun _ _ => rfl, rfl, ?_⟩, rfl⟩
  rcases hvalue with ⟨hzero, rfl⟩ | ⟨a, ha, rfl⟩
  · rw [hzero, steemValue_zero]
  · rw [steemValue_of_ok (to_steem_of_convert ha)]

/-- The account was updated in this block. -/
def UpToDate (s : State) (name : AccountName) : Prop :=
  ∃ a, s.accounts.find? name = some a ∧ a.purse.sbd.seconds_last_update = s.time

theorem UpToDate.interestOn (h : UpToDate s name) : s.interestOn name = 0 := by
  obtain ⟨a, ha, hnow⟩ := h
  simp [State.interestOn, ha, SbdBalance.owed, hnow]

/-- A credit in STEEM leaves the SBD of the account alone. -/
theorem adjust_balance_steem {amount : ℤ} (h : s.adjust_balance name ⟨amount, .STEEM⟩ = .ok s') :
    Credited s s' name 0 ∧ s'.interestOn name = s.interestOn name ∧
      (UpToDate s name → UpToDate s' name) := by
  obtain ⟨a, ha, h⟩ := bind_ok.1 h
  cases h
  have hfind := find_of_get_account ha
  refine ⟨credited_putAccount s name _, ?_, ?_⟩
  · simp [State.interestOn, State.putAccount, hfind]
  · rintro ⟨b, hb, hnow⟩
    rw [hfind] at hb
    cases hb
    exact ⟨_, OrdMap.find?_insert_self _ _ _, hnow⟩

/-- A credit in SBD pays the interest, and the account is up to date. -/
theorem adjust_balance_sbd {amount : ℤ} (h : s.adjust_balance name ⟨amount, .SBD⟩ = .ok s') :
    Credited s s' name (s.interestOn name) ∧ UpToDate s' name := by
  obtain ⟨a, ha, h⟩ := bind_ok.1 h
  obtain ⟨⟨p, t⟩, ht, h⟩ := bind_ok.1 h
  cases h
  obtain ⟨⟨b, u⟩, hu, ht⟩ := bind_ok.1 ht
  obtain ⟨hnow, hcredited, -⟩ := payInterest_spec name hu
  obtain ⟨rfl, rfl⟩ := Prod.mk.inj (Except.ok.inj ht)
  have howed : s.interestOn name = a.purse.sbd.owed s.time s.sbd_interest_rate := by
    simp [State.interestOn, find_of_get_account ha]
  rw [howed, ← add_zero (SbdBalance.owed _ _ _)]
  refine ⟨hcredited.trans (credited_putAccount u name _) (.inr rfl), _,
    OrdMap.find?_insert_self _ _ _, ?_⟩
  exact hnow.trans hcredited.moved.time.symm

/-- Once an account is up to date, credits issue no interest. -/
theorem adjust_balance_upToDate (hup : UpToDate s name)
    (h : s.adjust_balance name delta = .ok s') : Credited s s' name 0 ∧ UpToDate s' name := by
  obtain ⟨amount, symbol⟩ := delta
  cases symbol with
  | STEEM =>
    obtain ⟨hcredited, -, hkeep⟩ := adjust_balance_steem h
    exact ⟨hcredited, hkeep hup⟩
  | SBD =>
    obtain ⟨hcredited, hup'⟩ := adjust_balance_sbd h
    rw [hup.interestOn] at hcredited
    exact ⟨hcredited, hup'⟩
  | VESTS =>
    obtain ⟨a, -, h⟩ := bind_ok.1 h
    obtain ⟨r, hr, -⟩ := bind_ok.1 h
    cases hr

/-- A refund issues the interest of its sender once, whatever the symbol of the fee. -/
theorem refundEscrow_spec {e : Escrow} (h : s.refundEscrow name e = .ok s') :
    Credited s s' name (s.interestOn name) ∧ UpToDate s' name := by
  obtain ⟨t, ht, h⟩ := bind_ok.1 h
  obtain ⟨u, hu, h⟩ := bind_ok.1 h
  obtain ⟨hsteem, hsame, -⟩ := adjust_balance_steem ht
  obtain ⟨hsbd, hup⟩ := adjust_balance_sbd hu
  obtain ⟨hfee, hup'⟩ := adjust_balance_upToDate hup h
  rw [hsame] at hsbd
  have htwo := hsteem.trans hsbd (.inl rfl)
  rw [zero_add] at htwo
  have hall := htwo.trans hfee (.inr rfl)
  rw [add_zero] at hall
  exact ⟨hall, hup'⟩

end Credit

/-! ## The refunds of a block -/

/-- The senders in `paid` were refunded since `s`, each with its interest. -/
structure Refunded (s s' : State) (paid : Finset AccountName) : Prop where
  moved : Moved s s'
  others : ∀ x, x ∉ paid → s'.accounts.find? x = s.accounts.find? x
  upToDate : ∀ x ∈ paid, UpToDate s' x
  current_sbd_supply : s'.current_sbd_supply = s.current_sbd_supply + ∑ x ∈ paid, s.interestOn x
  virtual_supply :
    s'.virtual_supply = s.virtual_supply + ∑ x ∈ paid, s.steemValue (s.interestOn x)

section Refund

variable {s t u s' : State} {name : AccountName} {paid : Finset AccountName}

theorem Refunded.refl (s : State) : Refunded s s ∅ where
  moved := .refl s
  others _ _ := rfl
  upToDate x hx := absurd hx (Finset.notMem_empty x)
  current_sbd_supply := by simp
  virtual_supply := by simp

/-- The interest of a sender that was not refunded yet is still the one at the start. -/
theorem Refunded.interestOn (h : Refunded s t paid) (hname : name ∉ paid) :
    t.interestOn name = s.interestOn name := by
  simp only [State.interestOn, h.others name hname, h.moved.time, h.moved.sbd_interest_rate]

theorem Refunded.steemValue (h : Refunded s t paid) (sbd : ℤ) :
    t.steemValue sbd = s.steemValue sbd := by
  rw [State.steemValue, State.steemValue, h.moved.toSameChain.to_steem]

theorem Credited.upToDate {i : ℤ} {x : AccountName} (h : Credited t u name i) (hx : x ≠ name)
    (hup : UpToDate t x) : UpToDate u x := by
  obtain ⟨a, ha, hnow⟩ := hup
  exact ⟨a, (h.others x hx).trans ha, hnow.trans h.moved.time.symm⟩

/-- One more refund. A sender that was refunded before gets no second interest. -/
theorem Refunded.insert (h : Refunded s t paid) (hcredited : Credited t u name (t.interestOn name))
    (hup : UpToDate u name) : Refunded s u (insert name paid) where
  moved := h.moved.trans hcredited.moved
  others x hx := by
    obtain ⟨hne, hpaid⟩ := not_or.1 (mt Finset.mem_insert.2 hx)
    exact (hcredited.others x hne).trans (h.others x hpaid)
  upToDate x hx := by
    by_cases hne : x = name
    · rwa [hne]
    · exact hcredited.upToDate hne (h.upToDate x (Finset.mem_of_mem_insert_of_ne hx hne))
  current_sbd_supply := by
    rw [hcredited.current_sbd_supply, h.current_sbd_supply]
    by_cases hname : name ∈ paid
    · rw [Finset.insert_eq_of_mem hname, (h.upToDate name hname).interestOn, add_zero]
    · rw [Finset.sum_insert hname, h.interestOn hname]
      omega
  virtual_supply := by
    rw [hcredited.virtual_supply, h.virtual_supply, h.steemValue]
    by_cases hname : name ∈ paid
    · rw [Finset.insert_eq_of_mem hname, (h.upToDate name hname).interestOn, steemValue_zero,
        add_zero]
    · rw [Finset.sum_insert hname, h.interestOn hname]
      omega

theorem Refunded.removeEscrow (h : Refunded s t paid) (e : Escrow) :
    Refunded s (t.removeEscrow e) paid where
  moved := h.moved.trans ⟨by constructor <;> rfl, rfl⟩
  others := h.others
  upToDate := h.upToDate
  current_sbd_supply := h.current_sbd_supply
  virtual_supply := h.virtual_supply

theorem Refunded.refundEscrows {es : List Escrow} (h : Refunded s t paid)
    (heq : State.refundEscrows es t = .ok s') :
    Refunded s s' ((es.map Escrow.from_account).toFinset ∪ paid) := by
  induction es generalizing t paid with
  | nil =>
    cases heq
    simpa using h
  | cons e es ih =>
    obtain ⟨u, hu, heq⟩ := bind_ok.1 heq
    obtain ⟨hcredited, hup⟩ := refundEscrow_spec hu
    have hrest := ih ((h.insert hcredited hup).removeEscrow e) heq
    simpa only [List.map_cons, List.toFinset_cons, Finset.union_insert, Finset.insert_union]
      using hrest

theorem expire_escrow_ratification_spec (h : s.expire_escrow_ratification = .ok s') :
    Refunded s s' s.refundees := by
  have hrefunded := (Refunded.refl s).refundEscrows h
  rwa [Finset.union_empty] at hrefunded

theorem update_virtual_supply_ok (h : s.update_virtual_supply = .ok s') : s'.VirtualSupplyOk := by
  unfold State.update_virtual_supply at h
  split at h
  · rename_i hnull
    cases h
    simp [State.VirtualSupplyOk, State.to_steem, hnull]
  · obtain ⟨value, hvalue, h⟩ := bind_ok.1 h
    have hsteem := to_steem_of_convert hvalue
    dsimp only at h
    split at h
    · obtain ⟨percent, -, h⟩ := bind_ok.1 h
      cases h
      rw [State.VirtualSupplyOk, add_sub_cancel_left]
      exact hsteem
    · cases h
      rw [State.VirtualSupplyOk, add_sub_cancel_left]
      exact hsteem

/-- The refunds keep the virtual supply right exactly if their interests round as the total does. -/
theorem Refunded.virtualSupplyOk_iff (h : Refunded s s' s.refundees) (hok : s.VirtualSupplyOk) :
    s'.VirtualSupplyOk ↔ s.InterestRounds := by
  have hvalue := steemValue_of_ok hok
  rw [State.VirtualSupplyOk, State.InterestRounds, h.moved.toSameChain.to_steem,
    h.current_sbd_supply, h.virtual_supply, h.moved.current_supply, hvalue, add_sub_right_comm]

end Refund

end Calibrd.Chain.Ledger

namespace Calibrd.Chain.Rewards

open Calibrd.Lib Calibrd.Protocol

/-! ## The whole block -/

section Hardforks

variable {s s' : State}

/-- The supplies, and the price that they are compared at. -/
def State.supplies (s : State) : ℤ × ℤ × ℤ × Price :=
  (s.ledger.current_supply, s.ledger.current_sbd_supply, s.ledger.virtual_supply,
    s.ledger.current_median_history)

theorem supplies_applyHardforks {n : ℕ} (h : Block.applyHardforks n s = .ok s') :
    s'.supplies = s.supplies := by
  induction n generalizing s with
  | zero =>
    cases h
    rfl
  | succ n ih =>
    obtain ⟨t, ht, h⟩ := bind_ok.1 h
    replace ht := ok_of_check ht
    obtain ⟨u, hu, ht⟩ := bind_ok.1 ht
    cases ht
    refine (ih h).trans ?_
    rw [State.supplies, State.supplies, (State.hardforkEffect_kept hu).ledger]

theorem virtualSupplyOk_congr (h : s'.supplies = s.supplies) :
    s'.ledger.VirtualSupplyOk ↔ s.ledger.VirtualSupplyOk := by
  simp only [State.supplies, Prod.mk.injEq] at h
  obtain ⟨hsupply, hsbd, hvirtual, hprice⟩ := h
  simp only [Ledger.State.VirtualSupplyOk, Ledger.State.to_steem, Ledger.State.convert, hsupply,
    hsbd, hvirtual, hprice]

end Hardforks

theorem onLedger_eq_ok {s s' : State} {step : Ledger.State → Ledger.Result Ledger.State} :
    s.onLedger step = .ok s' ↔ ∃ l, step s.ledger = .ok l ∧ s' = { s with ledger := l } := by
  refine bind_ok.trans (exists_congr fun l => ?_)
  rw [withError_eq_ok, Except.ok.injEq, eq_comm (b := s')]

/-- The interests paid to the senders of expired escrows round as the total does. -/
def Block.InterestRounds (b : Block) (s : State) : Prop :=
  ∃ t, b.applyToSupply s = .ok t ∧ t.ledger.InterestRounds

/-- The state before the refunds has the right virtual supply. -/
theorem applyToSupply_virtualSupplyOk {b : Block} {s t : State} (h : b.applyToSupply s = .ok t) :
    t.ledger.VirtualSupplyOk := by
  obtain ⟨_, -, h⟩ := bind_ok.1 h
  obtain ⟨_, -, h⟩ := bind_ok.1 h
  obtain ⟨_, -, h⟩ := bind_ok.1 h
  obtain ⟨l, hl, rfl⟩ := onLedger_eq_ok.1 h
  exact Ledger.update_virtual_supply_ok hl

/-- After every block that is applied, the virtual supply is the current supply and the value of all
SBD if and only if the interests of the refunds round as the total does. -/
theorem apply_virtualSupplyOk_iff {b : Block} {s s' : State} (h : b.apply s = .ok s') :
    s'.ledger.VirtualSupplyOk ↔ b.InterestRounds s := by
  obtain ⟨t, ht, h⟩ := bind_ok.1 h
  obtain ⟨u, hu, h⟩ := bind_ok.1 h
  obtain ⟨l, hl, rfl⟩ := onLedger_eq_ok.1 hu
  have hrefunds := (Ledger.expire_escrow_ratification_spec hl).virtualSupplyOk_iff
    (applyToSupply_virtualSupplyOk ht)
  rw [virtualSupplyOk_congr (supplies_applyHardforks h)]
  refine hrefunds.trans ⟨fun hrounds => ⟨t, ht, hrounds⟩, ?_⟩
  rintro ⟨t', ht', hrounds⟩
  rw [ht] at ht'
  cases ht'
  exact hrounds

/-- A block of the first miner, `seconds` after the genesis. -/
def minerBlock (seconds : ℕ) (operations : List Operation) : Block where
  witness := STEEMIT_INIT_MINER_NAME
  timestamp := STEEMIT_GENESIS_TIME + seconds
  operations
  pay := { witness_pay_normalization_factor := 25 }

/-- A STEEM for so many SBD. -/
def feedOf (sbd : ℤ) (hpos : 0 < sbd) (hlt : sbd < 2 ^ 63) : { p : Price // p.IsFeed } :=
  ⟨⟨⟨sbd, .SBD⟩, ⟨1, .STEEM⟩⟩, sbd, 1, hpos, hlt, by decide, by decide, .inl rfl⟩

/-- The miner earns SBD with a post, offers some of it in an escrow, and the price changes. -/
def escrowBlocks : List Block :=
  [{ minerBlock 3 [] with
      median_props := some (1, 1000)
      median_feed := some (feedOf 2 (by decide) (by decide))
      hardforks := 19 },
    minerBlock 6 [.transfer_to_vesting STEEMIT_INIT_MINER_NAME STEEMIT_INIT_MINER_NAME 1000000000,
      .comment STEEMIT_INIT_MINER_NAME 10000],
    minerBlock 9 [.vote STEEMIT_INIT_MINER_NAME 0 10000],
    minerBlock 700000 [],
    minerBlock 700003 [.claim_reward_balance STEEMIT_INIT_MINER_NAME 0 4613942 0],
    minerBlock 700006 [.escrow_transfer
      { from_account := STEEMIT_INIT_MINER_NAME
        to_account := STEEMIT_TEMP_ACCOUNT
        agent := STEEMIT_MINER_ACCOUNT
        escrow_id := 0
        sbd_amount := ⟨1000, .SBD⟩
        steem_amount := ⟨0, .STEEM⟩
        fee := ⟨0, .STEEM⟩
        ratification_deadline := STEEMIT_GENESIS_TIME + 3400000
        escrow_expiration := STEEMIT_GENESIS_TIME + 3400003 }],
    { minerBlock 1600000 [] with median_feed := some (feedOf 3 (by decide) (by decide)) },
    minerBlock 2500000 []]

/-- The refund of the escrow pays interest, and the virtual supply is short of a unit. -/
theorem expired_escrow_virtual_supply :
    (runBlocks (init_genesis (10 ^ 15)) (escrowBlocks ++ [minerBlock 3400000 []])).ledger.head_block_number
        = 9 ∧
      (runBlocks (init_genesis (10 ^ 15)) (escrowBlocks ++ [minerBlock 3400000 []])).ledger.to_steem
        (runBlocks (init_genesis (10 ^ 15))
          (escrowBlocks ++ [minerBlock 3400000 []])).ledger.current_sbd_supply = .ok 1551145 ∧
      (runBlocks (init_genesis (10 ^ 15))
          (escrowBlocks ++ [minerBlock 3400000 []])).ledger.virtual_supply -
        (runBlocks (init_genesis (10 ^ 15))
          (escrowBlocks ++ [minerBlock 3400000 []])).ledger.current_supply = 1551144 := by
  decide +kernel

/-- Five minutes later, the interest of the same refund rounds as the total does. -/
theorem apply_virtualSupplyOk_iff_escrowBlocks :
    ∃ s', (minerBlock 3400300 []).apply (runBlocks (init_genesis (10 ^ 15)) escrowBlocks) = .ok s' ∧
      s'.ledger.VirtualSupplyOk ∧
      (minerBlock 3400300 []).InterestRounds (runBlocks (init_genesis (10 ^ 15)) escrowBlocks) := by
  obtain ⟨s', h⟩ := exists_eq_ok
    (x := (minerBlock 3400300 []).apply (runBlocks (init_genesis (10 ^ 15)) escrowBlocks))
    (by decide +kernel)
  have hok : ((minerBlock 3400300 []).apply (runBlocks (init_genesis (10 ^ 15))
      escrowBlocks)).toOption.all (fun t => decide t.ledger.VirtualSupplyOk) = true := by
    decide +kernel
  rw [h] at hok
  have hvirtual : s'.ledger.VirtualSupplyOk := by simpa [Except.toOption] using hok
  exact ⟨s', h, hvirtual, (apply_virtualSupplyOk_iff h).1 hvirtual⟩

end Calibrd.Chain.Rewards
