import Calibrd.Chain.Solvency
import Calibrd.Chain.VestingFund
import Calibrd.Lib.Installments

/-!
# A power down from its start to its end

`withdraw_vesting` of `w` shares starts weekly withdrawals. If nothing changes them and the shares of
the account cover what is still to withdraw, they are the installments of `w` at its rate
(`withdraw_vesting_pays`). The amount of a withdrawal is found from the record of the account alone;
the invariant `Paying` ties that record to the list of withdrawals so far.

The loop of `process_vesting_withdrawals` is followed three times: for what it withdraws
(`paying_process`), for whom it comes to (`withdrawalsFrom_ne_nil`), and for its end
(`process_vesting_withdrawals_in_steps`).
-/

namespace Calibrd.Chain.Vesting

open Calibrd.Lib
open Calibrd.Chain.WitnessVotes (AccountId Route)

/-! ## The record of the account -/

theorem State.withdrawRate_of_pos {w : ℤ} (hw : 0 < w) :
    State.withdrawRate w = max (w / STEEMIT_VESTING_WITHDRAW_INTERVALS) 1 := by
  have hdiv : w.tdiv STEEMIT_VESTING_WITHDRAW_INTERVALS = w / STEEMIT_VESTING_WITHDRAW_INTERVALS :=
    Int.tdiv_eq_ediv_of_nonneg hw.le
  have hnonneg : 0 ≤ w / STEEMIT_VESTING_WITHDRAW_INTERVALS := Int.ediv_nonneg hw.le (by decide)
  unfold State.withdrawRate
  rw [hdiv]
  split <;> omega

theorem State.withdrawRate_pos {w : ℤ} (hw : 0 < w) : 0 < State.withdrawRate w := by
  rw [State.withdrawRate_of_pos hw]
  exact lt_max_of_lt_right one_pos

/-- The record of an account that has been paid `paid` of `w`, and is paid the rest at `rate`. -/
structure Power.Paying (p : Power) (w rate : ℤ) (start : ℕ) (paid : List ℤ) : Prop where
  to_withdraw : p.to_withdraw = w
  withdrawn : p.withdrawn = paid.sum
  nonneg : 0 ≤ paid.sum
  le : paid.sum ≤ w
  schedule : paid ++ installments (w - paid.sum) rate = installments w rate
  running : paid.sum < w → p.vesting_withdraw_rate = rate ∧ rate ∣ paid.sum ∧
    p.next_vesting_withdrawal =
      some (start + (paid.length + 1) * STEEMIT_VESTING_WITHDRAW_INTERVAL_SECONDS)
  finished : paid.sum = w → p.vesting_withdraw_rate = 0 ∧ p.next_vesting_withdrawal = none

namespace Power.Paying

variable {p q : Power} {w rate shares shares' : ℤ} {start : ℕ} {paid : List ℤ}

theorem congr (h : p.Paying w rate start paid) (hp : q.withdrawal = p.withdrawal) :
    q.Paying w rate start paid := by
  obtain ⟨hrate, hnext, hwithdrawn, hto⟩ := withdrawal_eq_iff.1 hp
  refine ⟨hto.trans h.to_withdraw, hwithdrawn.trans h.withdrawn, h.nonneg, h.le, h.schedule, ?_, ?_⟩
  · rw [hrate, hnext]
    exact h.running
  · rw [hrate, hnext]
    exact h.finished

theorem initial (p : Power) (hw : 0 < w) (time : ℕ) :
    { p with
      vesting_withdraw_rate := rate
      next_vesting_withdrawal := some (time + STEEMIT_VESTING_WITHDRAW_INTERVAL_SECONDS)
      to_withdraw := w
      withdrawn := 0 }.Paying w rate time [] where
  to_withdraw := rfl
  withdrawn := rfl
  nonneg := le_rfl
  le := hw.le
  schedule := by rw [List.sum_nil, sub_zero, List.nil_append]
  running _ := ⟨rfl, dvd_zero _, by simp⟩
  finished hsum := absurd hsum hw.ne

variable (h : p.Paying w rate start paid)

include h

theorem lt_of_next (hnext : p.next_vesting_withdrawal ≠ none) :
    paid.sum < w :=
  lt_of_le_of_ne h.le fun hsum => hnext (h.finished hsum).2

/-- What is due next, if the shares cover what is still to withdraw. -/
theorem amount (hrate : 0 < rate) (hlt : paid.sum < w)
    (hshares : p.to_withdraw - p.withdrawn ≤ shares) :
    (if p.to_withdraw - p.withdrawn < p.vesting_withdraw_rate then
        min shares (p.to_withdraw.tmod p.vesting_withdraw_rate)
      else min shares p.vesting_withdraw_rate) = min (w - paid.sum) rate := by
  obtain ⟨hr, hdvd, hnext⟩ := h.running hlt
  have hsome : p.next_vesting_withdrawal ≠ none := by
    rw [hnext]
    exact Option.some_ne_none _
  -- delegations have no part in it, so `Sound` is about the record without them
  have hsound : p.withdrawal.Sound shares := by
    refine ⟨?_, ?_, ?_, ?_, fun _ => ⟨?_, ?_⟩⟩
    · exact h.withdrawn.symm ▸ h.nonneg
    · exact (h.withdrawn.trans_le h.le).trans_eq h.to_withdraw.symm
    · exact hr.symm ▸ hrate.le
    · exact (zero_add _).trans_le hshares
    · exact hr.symm ▸ hrate
    · exact hr.symm ▸ h.withdrawn.symm ▸ hdvd
  rw [← h.to_withdraw, ← h.withdrawn, ← hr]
  exact hsound.amount le_rfl hsome

/-- One withdrawal, after which `shares'` are left. -/
theorem settle (hrate : 0 < rate) (hlt : paid.sum < w)
    (hshares : w - paid.sum - min (w - paid.sum) rate ≤ shares') :
    (State.settle p (min (w - paid.sum) rate) shares').Paying w rate start
      (paid ++ [min (w - paid.sum) rate]) := by
  obtain ⟨hr, hdvd, hnext⟩ := h.running hlt
  have hsum : (paid ++ [min (w - paid.sum) rate]).sum = paid.sum + min (w - paid.sum) rate := by
    rw [List.sum_append, List.sum_singleton]
  have hnonneg := h.nonneg
  have hschedule : paid ++ [min (w - paid.sum) rate] ++
      installments (w - (paid ++ [min (w - paid.sum) rate]).sum) rate = installments w rate := by
    rw [hsum, ← sub_sub, List.append_assoc, List.singleton_append,
      ← installments_of_pos hrate (sub_pos.2 hlt), h.schedule]
  unfold State.settle
  dsimp only
  rw [h.to_withdraw, h.withdrawn]
  split
  · -- with no shares left, nothing is left to withdraw
    rename_i hdone
    have hlast : paid.sum + min (w - paid.sum) rate = w := by omega
    refine ⟨rfl, hsum.symm, by omega, by omega, hschedule, fun hlt' => ?_, fun _ => ⟨rfl, rfl⟩⟩
    omega
  · rename_i hmore
    refine ⟨rfl, hsum.symm, by omega, by omega, hschedule, fun _ => ⟨hr, ?_, ?_⟩,
      fun hdone => by omega⟩
    · have hfull : min (w - paid.sum) rate = rate := by omega
      rw [hsum, hfull]
      exact dvd_add hdvd dvd_rfl
    · rw [hnext, Option.map_some, List.length_append, List.length_singleton]
      exact congrArg some (by ring)

end Power.Paying

/-! ## The loop -/

namespace State

variable {s s' : State} {a : AccountId}

variable {current : ℕ ×ₗ ℕ} {steps : ℕ}

/-! ### Whom the loop comes to -/

theorem withdrawalIndex_sorted (s : State) : s.withdrawalIndex.Pairwise (· ≤ ·) := by
  have htrans : ∀ x y z : ℕ ×ₗ ℕ, decide (x ≤ y) = true → decide (y ≤ z) = true →
      decide (x ≤ z) = true := fun x y z hxy hyz =>
    decide_eq_true ((of_decide_eq_true hxy).trans (of_decide_eq_true hyz))
  have htotal : ∀ x y : ℕ ×ₗ ℕ, (decide (x ≤ y) || decide (y ≤ x)) = true := fun x y => by
    simpa using le_total x y
  exact (List.pairwise_mergeSort htrans htotal _).imp fun h => of_decide_eq_true h

/-- The place after `current` is not behind a later one of the index. -/
theorem exists_next_le {current k : ℕ ×ₗ ℕ} (hlt : current < k) (hk : k ∈ s.withdrawalIndex) :
    ∃ j, s.withdrawalIndex.find? (fun k => decide (current < k)) = some j ∧ j ≤ k := by
  have hsorted := s.withdrawalIndex_sorted
  generalize s.withdrawalIndex = index at hk hsorted
  induction index with
  | nil => cases hk
  | cons j rest ih =>
    obtain ⟨hfirst, hrest⟩ := List.pairwise_cons.1 hsorted
    rw [List.find?_cons]
    by_cases hj : current < j
    · rw [decide_eq_true hj]
      refine ⟨j, rfl, ?_⟩
      rcases List.mem_cons.1 hk with rfl | hk
      · exact le_rfl
      · exact hfirst k hk
    · rw [decide_eq_false hj]
      rcases List.mem_cons.1 hk with rfl | hk
      · exact absurd hlt hj
      · exact ih hk hrest

theorem exists_head_le {k : ℕ ×ₗ ℕ} (hk : k ∈ s.withdrawalIndex) :
    ∃ j, s.withdrawalIndex.head? = some j ∧ j ≤ k := by
  have hsorted := s.withdrawalIndex_sorted
  cases hindex : s.withdrawalIndex with
  | nil =>
    rw [hindex] at hk
    cases hk
  | cons j rest =>
    rw [hindex] at hk hsorted
    refine ⟨j, rfl, ?_⟩
    rcases List.mem_cons.1 hk with rfl | hk
    · exact le_rfl
    · exact (List.pairwise_cons.1 hsorted).1 k hk

/-- An account whose withdrawal is due and not behind the iterator is paid. -/
theorem withdrawalsFrom_ne_nil {steps t : ℕ} (hcurrent : current ∈ s.withdrawalIndex)
    (hle : current ≤ toLex (t, a)) (ha : toLex (t, a) ∈ s.withdrawalIndex)
    (hdue : t ≤ s.head_block_time) (h : processFrom steps (some current) s = .ok s') :
    withdrawalsFrom a steps (some current) s ≠ [] := by
  induction steps using Nat.strong_induction_on generalizing current s with
  | _ steps ih =>
    obtain ⟨-, -, hlater⟩ | ⟨rest, k, s1, rfl, hk, h1, h, hlog⟩ := processFrom_cases (a := a) h
    · exact absurd (hlater _ rfl) (not_lt.2 ((Prod.Lex.monotone_fst _ _ hle).trans hdue))
    · cases hk
      have hw := Withdrawn.processWithdrawal h1
      rw [hlog]
      by_cases hx : (ofLex current).2 = a
      · rw [if_pos hx]
        exact List.cons_ne_nil _ _
      · rw [if_neg hx, List.nil_append]
        have hlt : current < toLex (t, a) := lt_of_le_of_ne hle fun he => hx (by rw [he]; rfl)
        obtain ⟨j, hj, hjle⟩ := exists_next_le hlt ha
        rw [hj] at h ⊢
        obtain ⟨hexists, hnext⟩ := mem_withdrawalIndex.1 ha
        refine ih rest (Nat.lt_succ_self rest) (hw.mem_withdrawalIndex hcurrent hj) hjle ?_
          (hw.head_block_time ▸ hdue) h
        exact mem_withdrawalIndex.2 ⟨hw.base.num_accounts ▸ hexists,
          (hw.next_vesting_withdrawal (Ne.symm hx)).trans hnext⟩

/-! ### Its end -/

theorem mulPrice_in_steps (amount num den : ℤ) :
    Throws (mulPrice amount num den) (· ≠ .out_of_steps) :=
  .check_bind (fun _ => nofun) (.check_bind (fun _ => nofun) (.ok _))

theorem payRoutes_in_steps (to_withdraw : ℕ) (routes : List Route) (m : Payout) :
    Throws (payRoutes to_withdraw routes m) (· ≠ .out_of_steps) := by
  induction routes generalizing m with
  | nil => exact .ok m
  | cons r rest ih =>
    unfold payRoutes
    split
    · exact ih m
    · exact .bind (mulPrice_in_steps _ _ _) fun _ _ => ih _

theorem processWithdrawal_in_steps (s : State) (a : AccountId) :
    Throws (s.processWithdrawal a) (· ≠ .out_of_steps) :=
  .check_bind (fun _ => nofun) (.bind (.withError fun _ => nofun) fun _ _ =>
    .bind (payRoutes_in_steps _ _ _) fun _ _ => .bind (mulPrice_in_steps _ _ _) fun _ _ => .ok _)

/-- Places of the index from `current` on, up to the time of the block. -/
def placesFrom (s : State) (current : ℕ ×ₗ ℕ) : ℕ :=
  (s.head_block_time - (ofLex current).1) * s.base.num_accounts +
    (s.base.num_accounts - (ofLex current).2)

theorem placesFrom_lt {current k : ℕ ×ₗ ℕ} (hcurrent : (ofLex current).2 < s.base.num_accounts)
    (hlt : current < k) (hk : (ofLex k).1 ≤ s.head_block_time) :
    s.placesFrom k < s.placesFrom current := by
  unfold placesFrom
  rcases Prod.Lex.lt_iff.1 hlt with htime | ⟨htime, hid⟩
  · have hmul : (s.head_block_time - (ofLex k).1 + 1) * s.base.num_accounts ≤
        (s.head_block_time - (ofLex current).1) * s.base.num_accounts :=
      Nat.mul_le_mul_right _ (by omega)
    rw [Nat.succ_mul] at hmul
    omega
  · rw [htime]
    omega

theorem processFrom_in_steps (hcurrent : current ∈ s.withdrawalIndex)
    (hsteps : (ofLex current).1 ≤ s.head_block_time → s.placesFrom current ≤ steps) :
    Throws (processFrom steps (some current) s) (· ≠ .out_of_steps) := by
  induction steps using Nat.strong_induction_on generalizing current s with
  | _ steps ih =>
    have hexists := (mem_withdrawalIndex.1 hcurrent).1
    unfold processFrom
    split
    · exact .ok s
    · rename_i hdue
      have hcount := hsteps (not_lt.1 hdue)
      cases steps with
      | zero =>
        unfold placesFrom at hcount
        omega
      | succ steps =>
        refine .bind (s.processWithdrawal_in_steps _) fun s1 h1 => ?_
        have hw := Withdrawn.processWithdrawal h1
        cases hk : s.withdrawalIndex.find? fun k => decide (current < k) with
        | none =>
          unfold processFrom
          exact .ok s1
        | some k =>
          refine ih steps (Nat.lt_succ_self steps) (hw.mem_withdrawalIndex hcurrent hk) fun hdue' => ?_
          have hlt : current < k := by simpa using List.find?_some hk
          rw [hw.head_block_time] at hdue'
          have hfewer := placesFrom_lt hexists hlt hdue'
          have hsame : s1.placesFrom k = s.placesFrom k := by
            unfold placesFrom
            rw [hw.head_block_time, hw.base.num_accounts]
          omega

/-- The loop ends: the bound on its rounds is never what stops it. -/
theorem process_vesting_withdrawals_in_steps (s : State) :
    Throws s.process_vesting_withdrawals (· ≠ .out_of_steps) := by
  unfold process_vesting_withdrawals
  cases hk : s.withdrawalIndex.head? with
  | none =>
    unfold processFrom
    exact .ok s
  | some k =>
    refine processFrom_in_steps (List.mem_of_mem_head? hk) fun hdue => ?_
    have hmul : (s.head_block_time - (ofLex k).1) * s.base.num_accounts ≤
        s.head_block_time * s.base.num_accounts := Nat.mul_le_mul_right _ (Nat.sub_le _ _)
    unfold placesFrom
    rw [Nat.succ_mul]
    omega

end State

/-! ## Runs -/

def Call.isProcess : Call → Bool
  | .process_vesting_withdrawals => true
  | _ => false

/-- What the call withdraws from `a`, if it returns. -/
def Call.withdrawals (a : AccountId) (s : State) : Call → List ℤ
  | .process_vesting_withdrawals =>
    s.withdrawalsFrom a ((s.head_block_time + 1) * s.base.num_accounts) s.withdrawalIndex.head?
  | _ => []

/-- The withdrawals from `a` in a run. -/
def withdrawals (a : AccountId) (s : State) (calls : List Call) : List ℤ :=
  logCalls Call.apply (Call.withdrawals a) s calls

/-- The shares of `a` cover what is still to withdraw, and only a withdrawal changes its record. -/
def Undisturbed (a : AccountId) (s : State) (c : Call) : Prop :=
  (s.power a).to_withdraw - (s.power a).withdrawn ≤ s.shares a ∧
    (c.isProcess = false →
      ((performCall Call.apply s c).power a).withdrawal = (s.power a).withdrawal)

instance (a : AccountId) (s : State) (c : Call) : Decidable (Undisturbed a s c) :=
  decidable_of_iff (_ ∧ (c.isProcess = false → _))
    (and_congr_right fun _ => imp_congr_right fun _ => Power.withdrawal_eq_iff.symm)

section

variable {s s' : State} {a : AccountId} {w rate : ℤ} {start : ℕ} {paid : List ℤ}

theorem paying_of_withdraw_vesting (hw : 0 < w) (h : s.withdraw_vesting a w = .ok s') :
    (s'.power a).Paying w (State.withdrawRate w) s.head_block_time [] ∧
      a < s'.base.num_accounts := by
  obtain ⟨ha, -, ⟨hzero, -⟩ | ⟨-, rfl⟩⟩ := State.withdraw_vesting_cases h
  · exact absurd hzero hw.ne'
  · rw [State.power_modifyPower, if_pos rfl]
    exact ⟨.initial _ hw _, ha⟩

/-- What the loop keeps: the payments so far and that the shares cover the rest. -/
theorem paying_process (hrate : 0 < rate) (hp : (s.power a).Paying w rate start paid)
    (hshares : (s.power a).to_withdraw - (s.power a).withdrawn ≤ s.shares a)
    (h : s.process_vesting_withdrawals = .ok s') :
    (s'.power a).Paying w rate start
      (paid ++ Call.withdrawals a s .process_vesting_withdrawals) := by
  let P (s : State) (paid : List ℤ) : Prop := (s.power a).Paying w rate start paid ∧
    (s.power a).to_withdraw - (s.power a).withdrawn ≤ s.shares a
  have hother : ∀ {s s' : State} {x : AccountId} {paid : List ℤ}, P s paid → x ≠ a →
      s.Withdrawn s' x → P s' paid := by
    rintro s s' x paid ⟨hp, hshares⟩ hx hw
    have hstake := congrArg Power.withdrawal (hw.stake a hx.symm)
    have hsame : (s'.power a).withdrawal = (s.power a).withdrawal := hstake
    obtain ⟨-, -, hwithdrawn, hto⟩ := Power.withdrawal_eq_iff.1 hsame
    refine ⟨hp.congr hsame, ?_⟩
    rw [hwithdrawn, hto]
    exact hshares.trans (hw.shares_le hx.symm)
  have hown : ∀ {s s' : State} {t : ℕ} {paid : List ℤ}, P s paid →
      (s.power a).next_vesting_withdrawal = some t → s.Withdrawn s' a →
      P s' (paid ++ [s.withdrawalAmount a]) := by
    rintro s s' t paid ⟨hp, hshares⟩ hnext hw
    have hlt : paid.sum < w := hp.lt_of_next (by rw [hnext]; exact Option.some_ne_none t)
    have hamount : s.withdrawalAmount a = min (w - paid.sum) rate := hp.amount hrate hlt hshares
    have hrest : w - paid.sum - s.withdrawalAmount a ≤ s'.shares a := by
      have hcovered := hw.own_shares_le
      rw [hp.to_withdraw, hp.withdrawn] at hshares
      omega
    have hstake := hw.own_stake
    rw [hamount] at hrest hstake ⊢
    have hpaying := (hp.congr (q := (s.power a).stake) rfl).settle hrate hlt hrest
    rw [← hstake] at hpaying
    have hpaying' := hpaying.congr (q := s'.power a) rfl
    refine ⟨hpaying', ?_⟩
    rw [hpaying'.to_withdraw, hpaying'.withdrawn, List.sum_append, List.sum_singleton, ← sub_sub]
    exact hrest
  refine (State.withdrawalsFrom_rule (P := P) (fun {s s' x t paid} hP _ hnext hs => ?_)
    paid (fun _ hk => List.mem_of_mem_head? hk) ⟨hp, hshares⟩ h).1
  have hw := State.Withdrawn.processWithdrawal hs
  split_ifs with hx
  · subst hx
    exact hown hP hnext hw
  · rw [List.append_nil]
    exact hother hP hx hw

theorem paying_call (hrate : 0 < rate) {c : Call} (hp : (s.power a).Paying w rate start paid)
    (hc : Undisturbed a s c) (h : c.apply s = .ok s') :
    (s'.power a).Paying w rate start (paid ++ c.withdrawals a s) := by
  cases hprocess : c.isProcess with
  | true =>
    cases c <;> cases hprocess
    exact paying_process hrate hp hc.1 (check_bind_ok.1 h).2
  | false =>
    have hsame := hc.2 hprocess
    have hnone : c.withdrawals a s = [] := by cases c <;> first | rfl | cases hprocess
    rw [performCall_of_ok h] at hsame
    rw [hnone, List.append_nil]
    exact hp.congr hsame

end

/-- How far the withdrawals that a request of `w` shares at time `start` causes have come. -/
structure Downpaid (s : State) (a : AccountId) (w : ℤ) (start : ℕ) (paid : List ℤ) : Prop where
  payments : paid <+: installments w (max (w / STEEMIT_VESTING_WITHDRAW_INTERVALS) 1)
  running : paid ≠ installments w (max (w / STEEMIT_VESTING_WITHDRAW_INTERVALS) 1) →
    (s.power a).vesting_withdraw_rate = max (w / STEEMIT_VESTING_WITHDRAW_INTERVALS) 1 ∧
      (s.power a).next_vesting_withdrawal =
        some (start + (paid.length + 1) * STEEMIT_VESTING_WITHDRAW_INTERVAL_SECONDS)
  finished : paid = installments w (max (w / STEEMIT_VESTING_WITHDRAW_INTERVALS) 1) →
    paid.sum = w ∧ (s.power a).vesting_withdraw_rate = 0 ∧
      (s.power a).next_vesting_withdrawal = none

theorem Power.Paying.downpaid {s : State} {a : AccountId} {w : ℤ} {start : ℕ} {paid : List ℤ}
    (hw : 0 < w) (h : (s.power a).Paying w (State.withdrawRate w) start paid) :
    Downpaid s a w start paid := by
  have hrate := State.withdrawRate_pos hw
  have hsum := sum_installments hw.le hrate
  have hfull : paid = installments w (State.withdrawRate w) → paid.sum = w := by
    intro hpaid
    rw [hpaid, hsum]
  have hpart : paid ≠ installments w (State.withdrawRate w) → paid.sum < w := by
    intro hne
    refine lt_of_le_of_ne h.le fun hpaid => hne ?_
    have hschedule := h.schedule
    rwa [hpaid, sub_self, installments_zero, List.append_nil] at hschedule
  rw [State.withdrawRate_of_pos hw] at *
  refine ⟨⟨_, h.schedule⟩, fun hne => ?_, fun hpaid => ⟨hfull hpaid, h.finished (hfull hpaid)⟩⟩
  obtain ⟨hr, -, hnext⟩ := h.running (hpart hne)
  exact ⟨hr, hnext⟩

/-- After an accepted request of `w` shares, in every run in which the settings are not changed again
and the shares cover the rest: the withdrawals are the first of the installments of `w`, and with the
last one the power down ends. Every `process_vesting_withdrawals` at which one is due pays one. -/
theorem withdraw_vesting_pays {s s₀ : State} {a : AccountId} {w : ℤ} {calls : List Call}
    (h : s.withdraw_vesting a w = .ok s₀) (hw : 0 < w)
    (hcalls : Along Call.apply (Undisturbed a) s₀ calls) :
    Downpaid (run s₀ calls) a w s.head_block_time (withdrawals a s₀ calls) ∧
      ∀ t s', ((run s₀ calls).power a).next_vesting_withdrawal = some t →
        t ≤ (run s₀ calls).head_block_time →
        (run s₀ calls).process_vesting_withdrawals = .ok s' →
        Call.withdrawals a (run s₀ calls) .process_vesting_withdrawals ≠ [] := by
  have hrate := State.withdrawRate_pos hw
  obtain ⟨hp, hexists⟩ := logCalls_rule (Call.withdrawals a)
    (P := fun s paid => (s.power a).Paying w (State.withdrawRate w) _ paid ∧ a < s.base.num_accounts)
    (fun hP hc hs => ⟨paying_call hrate hP.1 hc hs, hP.2.trans_le (Call.effect hs).num_accounts_le⟩)
    (paying_of_withdraw_vesting hw h) hcalls
  refine ⟨hp.downpaid hw, fun t s' hnext hdue hprocess => ?_⟩
  have hmem : toLex (t, a) ∈ (run s₀ calls).withdrawalIndex :=
    State.mem_withdrawalIndex.2 ⟨hexists, hnext⟩
  obtain ⟨k, hk, hle⟩ := State.exists_head_le hmem
  unfold State.process_vesting_withdrawals at hprocess
  unfold Call.withdrawals
  rw [hk] at hprocess ⊢
  exact State.withdrawalsFrom_ne_nil (List.mem_of_mem_head? hk) hle hmem hdue hprocess

/-- Account 3 has vested 1000 STEEM. -/
def vested : State := run genesis [.create_vesting 3 1000]

/-- It asks for 27 shares. -/
def requested : State := performCall Call.apply vested (.withdraw_vesting 3 27)

theorem withdraw_vesting_pays_requested :
    withdrawals 3 requested (weeks 14) = List.replicate 13 2 ++ [1] ∧
      Downpaid (run requested (weeks 14)) 3 27 vested.head_block_time
        (withdrawals 3 requested (weeks 14)) := by
  have haccepted : accepts Call.apply vested (.withdraw_vesting 3 27) = true := by decide +kernel
  have happly : Call.apply vested (.withdraw_vesting 3 27) = .ok requested :=
    eq_ok_of_accepts haccepted
  have hrequest := (check_bind_ok.1 happly).2
  exact ⟨by decide +kernel, (withdraw_vesting_pays hrequest (by decide) (by decide +kernel)).1⟩

end Calibrd.Chain.Vesting
