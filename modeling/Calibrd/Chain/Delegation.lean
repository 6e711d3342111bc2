import Calibrd.Chain.VestingSteps

/-!
# Delegation accounting

What an account has delegated is the sum of the delegations it issued and of the parts it took back
that have not expired; what it has received is the sum of the delegations to it
(`run_delegations_accounted`). Every call keeps this (`Accounted`), since each change of a
delegation or expiration object comes with the same change of the two accounts.
-/

namespace Calibrd.Chain.Vesting

open Calibrd.Lib
open Calibrd.Chain.WitnessVotes (AccountId WitnessId STEEMIT_NULL_ACCOUNT)
open Calibrd.Chain.WitnessVotes.State (SameShares SplitBy)

/-- The part of a delegation that counts for its delegator `a`. -/
def Delegation.issuedBy (a : AccountId) (d : Delegation) : ℤ :=
  if d.delegator = a then d.vesting_shares else 0

def Delegation.receivedBy (a : AccountId) (d : Delegation) : ℤ :=
  if d.delegatee = a then d.vesting_shares else 0

def Expiration.owedTo (a : AccountId) (e : Expiration) : ℤ :=
  if e.delegator = a then e.vesting_shares else 0

/-! ## The tables -/

section Tables

variable {n m id : ℕ} {k : AccountId ×ₗ AccountId} {d : Delegation} {e : Expiration}
  {delegations : OrdMap (AccountId ×ₗ AccountId) Delegation} {expirations : OrdMap (ℕ ×ₗ ℕ) Expiration}

/-- A delegation between two of `n` accounts, stored under `k`. -/
structure Delegation.Ok (n : ℕ) (k : AccountId ×ₗ AccountId) (d : Delegation) : Prop where
  keyed : k = toLex (d.delegator, d.delegatee)
  delegator_lt : d.delegator < n
  delegatee_lt : d.delegatee < n
  nonneg : 0 ≤ d.vesting_shares

def DelegationsOk (n : ℕ) (delegations : OrdMap (AccountId ×ₗ AccountId) Delegation) : Prop :=
  ∀ k d, delegations.find? k = some d → d.Ok n k

theorem DelegationsOk.mono (h : DelegationsOk n delegations) (hn : n ≤ m) :
    DelegationsOk m delegations := by
  intro k d hd
  have hok := h k d hd
  exact ⟨hok.keyed, hok.delegator_lt.trans_le hn, hok.delegatee_lt.trans_le hn, hok.nonneg⟩

theorem DelegationsOk.insert (h : DelegationsOk n delegations) (hd : d.Ok n k) :
    DelegationsOk n (delegations.insert k d) :=
  OrdMap.forall_insert h hd

theorem DelegationsOk.erase (h : DelegationsOk n delegations) (k : AccountId ×ₗ AccountId) :
    DelegationsOk n (delegations.erase k) :=
  fun j d hj => h j d (OrdMap.find?_of_erase hj)

/-- An expiration object of one of `n` accounts, whose id is below the next one. -/
structure Expiration.Ok (n id : ℕ) (k : ℕ ×ₗ ℕ) (e : Expiration) : Prop where
  delegator_lt : e.delegator < n
  nonneg : 0 ≤ e.vesting_shares
  id_lt : (ofLex k).2 < id

def ExpirationsOk (n id : ℕ) (expirations : OrdMap (ℕ ×ₗ ℕ) Expiration) : Prop :=
  ∀ k e, expirations.find? k = some e → e.Ok n id k

section

variable (h : ExpirationsOk n id expirations)

include h

theorem ExpirationsOk.mono (hn : n ≤ m) :
    ExpirationsOk m id expirations := by
  intro k e he
  have hok := h k e he
  exact ⟨hok.delegator_lt.trans_le hn, hok.nonneg, hok.id_lt⟩

theorem ExpirationsOk.insert (t : ℕ) (hlt : e.delegator < n) (hv : 0 ≤ e.vesting_shares) :
    ExpirationsOk n (id + 1) (expirations.insert (toLex (t, id)) e) := by
  refine OrdMap.forall_insert (fun j e' hj => ?_) ⟨hlt, hv, Nat.lt_succ_self id⟩
  have hok := h j e' hj
  exact ⟨hok.delegator_lt, hok.nonneg, hok.id_lt.trans (Nat.lt_succ_self id)⟩

theorem ExpirationsOk.erase (k : ℕ ×ₗ ℕ) : ExpirationsOk n id (expirations.erase k) :=
  fun j e hj => h j e (OrdMap.find?_of_erase hj)

theorem ExpirationsOk.find?_next (t : ℕ) :
    expirations.find? (toLex (t, id)) = none := by
  cases he : expirations.find? (toLex (t, id)) with
  | none => rfl
  | some e => exact absurd (h _ e he).id_lt (lt_irrefl id)

end

/-! ## Sums over the delegations -/

/-- The shares of the delegation from `x` to `y`. -/
def sharesAt (delegations : OrdMap (AccountId ×ₗ AccountId) Delegation) (x y : AccountId) : ℤ :=
  delegations.sumAt Delegation.vesting_shares (toLex (x, y))

variable (h : DelegationsOk n delegations)

include h

theorem DelegationsOk.sumAt_both (x y a : AccountId) :
    delegations.sumAt (Delegation.issuedBy a) (toLex (x, y)) =
        (if x = a then sharesAt delegations x y else 0) ∧
      delegations.sumAt (Delegation.receivedBy a) (toLex (x, y)) =
        if y = a then sharesAt delegations x y else 0 := by
  unfold sharesAt OrdMap.sumAt
  cases hd : delegations.find? (toLex (x, y)) with
  | none => simp
  | some d =>
    obtain ⟨rfl, rfl⟩ := Prod.mk.inj (congrArg ofLex (h _ d hd).keyed)
    exact ⟨rfl, rfl⟩

/-- A delegation that is set changes the sums of its two accounts by the difference. -/
theorem DelegationsOk.sum_insert (hd : d.Ok n k) (a : AccountId) :
    (delegations.insert k d).sum (Delegation.issuedBy a) =
        delegations.sum (Delegation.issuedBy a) +
          (if d.delegator = a then
            d.vesting_shares - sharesAt delegations d.delegator d.delegatee else 0) ∧
      (delegations.insert k d).sum (Delegation.receivedBy a) =
        delegations.sum (Delegation.receivedBy a) +
          if d.delegatee = a then
            d.vesting_shares - sharesAt delegations d.delegator d.delegatee else 0 := by
  rw [OrdMap.sum_insert, OrdMap.sum_insert, hd.keyed, (h.sumAt_both _ _ a).1, (h.sumAt_both _ _ a).2,
    Delegation.issuedBy, Delegation.receivedBy]
  constructor
  · split <;> omega
  · split <;> omega

theorem DelegationsOk.sum_erase (x y a : AccountId) :
    (delegations.erase (toLex (x, y))).sum (Delegation.issuedBy a) =
        delegations.sum (Delegation.issuedBy a) +
          (if x = a then -sharesAt delegations x y else 0) ∧
      (delegations.erase (toLex (x, y))).sum (Delegation.receivedBy a) =
        delegations.sum (Delegation.receivedBy a) +
          if y = a then -sharesAt delegations x y else 0 := by
  rw [OrdMap.sum_erase, OrdMap.sum_erase, (h.sumAt_both x y a).1, (h.sumAt_both x y a).2]
  constructor
  · split <;> omega
  · split <;> omega

end Tables

namespace State

variable {s s' s1 : State} {a delegator delegatee : AccountId} {d : Delegation}

/-! ## The invariant -/

/-- The invariant of the delegation and expiration objects. -/
structure Accounted (s : State) : Prop where
  delegations : DelegationsOk s.base.num_accounts s.delegations
  expirations : ExpirationsOk s.base.num_accounts s.next_expiration_id s.expirations
  delegated : ∀ a, (s.power a).delegated_vesting_shares =
    s.delegations.sum (Delegation.issuedBy a) + s.expirations.sum (Expiration.owedTo a)
  received : ∀ a, (s.power a).received_vesting_shares = s.delegations.sum (Delegation.receivedBy a)

/-- What an account has delegated and received. -/
def flows (p : Power) : ℤ × ℤ := (p.delegated_vesting_shares, p.received_vesting_shares)

theorem Accounted.congr (h : s.Accounted) (hn : s.base.num_accounts ≤ s'.base.num_accounts)
    (hdelegations : s'.delegations = s.delegations) (hexpirations : s'.expirations = s.expirations)
    (hid : s'.next_expiration_id = s.next_expiration_id)
    (hflows : ∀ a, flows (s'.power a) = flows (s.power a)) : s'.Accounted where
  delegations := by rw [hdelegations]; exact h.delegations.mono hn
  expirations := by rw [hexpirations, hid]; exact h.expirations.mono hn
  delegated a := by
    rw [hdelegations, hexpirations, ← h.delegated]
    exact congrArg Prod.fst (hflows a)
  received a := by
    rw [hdelegations, ← h.received]
    exact congrArg Prod.snd (hflows a)

theorem flows_stake (p : Power) : flows p.stake = flows p := rfl

theorem flows_of_stake {p q : Power} (h : p.stake = q.stake) : flows p = flows q := by
  rw [← flows_stake p, h, flows_stake]

theorem Accounted.quiet (h : s.Accounted) (hq : Quiet s s') : s'.Accounted :=
  h.congr hq.num_accounts.ge hq.delegations hq.expirations hq.next_expiration_id
    fun a => flows_of_stake (hq.stake a)

theorem Accounted.withdrawn (h : s.Accounted) (hw : Withdrawn s s' a) : s'.Accounted := by
  refine h.congr hw.base.num_accounts.ge hw.delegations hw.expirations hw.next_expiration_id
    fun x => ?_
  by_cases hx : x = a
  · subst hx
    rw [← flows_stake (s'.power x), hw.own_stake]
    exact settle_keeps (f := flows) _ (fun _ _ _ _ => rfl) _ _
  · exact flows_of_stake (hw.stake x hx)

theorem Accounted.modifyPower (h : s.Accounted) {f : Power → Power}
    (hflows : flows (f (s.power a)) = flows (s.power a)) : (s.modifyPower a f).Accounted :=
  h.congr le_rfl rfl rfl rfl (WitnessVotes.State.field_update flows hflows)

variable {v : ℤ}

theorem Accounted.withdraw_vesting (h : s.Accounted) (hs : s.withdraw_vesting a v = .ok s') :
    s'.Accounted := by
  obtain ⟨-, -, ⟨-, rfl⟩ | ⟨-, rfl⟩⟩ := withdraw_vesting_cases hs
  · exact h.modifyPower rfl
  · exact h.modifyPower rfl

/-! ## Changes of a delegation -/

/-- A delegation is set, and both accounts change by the difference. -/
theorem Accounted.setDelegation (h : s.Accounted) (hn : s.base.num_accounts ≤ s'.base.num_accounts)
    (hd : d.Ok s'.base.num_accounts (toLex (delegator, delegatee)))
    (hdelegations : s'.delegations = s.delegations.insert (toLex (delegator, delegatee)) d)
    (hexpirations : s'.expirations = s.expirations)
    (hid : s'.next_expiration_id = s.next_expiration_id)
    (hflows : ∀ a, flows (s'.power a) = flows (s.power a) +
      (if d.delegator = a then
          d.vesting_shares - sharesAt s.delegations d.delegator d.delegatee else 0,
        if d.delegatee = a then
          d.vesting_shares - sharesAt s.delegations d.delegator d.delegatee else 0)) :
    s'.Accounted := by
  have hsum := (h.delegations.mono hn).sum_insert hd
  refine ⟨?_, ?_, fun a => ?_, fun a => ?_⟩
  · rw [hdelegations]
    exact (h.delegations.mono hn).insert hd
  · rw [hexpirations, hid]
    exact h.expirations.mono hn
  · refine (congrArg Prod.fst (hflows a)).trans ?_
    rw [hdelegations, hexpirations, (hsum a).1, add_right_comm, ← h.delegated]
    rfl
  · refine (congrArg Prod.snd (hflows a)).trans ?_
    rw [hdelegations, (hsum a).2, ← h.received]
    rfl

theorem flows_grow (s : State) (x y : AccountId) (delta : ℤ) (a : AccountId) :
    flows ((s.grow x y delta).power a) =
      flows (s.power a) + (if x = a then delta else 0, if y = a then delta else 0) := by
  by_cases hx : x = a <;> by_cases hy : y = a <;>
    simp [flows, grow, State.modifyPower, Function.update_apply, hx, hy, eq_comm (a := a)]

theorem Accounted.grow (h : s.Accounted) (hd : d.Ok s.base.num_accounts (toLex (delegator, delegatee))) :
    ((s.grow d.delegator d.delegatee
      (d.vesting_shares - sharesAt s.delegations d.delegator d.delegatee)).setDelegation
        delegator delegatee d).Accounted :=
  h.setDelegation le_rfl hd rfl rfl rfl (flows_grow s _ _ _)

theorem flows_takeBack (s : State) (x y : AccountId) (d : Delegation) (v : ℤ) (a : AccountId) :
    flows ((s.takeBack x y d v).power a) =
      flows (s.power a) + (0, if y = a then v - d.vesting_shares else 0) := by
  by_cases hy : a = y
  · subst hy
    simp only [flows, takeBack, State.modifyPower, Function.update_self, if_true, Prod.mk_add_mk,
      add_zero, Prod.mk.injEq, true_and]
    omega
  · simp [flows, takeBack, State.modifyPower, Function.update_of_ne hy, Ne.symm hy]

section

variable (h : s.Accounted)

include h

/-- What is taken back moves from the delegation to an expiration object. -/
theorem Accounted.takeBack (hnonneg : 0 ≤ v) (hlt : v < d.vesting_shares)
    (hd : s.delegations.find? (toLex (delegator, delegatee)) = some d) :
    (s.takeBack delegator delegatee d v).Accounted := by
  have hok := h.delegations _ d hd
  obtain ⟨rfl, rfl⟩ := Prod.mk.inj (congrArg ofLex hok.keyed)
  have hshares : sharesAt s.delegations d.delegator d.delegatee = d.vesting_shares := by
    simp only [sharesAt, OrdMap.sumAt, hd, Option.elim_some]
  have hleft : ({ d with vesting_shares := v } : Delegation).Ok s.base.num_accounts
      (toLex (d.delegator, d.delegatee)) := ⟨hok.keyed, hok.delegator_lt, hok.delegatee_lt, hnonneg⟩
  have hdelegations : DelegationsOk s.base.num_accounts (s.takeBack d.delegator d.delegatee d v).delegations ∧
      ∀ a, (s.takeBack d.delegator d.delegatee d v).delegations.sum (Delegation.issuedBy a) =
          s.delegations.sum (Delegation.issuedBy a) +
            (if d.delegator = a then v - d.vesting_shares else 0) ∧
        (s.takeBack d.delegator d.delegatee d v).delegations.sum (Delegation.receivedBy a) =
          s.delegations.sum (Delegation.receivedBy a) +
            if d.delegatee = a then v - d.vesting_shares else 0 := by
    by_cases hv : 0 < v
    · simp only [State.takeBack, if_pos hv]
      refine ⟨h.delegations.insert hleft, fun a => ?_⟩
      have hsum := h.delegations.sum_insert hleft a
      dsimp only at hsum
      rw [hshares] at hsum
      exact hsum
    · simp only [State.takeBack, if_neg hv]
      refine ⟨h.delegations.erase _, fun a => ?_⟩
      have hsum := h.delegations.sum_erase d.delegator d.delegatee a
      have hzero : v - d.vesting_shares = -d.vesting_shares := by omega
      rw [hshares] at hsum
      rw [hzero]
      exact hsum
  refine ⟨hdelegations.1, ?_, fun a => ?_, fun a => ?_⟩
  · exact h.expirations.insert _ hok.delegator_lt (by dsimp only; omega)
  · have hexpirations : (s.takeBack d.delegator d.delegatee d v).expirations.sum (Expiration.owedTo a) =
        s.expirations.sum (Expiration.owedTo a) +
          if d.delegator = a then d.vesting_shares - v else 0 :=
      OrdMap.sum_insert_of_none _ _ (h.expirations.find?_next _)
    refine (congrArg Prod.fst (flows_takeBack s _ _ d v a)).trans ?_
    rw [(hdelegations.2 a).1, hexpirations]
    refine (add_zero _).trans ((h.delegated a).trans ?_)
    split <;> omega
  · refine (congrArg Prod.snd (flows_takeBack s _ _ d v a)).trans ?_
    rw [(hdelegations.2 a).2, ← h.received]
    rfl

theorem Accounted.delegate_vesting_shares
    (hs : s.delegate_vesting_shares delegator delegatee v = .ok s') : s'.Accounted := by
  obtain ⟨-, hv, hx, hy, hcases⟩ := delegate_vesting_shares_cases hs
  obtain ⟨hd, -, rfl⟩ | ⟨d, hd, -, -, rfl⟩ | ⟨d, hd, hlt, rfl⟩ := hcases
  · have hshares : sharesAt s.delegations delegator delegatee = 0 := by
      simp only [sharesAt, OrdMap.sumAt, hd, Option.elim_none]
    have hgrow := h.grow (d := ⟨delegator, delegatee, v, s.head_block_time⟩) ⟨rfl, hx, hy, hv⟩
    rwa [hshares, sub_zero] at hgrow
  · have hok := h.delegations _ d hd
    obtain ⟨rfl, rfl⟩ := Prod.mk.inj (congrArg ofLex hok.keyed)
    have hshares : sharesAt s.delegations d.delegator d.delegatee = d.vesting_shares := by
      simp only [sharesAt, OrdMap.sumAt, hd, Option.elim_some]
    have hgrow := h.grow (d := { d with vesting_shares := v })
      ⟨hok.keyed, hok.delegator_lt, hok.delegatee_lt, hv⟩
    dsimp only at hgrow
    rwa [hshares] at hgrow
  · exact h.takeBack hv hlt hd

theorem Accounted.returnDelegation {key : ℕ ×ₗ ℕ} {e : Expiration}
    (he : s.expirations.find? key = some e) : (s.returnDelegation key e).Accounted := by
  refine ⟨h.delegations, h.expirations.erase key, fun a => ?_, fun a => ?_⟩
  · have hsum := OrdMap.sum_erase_of_some (Expiration.owedTo a) he
    have hpower : ((s.returnDelegation key e).power a).delegated_vesting_shares =
        (s.power a).delegated_vesting_shares - Expiration.owedTo a e := by
      by_cases hx : a = e.delegator
      · subst hx
        simp [State.returnDelegation, State.modifyPower, Expiration.owedTo]
      · simp [State.returnDelegation, State.modifyPower, Function.update_of_ne hx,
          Expiration.owedTo, Ne.symm hx]
    have htable : (s.returnDelegation key e).expirations.sum (Expiration.owedTo a) =
        s.expirations.sum (Expiration.owedTo a) - Expiration.owedTo a e := hsum
    rw [hpower, htable, h.delegated]
    exact add_sub_assoc _ _ _
  · refine Eq.trans ?_ (h.received a)
    exact WitnessVotes.State.field_update Power.received_vesting_shares (by rfl) a

/-! ## New accounts, the null account and hardforks -/

/-- Nothing is delegated by or to an account that does not exist. -/
theorem Accounted.fresh {a : AccountId} (ha : s.base.num_accounts ≤ a) :
    (s.power a).delegated_vesting_shares = 0 ∧ (s.power a).received_vesting_shares = 0 := by
  rw [h.delegated, h.received, OrdMap.sum_eq_zero, OrdMap.sum_eq_zero, OrdMap.sum_eq_zero]
  · exact ⟨rfl, rfl⟩
  · intro k d hd
    exact if_neg ((h.delegations k d hd).delegatee_lt.trans_le ha).ne
  · intro k e he
    exact if_neg ((h.expirations k e he).delegator_lt.trans_le ha).ne
  · intro k d hd
    exact if_neg ((h.delegations k d hd).delegator_lt.trans_le ha).ne

theorem Accounted.flows_created {creator : AccountId} {delegation : ℤ}
    (hc : Created s s' creator delegation) (a : AccountId) :
    flows (s'.power a) = flows (s.power a) +
      (if creator = a then delegation else 0, if s.base.num_accounts = a then delegation else 0) := by
  by_cases hn : a = s.base.num_accounts
  · subst hn
    rw [if_neg hc.creator_lt.ne, if_pos rfl, ← flows_stake (s'.power _), hc.new_stake]
    simp [flows, h.fresh le_rfl]
  · rw [if_neg (Ne.symm hn)]
    by_cases hx : a = creator
    · rw [hx, if_pos rfl, ← flows_stake (s'.power creator), hc.creator_stake]
      simp [flows, Power.stake]
    · rw [if_neg (Ne.symm hx)]
      exact (flows_of_stake (hc.stake a hn hx)).trans (add_zero _).symm

theorem Accounted.created {creator : AccountId} {delegation : ℤ}
    (hc : Created s s' creator delegation) : s'.Accounted := by
  have hn : s.base.num_accounts ≤ s'.base.num_accounts := by
    rw [hc.num_accounts]
    exact Nat.le_succ _
  have hflows := h.flows_created hc
  have hdelegations := hc.delegations
  by_cases hpos : 0 < delegation
  · -- there is no delegation to the new account yet
    have hshares : sharesAt s.delegations creator s.base.num_accounts = 0 := by
      unfold sharesAt OrdMap.sumAt
      cases hd : s.delegations.find? (toLex (creator, s.base.num_accounts)) with
      | none => rfl
      | some d =>
        have hok := h.delegations _ d hd
        have hy : s.base.num_accounts = d.delegatee := congrArg (fun k => (ofLex k).2) hok.keyed
        exact absurd hok.delegatee_lt (hy ▸ lt_irrefl _)
    rw [if_pos hpos] at hdelegations
    refine h.setDelegation (d := ⟨creator, s.base.num_accounts, delegation, _⟩) hn
      ⟨rfl, ?_, ?_, hc.nonneg⟩ hdelegations hc.expirations hc.next_expiration_id ?_
    · exact hc.creator_lt.trans_le hn
    · rw [hc.num_accounts]
      exact Nat.lt_succ_self _
    · dsimp only
      rw [hshares, sub_zero]
      exact hflows
  · have hzero : delegation = 0 := le_antisymm (not_lt.1 hpos) hc.nonneg
    simp only [hzero, ite_self] at hflows
    rw [if_neg hpos] at hdelegations
    exact h.congr hn hdelegations hc.expirations hc.next_expiration_id fun a =>
      (hflows a).trans (add_zero _)

theorem Accounted.cleared (hc : Cleared s s') : s'.Accounted :=
  h.congr hc.num_accounts.ge hc.delegations hc.expirations hc.next_expiration_id
    fun a => flows_of_stake (hc.stake a)

end

/-- Hardfork 19 removes objects without shares only. -/
theorem dropEmptyDelegations_ok {n : ℕ}
    {delegations : OrdMap (AccountId ×ₗ AccountId) Delegation} (h : DelegationsOk n delegations) :
    DelegationsOk n (dropEmptyDelegations delegations) ∧
      ∀ a, (dropEmptyDelegations delegations).sum (Delegation.issuedBy a) =
          delegations.sum (Delegation.issuedBy a) ∧
        (dropEmptyDelegations delegations).sum (Delegation.receivedBy a) =
          delegations.sum (Delegation.receivedBy a) := by
  have hdrop : dropEmptyDelegations delegations =
      ((delegations.rows.filter fun r => r.2.vesting_shares = 0).map Prod.fst).foldl
        (fun m k => m.erase k) delegations := by
    rw [dropEmptyDelegations, List.foldl_map]
  have hempty : ∀ k ∈ (delegations.rows.filter fun r => r.2.vesting_shares = 0).map Prod.fst,
      ∀ d, delegations.find? k = some d → d.vesting_shares = 0 := by
    intro k hk d hd
    obtain ⟨r, hr, rfl⟩ := List.mem_map.1 hk
    obtain ⟨hmem, hzero⟩ := List.mem_filter.1 hr
    rw [OrdMap.mem_rows.1 (show (r.1, r.2) ∈ delegations.rows from hmem)] at hd
    rw [← Option.some.inj hd]
    exact of_decide_eq_true hzero
  rw [hdrop]
  refine ⟨fun k d hd => ?_, fun a => ⟨?_, ?_⟩⟩
  · rw [OrdMap.find?_foldl_erase] at hd
    split at hd
    · cases hd
    · exact h k d hd
  · refine OrdMap.sum_foldl_erase _ fun k hk d hd => ?_
    rw [Delegation.issuedBy, hempty k hk d hd, ite_self]
  · refine OrdMap.sum_foldl_erase _ fun k hk d hd => ?_
    rw [Delegation.receivedBy, hempty k hk d hd, ite_self]

theorem Accounted.hardforked (h : s.Accounted) (hf : Hardforked s s') : s'.Accounted := by
  have hpower : ∀ a, flows (s'.power a) = flows (s.power a) := by
    intro a
    rw [hf.power]
    split
    · rfl
    · rfl
  obtain hd | hd := hf.delegations
  · exact h.congr hf.base.num_accounts.ge hd hf.expirations hf.next_expiration_id
      hpower
  · obtain ⟨hok, hsum⟩ := dropEmptyDelegations_ok h.delegations
    refine ⟨?_, ?_, fun a => ?_, fun a => ?_⟩
    · rw [hd, hf.base.num_accounts]
      exact hok
    · rw [hf.expirations, hf.next_expiration_id, hf.base.num_accounts]
      exact h.expirations
    · rw [hd, hf.expirations, (hsum a).1, ← h.delegated]
      exact congrArg Prod.fst (hpower a)
    · rw [hd, (hsum a).2, ← h.received]
      exact congrArg Prod.snd (hpower a)

end State

/-! ## Every run -/

theorem Effect.accounted {s s' : State} {c : Call} (h : s.Accounted) (he : Effect s c s') :
    s'.Accounted := by
  cases he with
  | quiet hq => exact h.quiet hq
  | created _ hc => exact h.created hc
  | delegate hs => exact h.delegate_vesting_shares hs
  | expire => exact State.returnDelegations_rule (fun h he => h.returnDelegation he) h
  | withdraw hs => exact h.withdraw_vesting hs
  | process hs =>
    exact State.process_vesting_withdrawals_rule
      (fun h _ _ hw => h.withdrawn (.processWithdrawal hw)) h hs
  | cleared hc => exact h.cleared hc
  | hardfork hf => exact h.hardforked hf

theorem genesis_accounted : genesis.Accounted :=
  ⟨nofun, nofun, fun _ => rfl, fun _ => rfl⟩

theorem run_accounted (calls : List Call) : (run genesis calls).Accounted :=
  runCalls_rule_all (fun h hs => (Call.effect hs).accounted h) genesis_accounted calls

/-- The shares an account can vote with. -/
def State.effective (s : State) (a : AccountId) : ℤ :=
  s.shares a - (s.power a).delegated_vesting_shares + (s.power a).received_vesting_shares

/-- Both fields of every account are the sums over the objects, and the shares that wait in
expiration objects count for nobody. -/
structure State.DelegationsAccounted (s : State) : Prop where
  delegated : ∀ a, (s.power a).delegated_vesting_shares =
    s.delegations.sum (Delegation.issuedBy a) + s.expirations.sum (Expiration.owedTo a)
  received : ∀ a, (s.power a).received_vesting_shares = s.delegations.sum (Delegation.receivedBy a)
  effective : ∑ a ∈ Finset.range s.base.num_accounts, s.effective a =
    ∑ a ∈ Finset.range s.base.num_accounts, s.shares a - s.expirations.sum Expiration.vesting_shares

theorem State.Accounted.delegationsAccounted {s : State} (h : s.Accounted) :
    s.DelegationsAccounted where
  delegated := h.delegated
  received := h.received
  effective := by
    have hissued := OrdMap.sum_range_sum (g := Delegation.vesting_shares) fun k d hd =>
      (h.delegations k d hd).delegator_lt
    have hreceived := OrdMap.sum_range_sum (g := Delegation.vesting_shares) fun k d hd =>
      (h.delegations k d hd).delegatee_lt
    have howed := OrdMap.sum_range_sum (g := Expiration.vesting_shares) fun k e he =>
      (h.expirations k e he).delegator_lt
    have hsplit : ∀ a, s.effective a = s.shares a - s.delegations.sum (Delegation.issuedBy a) -
        s.expirations.sum (Expiration.owedTo a) + s.delegations.sum (Delegation.receivedBy a) := by
      intro a
      rw [State.effective, h.delegated, h.received]
      omega
    unfold Delegation.issuedBy Delegation.receivedBy Expiration.owedTo at hsplit
    simp only [hsplit, Finset.sum_add_distrib, Finset.sum_sub_distrib, hissued, hreceived, howed]
    omega

/-- In every reachable state the delegation fields are accounted for. -/
theorem run_delegations_accounted (calls : List Call) : (run genesis calls).DelegationsAccounted :=
  (run_accounted calls).delegationsAccounted

end Calibrd.Chain.Vesting
