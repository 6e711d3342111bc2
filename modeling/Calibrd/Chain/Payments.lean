import Calibrd.Chain.Ledger

/-!
# Payments

`adjust_balance` reads and writes accounts and the SBD supply; the tables of requests, escrows and
orders are not its concern. An evaluator that pays and edits tables is therefore a list of payments
and an edit (`State.withTables`), in any order: payments go through edits (`pay_withTables`) and leave
the tables as they are (`tables_pay`). What one payment gives to the account is `Adjusted`: the amount,
and the interest that is due on its SBD.
-/

namespace Calibrd.Chain.Ledger

open Calibrd.Lib Calibrd.Protocol

/-- The tables of `s` replaced by those of `t`. -/
def State.withTables (s t : State) : State :=
  { s with
    convert_requests := t.convert_requests
    escrows := t.escrows
    savings_withdraws := t.savings_withdraws
    limit_orders := t.limit_orders
    next_id := t.next_id }

structure Payment where
  account : AccountName
  amount : Asset
deriving DecidableEq, Repr

/-- Payments one after the other. -/
def State.pay (s : State) : List Payment → Result State
  | [] => .ok s
  | p :: rest => do
    let s ← s.adjust_balance p.account p.amount
    s.pay rest

section Tables

variable {s s' t : State} {name : AccountName} {delta : Asset}

@[simp] theorem withTables_self (s : State) : s.withTables s = s := rfl

theorem issueInterest_withTables (s t : State) (interest_paid : ℤ) :
    (s.withTables t).issueInterest interest_paid =
      (s.issueInterest interest_paid).map (·.withTables t) := by
  show ((s.convert ⟨interest_paid, .SBD⟩) >>= _) = _
  rw [State.issueInterest]
  cases s.convert ⟨interest_paid, .SBD⟩ <;> rfl

theorem payInterest_withTables (s t : State) (b : SbdBalance) :
    (s.withTables t).payInterest b = (s.payInterest b).map fun r => (r.1, r.2.withTables t) := by
  have htime : (s.withTables t).time = s.time := rfl
  have hrate : (s.withTables t).sbd_interest_rate = s.sbd_interest_rate := rfl
  simp only [State.payInterest, htime, hrate, issueInterest_withTables]
  split
  · rfl
  · split
    · cases check ((b.accrue s.time).interest s.sbd_interest_rate < 2 ^ 64) Error.interest_too_large with
      | error e => rfl
      | ok _ => cases s.issueInterest (int64 ((b.accrue s.time).interest s.sbd_interest_rate)) <;> rfl
    · rfl

theorem adjustPurse_withTables (s t : State) (p : Purse) (delta : Asset) :
    (s.withTables t).adjustPurse p delta =
      (s.adjustPurse p delta).map fun r => (r.1, r.2.withTables t) := by
  unfold State.adjustPurse
  split
  · rfl
  · rw [payInterest_withTables]
    cases s.payInterest p.sbd <;> rfl
  · rfl

theorem adjust_balance_withTables (s t : State) (name : AccountName) (delta : Asset) :
    (s.withTables t).adjust_balance name delta =
      (s.adjust_balance name delta).map (·.withTables t) := by
  have haccount : (s.withTables t).get_account name = s.get_account name := rfl
  unfold State.adjust_balance
  rw [haccount]
  cases s.get_account name with
  | error e => rfl
  | ok a =>
    show ((s.withTables t).adjustPurse a.purse delta >>= _) = _
    rw [adjustPurse_withTables]
    cases hp : s.adjustPurse a.purse delta with
    | error e => simp [hp, bind, Except.bind, Except.map]
    | ok r => simp [hp, bind, Except.bind, Except.map]; rfl

theorem pay_withTables (s t : State) (payments : List Payment) :
    (s.withTables t).pay payments = (s.pay payments).map (·.withTables t) := by
  induction payments generalizing s with
  | nil => rfl
  | cons p rest ih =>
    rw [State.pay, State.pay, adjust_balance_withTables]
    cases s.adjust_balance p.account p.amount with
    | error e => rfl
    | ok s1 => exact ih s1

theorem tables_adjustPurse {p p' : Purse} (h : s.adjustPurse p delta = .ok (p', s')) :
    s'.withTables s = s' := by
  have hsame := adjustPurse_withTables s s p delta
  rw [withTables_self, h] at hsame
  exact (congrArg Prod.snd (Except.ok.inj hsame)).symm

variable {payments : List Payment}

section

variable (h : s.pay payments = .ok s')

include h

theorem tables_pay :
    s'.withTables s = s' := by
  have hsame := pay_withTables s s payments
  rw [withTables_self, h] at hsame
  exact (Except.ok.inj hsame).symm

theorem limit_orders_pay :
    s'.limit_orders = s.limit_orders := by
  rw [← tables_pay h]
  rfl

theorem escrows_pay :
    s'.escrows = s.escrows := by
  rw [← tables_pay h]
  rfl

theorem next_id_pay :
    s'.next_id = s.next_id := by
  rw [← tables_pay h]
  rfl

theorem moved_pay : Moved s s' := by
  induction payments generalizing s with
  | nil =>
    cases h
    exact .refl _
  | cons p rest ih =>
    obtain ⟨t, ht, h⟩ := bind_ok.1 h
    exact (moved_adjust_balance ht).trans (ih h)

end

/-- A payment made after an edit of the tables. -/
theorem pay_eq_ok_of_withTables (h : (s.withTables t).pay payments = .ok s') :
    ∃ s1, s.pay payments = .ok s1 ∧ s' = s1.withTables t := by
  rw [pay_withTables] at h
  cases hs : s.pay payments with
  | error e =>
    rw [hs] at h
    cases h
  | ok s1 =>
    rw [hs] at h
    cases h
    exact ⟨s1, rfl, rfl⟩

theorem pay_append (s : State) (l l' : List Payment) :
    s.pay (l ++ l') = (do let s1 ← s.pay l; s1.pay l') := by
  induction l generalizing s with
  | nil => rfl
  | cons p rest ih =>
    rw [List.cons_append, State.pay, State.pay, bind_assoc]
    exact bind_congr fun s1 => ih s1

theorem pay_singleton (s : State) (p : Payment) : s.pay [p] = s.adjust_balance p.account p.amount := by
  rw [State.pay]
  exact bind_pure _

end Tables

/-! ## What a payment gives -/

/-- A change of a purse, with the interest on its SBD. -/
def Purse.adjusted (p : Purse) (now : ℕ) (rate : ℤ) (delta : Asset) : Purse :=
  match delta.symbol with
  | .STEEM => { p with steem := p.steem + delta.amount }
  | .SBD =>
    { p with
      sbd := { p.sbd.settled now rate with
        balance := (p.sbd.settled now rate).balance + delta.amount } }
  | .VESTS => p

namespace State

/-- One of the purses of an account. -/
def purseOf (s : State) (purse : Account → Purse) (name : AccountName) : Purse :=
  (s.accounts.find? name).elim {} purse

/-- The pending withdrawals that an account counts. -/
def requestsOf (s : State) (name : AccountName) : ℕ :=
  (s.accounts.find? name).elim 0 Account.savings_withdraw_requests

end State

/-- A purse of the account was changed, and not the other one. -/
structure Adjusted (purse other : Account → Purse) (s s' : State) (name : AccountName)
    (delta : Asset) : Prop where
  chain : SameChain s s'
  tables : s'.withTables s = s'
  requests : ∀ x, s'.requestsOf x = s.requestsOf x
  symbol : delta.symbol ≠ .VESTS
  own : ∀ x, s'.purseOf purse x = if x = name then
    (s.purseOf purse x).adjusted s.time s.sbd_interest_rate delta else s.purseOf purse x
  other : ∀ x, s'.purseOf other x = s.purseOf other x

section Adjusted

variable {s s' : State} {name : AccountName} {delta : Asset}

theorem adjustPurse_ok {p p' : Purse} (h : s.adjustPurse p delta = .ok (p', s')) :
    p' = p.adjusted s.time s.sbd_interest_rate delta ∧ s'.accounts = s.accounts ∧
      delta.symbol ≠ .VESTS := by
  obtain ⟨amount, symbol⟩ := delta
  cases symbol with
  | STEEM =>
    cases h
    exact ⟨rfl, rfl, nofun⟩
  | SBD =>
    obtain ⟨⟨b, t⟩, ht, h⟩ := bind_ok.1 h
    obtain ⟨rfl, value, rfl, -⟩ := payInterest_ok ht
    cases h
    exact ⟨rfl, rfl, nofun⟩
  | VESTS => cases h

/-- `adjust_balance` and `adjust_savings_balance` differ in the purse that they change. -/
theorem adjusted_of_purse {purse other : Account → Purse} (write : Account → Purse → Account)
    (hpurse : ∀ a p, purse (write a p) = p) (hother : ∀ a p, other (write a p) = other a)
    (hrequests : ∀ a p, (write a p).savings_withdraw_requests = a.savings_withdraw_requests)
    (h : (do
      let a ← s.get_account name
      let (p, s) ← s.adjustPurse (purse a) delta
      .ok (s.putAccount name (write a p))) = (.ok s' : Result State)) :
    Adjusted purse other s s' name delta := by
  obtain ⟨a, ha, h⟩ := bind_ok.1 h
  obtain ⟨⟨p, t⟩, hp, h⟩ := bind_ok.1 h
  obtain ⟨hadjusted, haccounts, hsymbol⟩ := adjustPurse_ok hp
  have htables := tables_adjustPurse hp
  have hmoved := moved_adjustPurse hp
  have ha := find_of_get_account ha
  cases h
  have hfind : ∀ x, (t.putAccount name (write a p)).accounts.find? x =
      if x = name then some (write a p) else s.accounts.find? x := by
    intro x
    rw [State.putAccount, OrdMap.find?_insert, haccounts]
    simp only [eq_comm]
  refine ⟨(hmoved.trans (moved_putAccount t name _)).toSameChain,
    congrArg (fun u : State => u.putAccount name (write a p)) htables, fun x => ?_, hsymbol,
    fun x => ?_, fun x => ?_⟩
  · unfold State.requestsOf
    rw [hfind]
    by_cases hx : x = name
    · simp [hx, ha, hrequests]
    · simp [hx]
  · unfold State.purseOf
    rw [hfind]
    by_cases hx : x = name
    · simp [hx, ha, hpurse, hadjusted]
    · simp [hx]
  · unfold State.purseOf
    rw [hfind]
    by_cases hx : x = name
    · simp [hx, ha, hother]
    · simp [hx]

theorem adjust_balance_adjusted (h : s.adjust_balance name delta = .ok s') :
    Adjusted Account.purse Account.savings s s' name delta :=
  adjusted_of_purse (fun a p => { a with purse := p }) (fun _ _ => rfl) (fun _ _ => rfl)
    (fun _ _ => rfl) h

theorem adjust_savings_balance_adjusted (h : s.adjust_savings_balance name delta = .ok s') :
    Adjusted Account.savings Account.purse s s' name delta :=
  adjusted_of_purse (fun a p => { a with savings := p }) (fun _ _ => rfl) (fun _ _ => rfl)
    (fun _ _ => rfl) h

end Adjusted

end Calibrd.Chain.Ledger
