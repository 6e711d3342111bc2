import Calibrd.Chain.Market
import Calibrd.Chain.Payments
import Calibrd.Lib.Runs

/-!
# Runs of the order book

Every step of the market pays and edits the table of orders. `Fill` says what `fill_order` does to one
order: it is filled, or so little is left that the rest is given back, or the rest stays open. The
runs are of the operations on orders and the loop over expired ones; `Call.other` stands for the rest
of the chain, which may change everything but the orders.

`get_limit_order` looks for the lower half of the order id, but an order is kept under the whole of
it, so a cancellation finds what it is meant for exactly if the id is below `2 ^ 16`
(`run_cancelExact_iff`).
-/

namespace Calibrd.Chain.Ledger

open Calibrd.Lib Calibrd.Protocol

/-! ## One order is filled -/

/-- What is left of the order after it has paid. -/
def LimitOrder.after (o : LimitOrder) (pays : Asset) : LimitOrder :=
  { o with for_sale := o.for_sale - pays.amount }

/-- What filling an order does: `filled` says that it is gone. -/
inductive Fill (s : State) (o : LimitOrder) (pays receives : Asset) : Bool → State → Prop
  | whole {t : State} (hpays : pays = o.amount_for_sale)
      (ht : s.pay [⟨o.seller, receives⟩] = .ok t) :
      Fill s o pays receives true { t with limit_orders := s.limit_orders.erase o.key }
  /-- Nothing could be received for what is left, so the order is cancelled. -/
  | culled {t : State} {r : Asset} (hpays : pays ≠ o.amount_for_sale)
      (hr : (o.after pays).amount_to_receive = .ok r) (hzero : r.amount = 0)
      (ht : s.pay [⟨o.seller, receives⟩, ⟨o.seller, (o.after pays).amount_for_sale⟩] = .ok t) :
      Fill s o pays receives true { t with limit_orders := s.limit_orders.erase o.key }
  | part {t : State} {r : Asset} (hpays : pays ≠ o.amount_for_sale)
      (hr : (o.after pays).amount_to_receive = .ok r) (hpos : r.amount ≠ 0)
      (ht : s.pay [⟨o.seller, receives⟩] = .ok t) :
      Fill s o pays receives false { t with limit_orders := s.limit_orders.insert o.key (o.after pays) }

section Fill

variable {s s' t : State} {o : LimitOrder} {pays receives : Asset} {filled : Bool}

theorem pay_orders {orders : OrdMap (AccountName ×ₗ ℕ) LimitOrder} {payments : List Payment}
    (h : ({ s with limit_orders := orders } : State).pay payments = .ok s') :
    ∃ t, s.pay payments = .ok t ∧ s' = { t with limit_orders := orders } := by
  have hedit : ({ s with limit_orders := orders } : State) =
      s.withTables { s with limit_orders := orders } := rfl
  rw [hedit] at h
  obtain ⟨t, ht, rfl⟩ := pay_eq_ok_of_withTables h
  refine ⟨t, ht, ?_⟩
  have htables := tables_pay ht
  rw [← htables]
  rfl

theorem cancel_order_eq (h : s.cancel_order o = .ok s') :
    ∃ t, s.pay [⟨o.seller, o.amount_for_sale⟩] = .ok t ∧
      s' = { t with limit_orders := s.limit_orders.erase o.key } := by
  obtain ⟨t, ht, h⟩ := bind_ok.1 h
  cases h
  have ht : s.pay [⟨o.seller, o.amount_for_sale⟩] = .ok t := (pay_singleton _ _).trans ht
  refine ⟨t, ht, ?_⟩
  rw [State.removeOrder, limit_orders_pay ht]

theorem erase_insert_key {κ α : Type} [LinearOrder κ] (m : OrdMap κ α) (k : κ) (v : α) :
    (m.insert k v).erase k = m.erase k := by
  refine OrdMap.ext_find fun j => ?_
  by_cases h : k = j <;> simp [h]

theorem fill_of_fill_order (h : s.fill_order o pays receives = .ok (filled, s')) :
    o.amount_for_sale.symbol = pays.symbol ∧ pays.symbol ≠ receives.symbol ∧
      Fill s o pays receives filled s' := by
  obtain ⟨hsymbol, h⟩ := check_decide_ok.1 h
  obtain ⟨hother, h⟩ := check_decide_ok.1 h
  obtain ⟨t, ht, h⟩ := bind_ok.1 h
  refine ⟨hsymbol, hother, ?_⟩
  have ht : s.pay [⟨o.seller, receives⟩] = .ok t := (pay_singleton _ _).trans ht
  split_ifs at h with hpays
  · cases h
    rw [State.removeOrder, limit_orders_pay ht]
    exact .whole hpays ht
  · obtain ⟨r, hr, h⟩ := bind_ok.1 h
    split at h
    · rename_i hzero
      obtain ⟨u, hu, h⟩ := bind_ok.1 h
      cases h
      obtain ⟨v, hv, rfl⟩ := cancel_order_eq hu
      obtain ⟨w, hw, rfl⟩ := pay_orders hv
      have hboth : s.pay [⟨o.seller, receives⟩, ⟨o.seller, (o.after pays).amount_for_sale⟩] = .ok w := by
        have happend := pay_append s [⟨o.seller, receives⟩] [⟨o.seller, (o.after pays).amount_for_sale⟩]
        rw [ht] at happend
        exact happend.trans hw
      have horders : (t.putOrder (o.after pays)).limit_orders.erase (o.after pays).key =
          s.limit_orders.erase o.key := by
        rw [State.putOrder, limit_orders_pay ht]
        exact erase_insert_key _ _ _
      have hculled := Fill.culled hpays hr hzero hboth
      rw [← horders] at hculled
      exact hculled
    · rename_i hpos
      cases h
      rw [State.putOrder, limit_orders_pay ht]
      exact .part hpays hr hpos ht

end Fill

/-! ## Edits of the table -/

/-- What inserting an order under its key and erasing a key keep. -/
structure KeptByEdits (P : OrdMap (AccountName ×ₗ ℕ) LimitOrder → Prop) : Prop where
  insert : ∀ {m} (o : LimitOrder), P m → P (m.insert o.key o)
  erase : ∀ {m} (k : AccountName ×ₗ ℕ), P m → P (m.erase k)

namespace KeptByEdits

variable {P : OrdMap (AccountName ×ₗ ℕ) LimitOrder → Prop} (hP : KeptByEdits P)
  {s s' : State} {o : LimitOrder}

include hP

theorem cancel_order (hs : P s.limit_orders) (h : s.cancel_order o = .ok s') : P s'.limit_orders := by
  obtain ⟨t, -, rfl⟩ := cancel_order_eq h
  exact hP.erase o.key hs

theorem fill {pays receives : Asset} {filled : Bool} (hs : P s.limit_orders)
    (h : Fill s o pays receives filled s') : P s'.limit_orders := by
  cases h with
  | whole hpays ht => exact hP.erase o.key hs
  | culled hpays hr hzero ht => exact hP.erase o.key hs
  | part hpays hr hpos ht => exact hP.insert (o.after pays) hs

end KeptByEdits

/-! ## New orders -/

/-- A new order: its funds are taken, it is put into the book and matched. -/
theorem createOrder_cases {s s' : State} {owner : AccountName} {orderid : ℕ} {sell : Asset}
    {price : Price} {kill : Bool} {expiration : ℕ}
    (h : s.createOrder owner orderid sell price kill expiration = .ok s') :
    ∃ t, s.pay [⟨owner, -sell⟩] = .ok t ∧ s.limit_orders.find? (toLex (owner, orderid)) = none ∧
      State.matchAgainst (toLex (owner, orderid))
        (State.opposing
          { t.putOrder ⟨t.next_id, t.time, expiration, owner, orderid, sell.amount, price⟩ with
            next_id := t.next_id + 1 } price)
        { t.putOrder ⟨t.next_id, t.time, expiration, owner, orderid, sell.amount, price⟩ with
          next_id := t.next_id + 1 } = .ok s' := by
  simp only [State.createOrder, bind_ok, exists_check_eq_ok] at h
  obtain ⟨-, _, -, _, -, -, t, ht, hfree, ⟨filled, u⟩, hu, -, h⟩ := h
  cases h
  obtain ⟨v, hv, hu⟩ := bind_ok.1 hu
  obtain ⟨-, rfl⟩ := Prod.mk.inj (Except.ok.inj hu)
  have ht : s.pay [⟨owner, -sell⟩] = .ok t := (pay_singleton _ _).trans ht
  refine ⟨t, ht, ?_, hv⟩
  rw [← limit_orders_pay ht]
  simpa [OrdMap.contains, LimitOrder.key] using hfree

namespace KeptByEdits

variable {P : OrdMap (AccountName ×ₗ ℕ) LimitOrder → Prop} (hP : KeptByEdits P)
  {s s' : State} {o : LimitOrder}

include hP

variable (hs : P s.limit_orders)

include hs

theorem matchOrders {old : LimitOrder} {match_price : Price} {filled : Bool}
    (h : s.matchOrders o old match_price = .ok (filled, s')) : P s'.limit_orders := by
  obtain ⟨_, _, s1, _, -, h1, h2⟩ := matchOrders_cases h
  exact hP.fill (hP.fill hs (fill_of_fill_order h1).2.2) (fill_of_fill_order h2).2.2

theorem matchAgainst {key : AccountName ×ₗ ℕ} {l : List LimitOrder}
    (h : State.matchAgainst key l s = .ok s') : P s'.limit_orders := by
  induction l generalizing s with
  | nil =>
    cases h
    exact hs
  | cons old l ih =>
    unfold State.matchAgainst at h
    split at h
    · cases h
    · obtain ⟨⟨filled, t⟩, ht, h⟩ := bind_ok.1 h
      have hmatched := hP.matchOrders hs ht
      dsimp only at h
      split at h
      · cases h
        exact hmatched
      · exact ih hmatched h

theorem createOrder {owner : AccountName} {orderid : ℕ} {sell : Asset} {price : Price}
    {kill : Bool} {expiration : ℕ}
    (h : s.createOrder owner orderid sell price kill expiration = .ok s') : P s'.limit_orders := by
  obtain ⟨t, ht, -, h⟩ := createOrder_cases h
  have ht : P t.limit_orders := by
    rw [limit_orders_pay ht]
    exact hs
  exact hP.matchAgainst (s := { t.putOrder _ with next_id := t.next_id + 1 }) (hP.insert _ ht) h

theorem cancelOrders {l : List LimitOrder}
    (h : State.cancelOrders l s = .ok s') : P s'.limit_orders := by
  induction l generalizing s with
  | nil =>
    cases h
    exact hs
  | cons o l ih =>
    obtain ⟨t, ht, h⟩ := bind_ok.1 h
    exact ih (hP.cancel_order hs ht) h

end KeptByEdits

end Calibrd.Chain.Ledger

namespace Calibrd.Chain.OrderBook

open Calibrd.Lib Calibrd.Protocol Calibrd.Chain.Ledger

/-! ## Runs -/

inductive Call where
  | limit_order_create (owner : AccountName) (orderid : ℕ) (amount_to_sell min_to_receive : Asset)
      (fill_or_kill : Bool) (expiration : ℕ)
  | limit_order_create2 (owner : AccountName) (orderid : ℕ) (amount_to_sell : Asset)
      (exchange_rate : Price) (fill_or_kill : Bool) (expiration : ℕ)
  | limit_order_cancel (owner : AccountName) (orderid : ℕ)
  | clear_expired_orders
  /-- The rest of the chain leads to `t`, except for the orders; it may use up ids. -/
  | other (t : State)

def Call.apply (s : State) : Call → Result State
  | limit_order_create owner orderid amount_to_sell min_to_receive fill_or_kill expiration =>
    s.limit_order_create owner orderid amount_to_sell min_to_receive fill_or_kill expiration
  | limit_order_create2 owner orderid amount_to_sell exchange_rate fill_or_kill expiration =>
    s.limit_order_create2 owner orderid amount_to_sell exchange_rate fill_or_kill expiration
  | limit_order_cancel owner orderid => s.limit_order_cancel owner orderid
  | clear_expired_orders => s.clear_expired_orders
  | other t => .ok { t with limit_orders := s.limit_orders, next_id := s.next_id + t.next_id }

/-- A run from a state without orders. -/
def run (calls : List Call) : State := runCalls Call.apply {} calls

/-- What edits keep holds of the table in every run. -/
theorem run_keptByEdits {P : OrdMap (AccountName ×ₗ ℕ) LimitOrder → Prop} (hP : KeptByEdits P)
    (hempty : P .empty) (calls : List Call) : P (run calls).limit_orders := by
  refine runCalls_rule_all (P := fun s : State => P s.limit_orders) (fun {s s' c} hs h => ?_) hempty calls
  cases c with
  | limit_order_create owner orderid sell receive kill expiration =>
    replace h := ok_of_check h
    replace h := ok_of_check h
    exact hP.createOrder hs h
  | limit_order_create2 owner orderid sell rate kill expiration =>
    replace h := ok_of_check h
    replace h := ok_of_check h
    replace h := ok_of_check h
    obtain ⟨_, -, h⟩ := bind_ok.1 h
    replace h := ok_of_check h
    exact hP.createOrder hs h
  | limit_order_cancel owner orderid =>
    simp only [Call.apply, State.limit_order_cancel] at h
    split at h
    · cases h
    · exact hP.cancel_order hs h
  | clear_expired_orders => exact hP.cancelOrders hs h
  | other t =>
    cases h
    exact hs

/-! ## Cancellation -/

/-- Every order is kept under its own seller and id. -/
def Keyed (m : OrdMap (AccountName ×ₗ ℕ) LimitOrder) : Prop := ∀ k o, m.find? k = some o → o.key = k

theorem keyed_keptByEdits : KeptByEdits Keyed :=
  ⟨fun _ hm => OrdMap.forall_insert hm rfl, fun _ hm k p hp => hm k p (OrdMap.find?_of_erase hp)⟩

/-- The refund of the order does not throw. -/
def Refundable (s : State) (o : LimitOrder) : Prop := ∃ t, s.pay [⟨o.seller, o.amount_for_sale⟩] = .ok t

/-- A cancellation removes the order that was created with the id and gives back what it has for sale;
without such an order it fails. -/
structure CancelExact (s : State) (owner : AccountName) (orderid : ℕ) : Prop where
  removes : ∀ o, s.limit_orders.find? (toLex (owner, orderid)) = some o →
    ∃ t, s.pay [⟨owner, o.amount_for_sale⟩] = .ok t ∧
      s.limit_order_cancel owner orderid =
        .ok { t with limit_orders := s.limit_orders.erase (toLex (owner, orderid)) }
  fails : s.limit_orders.find? (toLex (owner, orderid)) = none →
    ∃ e, s.limit_order_cancel owner orderid = .error e

section Cancel

variable {s : State} {owner : AccountName} {orderid : ℕ} {o : LimitOrder}

theorem limit_order_cancel_of_none
    (h : s.limit_orders.find? (toLex (owner, orderid % 2 ^ 16)) = none) :
    s.limit_order_cancel owner orderid = .error .not_found := by
  rw [State.limit_order_cancel, h]

theorem limit_order_cancel_of_some
    (h : s.limit_orders.find? (toLex (owner, orderid % 2 ^ 16)) = some o) :
    s.limit_order_cancel owner orderid = s.cancel_order o := by
  rw [State.limit_order_cancel, h]

theorem cancel_order_of_pay {t : State} (h : s.pay [⟨o.seller, o.amount_for_sale⟩] = .ok t) :
    s.cancel_order o = .ok { t with limit_orders := s.limit_orders.erase o.key } := by
  have hbalance : s.adjust_balance o.seller o.amount_for_sale = .ok t := (pay_singleton _ _).symm.trans h
  rw [State.cancel_order, hbalance, ← limit_orders_pay h]
  rfl

theorem cancel_order_of_not_refundable (h : ¬ Refundable s o) : ∃ e, s.cancel_order o = .error e := by
  cases hcancel : s.cancel_order o with
  | error e => exact ⟨e, rfl⟩
  | ok s' =>
    obtain ⟨t, ht, -⟩ := cancel_order_eq hcancel
    exact absurd ⟨t, ht⟩ h

variable (hs : Keyed s.limit_orders)

include hs

theorem cancelExact_of_lt (hlt : orderid < 2 ^ 16)
    (h : ∀ o, s.limit_orders.find? (toLex (owner, orderid)) = some o → Refundable s o) :
    CancelExact s owner orderid := by
  have hmod : orderid % 2 ^ 16 = orderid := Nat.mod_eq_of_lt hlt
  refine ⟨fun o ho => ?_, fun hnone => ?_⟩
  · obtain ⟨t, ht⟩ := h o ho
    have hkey : o.key = toLex (owner, orderid) := hs _ o ho
    have hseller : o.seller = owner := congrArg Prod.fst (toLex_inj.1 hkey)
    rw [← hseller]
    refine ⟨t, ht, ?_⟩
    rw [hseller, limit_order_cancel_of_some (by rw [hmod]; exact ho), cancel_order_of_pay ht, hkey]
  · exact ⟨_, limit_order_cancel_of_none (by rw [hmod]; exact hnone)⟩

/-- With a longer id the order itself is not looked for. -/
theorem not_open_of_cancelExact (hle : 2 ^ 16 ≤ orderid)
    (h : CancelExact s owner orderid) : s.limit_orders.find? (toLex (owner, orderid)) = none := by
  have hmod : orderid % 2 ^ 16 ≠ orderid := by omega
  cases ho : s.limit_orders.find? (toLex (owner, orderid)) with
  | none => rfl
  | some o =>
    exfalso
    obtain ⟨t, -, hcancel⟩ := h.removes o ho
    cases hlow : s.limit_orders.find? (toLex (owner, orderid % 2 ^ 16)) with
    | none =>
      rw [limit_order_cancel_of_none hlow] at hcancel
      cases hcancel
    | some p =>
      rw [limit_order_cancel_of_some hlow] at hcancel
      obtain ⟨u, -, hstate⟩ := cancel_order_eq hcancel
      -- the other order is gone, where it should have stayed
      have horders := congrArg (fun x : State => x.limit_orders.find? (toLex (owner, orderid % 2 ^ 16)))
        hstate
      have hne : toLex (owner, orderid) ≠ toLex (owner, orderid % 2 ^ 16) := by
        intro he
        exact hmod (congrArg Prod.snd (toLex_inj.1 he)).symm
      have hkey : p.key = toLex (owner, orderid % 2 ^ 16) := hs _ p hlow
      dsimp only at horders
      rw [OrdMap.find?_erase, if_neg hne, hlow, hkey, OrdMap.find?_erase, if_pos rfl] at horders
      cases horders

theorem cancelExact_iff :
    CancelExact s owner orderid ↔
      (orderid < 2 ^ 16 ∧
        ∀ o, s.limit_orders.find? (toLex (owner, orderid)) = some o → Refundable s o) ∨
      (2 ^ 16 ≤ orderid ∧ s.limit_orders.find? (toLex (owner, orderid)) = none ∧
        ∀ o, s.limit_orders.find? (toLex (owner, orderid % 2 ^ 16)) = some o → ¬ Refundable s o) := by
  constructor
  · intro h
    rcases lt_or_ge orderid (2 ^ 16) with hlt | hle
    · refine .inl ⟨hlt, fun o ho => ?_⟩
      obtain ⟨t, ht, -⟩ := h.removes o ho
      have hseller : o.seller = owner := congrArg Prod.fst (toLex_inj.1 (hs _ o ho))
      rw [← hseller] at ht
      exact ⟨t, ht⟩
    · have hnone := not_open_of_cancelExact hs hle h
      refine .inr ⟨hle, hnone, fun o ho ⟨t, ht⟩ => ?_⟩
      obtain ⟨e, he⟩ := h.fails hnone
      rw [limit_order_cancel_of_some ho, cancel_order_of_pay ht] at he
      cases he
  · rintro (⟨hlt, h⟩ | ⟨-, hnone, h⟩)
    · exact cancelExact_of_lt hs hlt h
    · refine ⟨fun o ho => ?_, fun _ => ?_⟩
      · rw [hnone] at ho
        cases ho
      · cases hlow : s.limit_orders.find? (toLex (owner, orderid % 2 ^ 16)) with
        | none => exact ⟨_, limit_order_cancel_of_none hlow⟩
        | some o =>
          rw [limit_order_cancel_of_some hlow]
          exact cancel_order_of_not_refundable (h o hlow)

end Cancel

/-! ## Creation -/

section Create

variable {s : State} {o : LimitOrder}

theorem throws_get_account (s : State) (name : AccountName) :
    Throws (s.get_account name) (· ≠ .already_exists) := by
  unfold State.get_account
  split
  · exact .ok _
  · exact .error (by simp)

theorem throws_adjust_balance (s : State) (name : AccountName) (delta : Asset) :
    Throws (s.adjust_balance name delta) (· ≠ .already_exists) := by
  have hinterest : ∀ b, Throws (s.payInterest b) (· ≠ .already_exists) := by
    intro b
    unfold State.payInterest State.issueInterest State.convert
    split
    · exact .ok _
    · dsimp only
      split
      · refine .check_bind (by simp) (.bind (.bind (.withError (by simp)) fun _ _ => .ok _) fun _ _ => ?_)
        exact .ok _
      · exact .ok _
  refine .bind (throws_get_account s name) fun a _ => .bind ?_ fun _ _ => .ok _
  unfold State.adjustPurse
  split
  · exact .ok _
  · exact .bind (hinterest _) fun _ _ => .ok _
  · exact .error (by simp)

theorem throws_fill_order (s : State) (o : LimitOrder) (pays receives : Asset) :
    Throws (s.fill_order o pays receives) (· ≠ .already_exists) := by
  unfold State.fill_order State.cancel_order LimitOrder.amount_to_receive
  refine .check_bind (by simp) (.check_bind (by simp) (.bind (throws_adjust_balance _ _ _) fun t _ => ?_))
  split
  · exact .ok _
  · refine .bind (.withError (by simp)) fun r _ => ?_
    split
    · exact .bind (.bind (throws_adjust_balance _ _ _) fun _ _ => .ok _) fun _ _ => .ok _
    · exact .ok _

theorem throws_matchOrders (s : State) (o old : LimitOrder) (match_price : Price) :
    Throws (s.matchOrders o old match_price) (· ≠ .already_exists) := by
  have hamounts : Throws (matchAmounts o old match_price) (· ≠ .already_exists) := by
    refine .bind (.withError (by simp)) fun old_value _ => .check_bind (by simp) ?_
    split
    · exact .bind (.withError (by simp)) fun _ _ => .ok _
    · exact .ok _
  exact .bind hamounts fun _ _ => .bind (throws_fill_order _ _ _ _) fun _ _ =>
    .bind (throws_fill_order _ _ _ _) fun _ _ => .ok _

theorem throws_matchAgainst (key : AccountName ×ₗ ℕ) (l : List LimitOrder) (s : State) :
    Throws (State.matchAgainst key l s) (· ≠ .already_exists) := by
  induction l generalizing s with
  | nil => exact .ok _
  | cons old l ih =>
    unfold State.matchAgainst
    split
    · exact .error (by simp)
    · refine .bind (throws_matchOrders _ _ _ _) fun r _ => ?_
      dsimp only
      split
      · exact .ok _
      · exact ih _

/-- A new order is refused as a duplicate only by an order with its own id. -/
theorem throws_createOrder {owner : AccountName} {orderid : ℕ} (sell : Asset) (price : Price)
    (kill : Bool) (expiration : ℕ) (h : s.limit_orders.find? (toLex (owner, orderid)) = none) :
    Throws (s.createOrder owner orderid sell price kill expiration) (· ≠ .already_exists) := by
  have hbalance : ∀ a, Throws (State.get_balance a sell.symbol) (· ≠ .already_exists) := by
    intro a
    unfold State.get_balance
    split
    · exact .ok _
    · exact .ok _
    · exact .error (by simp)
  refine .check_bind (by simp) (.bind (throws_get_account s owner) fun a _ =>
    .bind (hbalance a) fun _ _ => ?_)
  refine .check_bind (by simp) (.bind (throws_adjust_balance _ _ _) fun t ht => ?_)
  refine .check_bind ?_ (.bind (.bind (throws_matchAgainst _ _ _) fun _ _ => .ok _) fun _ _ => ?_)
  · have ht : s.pay [⟨owner, -sell⟩] = .ok t := (pay_singleton _ _).trans ht
    simp [LimitOrder.key, OrdMap.contains, limit_orders_pay ht, h]
  · exact .check_bind (by simp) (.ok _)

end Create

/-- In every run, a cancellation is exact if the id is below `2 ^ 16` and the refund does not throw; with
a longer id it is if the owner has no order with the id, and none with its lower half that could be
refunded. A new order is refused as a duplicate only by an order with its own id. -/
theorem run_cancelExact_iff (calls : List Call) (owner : AccountName) (orderid : ℕ) :
    (CancelExact (run calls) owner orderid ↔
      (orderid < 2 ^ 16 ∧ ∀ o, (run calls).limit_orders.find? (toLex (owner, orderid)) = some o →
        Refundable (run calls) o) ∨
      (2 ^ 16 ≤ orderid ∧ (run calls).limit_orders.find? (toLex (owner, orderid)) = none ∧
        ∀ o, (run calls).limit_orders.find? (toLex (owner, orderid % 2 ^ 16)) = some o →
          ¬ Refundable (run calls) o)) ∧
    ∀ (sell receive : Asset) (rate : Price) (kill : Bool) (expiration : ℕ),
      (run calls).limit_orders.find? (toLex (owner, orderid)) = none →
        (run calls).limit_order_create owner orderid sell receive kill expiration ≠
          .error .already_exists ∧
        (run calls).limit_order_create2 owner orderid sell rate kill expiration ≠
          .error .already_exists := by
  refine ⟨cancelExact_iff (run_keptByEdits keyed_keptByEdits (fun _ _ => nofun) calls), ?_⟩
  intro sell receive rate kill expiration hnone
  have hcreate := fun price => throws_createOrder sell price kill expiration hnone
  have hfirst : Throws ((run calls).limit_order_create owner orderid sell receive kill expiration)
      (· ≠ .already_exists) :=
    .check_bind (by simp) (.check_bind (by simp) (hcreate _))
  have hsecond : Throws ((run calls).limit_order_create2 owner orderid sell rate kill expiration)
      (· ≠ .already_exists) :=
    .check_bind (by simp) (.check_bind (by simp) (.check_bind (by simp)
      (.bind (.withError (by simp)) fun _ _ => .check_bind (by simp) (hcreate _))))
  exact ⟨fun h => hfirst _ h rfl, fun h => hsecond _ h rfl⟩

/-- Account 1 has STEEM and offers some of it under the given ids. -/
def offers (ids : List ℕ) : List Call :=
  .other { accounts := OrdMap.empty.insert 1 { purse := { steem := 1000 } } } ::
    ids.map fun orderid => .limit_order_create 1 orderid ⟨100, .STEEM⟩ ⟨50, .SBD⟩ false 10

/-- The order `65537` is open, but its cancellation finds nothing, or takes the order `1` instead. -/
theorem cancel_of_long_id :
    (run (offers [65537])).limit_orders.contains (toLex (1, 65537)) = true ∧
      (run (offers [65537])).limit_order_cancel 1 65537 = .error .not_found ∧
      ¬ CancelExact (run (offers [65537])) 1 65537 ∧
      ((run (offers [1, 65537])).limit_order_cancel 1 65537).toOption.map
        (fun s' => (s'.limit_orders.contains (toLex (1, 1)), s'.limit_orders.contains (toLex (1, 65537)))) =
          some (false, true) := by
  have hopen : (run (offers [65537])).limit_orders.contains (toLex (1, 65537)) = true := by
    decide +kernel
  have hcancel : (run (offers [65537])).limit_order_cancel 1 65537 = .error .not_found :=
    limit_order_cancel_of_none (by decide +kernel)
  refine ⟨hopen, hcancel, fun h => ?_, by decide +kernel⟩
  obtain ⟨o, ho⟩ := (OrdMap.contains_iff _ _).1 hopen
  obtain ⟨t, -, ht⟩ := h.removes o ho
  rw [hcancel] at ht
  cases ht

end Calibrd.Chain.OrderBook
