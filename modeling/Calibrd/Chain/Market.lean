import Calibrd.Chain.Ledger

/-!
# The order book

Limit orders for STEEM against SBD: `limit_order_create`, `limit_order_create2`, `limit_order_cancel`
and `clear_expired_orders`, with the loop of `apply_order` that matches a new order against the old
ones in order of their price. The volumes that liquidity rewards are computed from are left out.
-/

namespace Calibrd.Chain.Ledger

open Calibrd.Lib Calibrd.Protocol

namespace LimitOrder

def amount_for_sale (o : LimitOrder) : Asset := ⟨o.for_sale, o.sell_price.base.symbol⟩

def amount_to_receive (o : LimitOrder) : Result Asset :=
  withError .asset (o.amount_for_sale.mul o.sell_price)

def key (o : LimitOrder) : AccountName ×ₗ ℕ := toLex (o.seller, o.orderid)

/-- The order of the index `by_price`: the greater price first, then the older order. -/
def before (a b : LimitOrder) : Prop :=
  a.sell_price.greater b.sell_price = true ∨
    (b.sell_price.greater a.sell_price = false ∧ a.id ≤ b.id)

instance : DecidableRel before := fun a b =>
  inferInstanceAs (Decidable (a.sell_price.greater b.sell_price = true ∨
    (b.sell_price.greater a.sell_price = false ∧ a.id ≤ b.id)))

end LimitOrder

/-- What the new order and the old one receive in a match. -/
def matchAmounts (new_order old_order : LimitOrder) (match_price : Price) :
    Result (Asset × Asset) := do
  let old_value ← withError .asset (old_order.amount_for_sale.mul match_price)
  check (new_order.amount_for_sale.symbol = old_value.symbol) .invalid_symbol
  if new_order.for_sale ≤ old_value.amount then do
    let value ← withError .asset (new_order.amount_for_sale.mul match_price)
    .ok (value, new_order.amount_for_sale)
  else .ok (old_order.amount_for_sale, old_value)

namespace State

variable (s : State)

def putOrder (o : LimitOrder) : State := { s with limit_orders := s.limit_orders.insert o.key o }

def removeOrder (o : LimitOrder) : State := { s with limit_orders := s.limit_orders.erase o.key }

def cancel_order (o : LimitOrder) : Result State := do
  let s ← s.adjust_balance o.seller o.amount_for_sale
  .ok (s.removeOrder o)

/-- `fill_order`, and whether the order is gone. -/
def fill_order (o : LimitOrder) (pays receives : Asset) : Result (Bool × State) := do
  check (o.amount_for_sale.symbol = pays.symbol) .invalid_symbol
  check (pays.symbol ≠ receives.symbol) .invalid_symbol
  let s ← s.adjust_balance o.seller receives
  if pays = o.amount_for_sale then .ok (true, s.removeOrder o)
  else do
    let o := { o with for_sale := o.for_sale - pays.amount }
    let to_receive ← o.amount_to_receive
    if to_receive.amount = 0 then do
      let s ← (s.putOrder o).cancel_order o
      .ok (true, s)
    else .ok (false, s.putOrder o)

/-- `match`: both orders are filled at the price of the old one. Returns whether the new order is
gone. -/
def matchOrders (new_order old_order : LimitOrder) (match_price : Price) :
    Result (Bool × State) := do
  let (new_receives, old_receives) ← matchAmounts new_order old_order match_price
  let (filled, s) ← s.fill_order new_order old_receives new_receives
  let (_, s) ← s.fill_order old_order new_receives old_receives
  .ok (filled, s)

/-- The loop of `apply_order`. -/
def matchAgainst (key : AccountName ×ₗ ℕ) : List LimitOrder → State → Result State
  | [], s => .ok s
  | old :: rest, s =>
    match s.limit_orders.find? key with
    | none => .error .not_found
    | some new_order => do
      let (filled, s) ← s.matchOrders new_order old old.sell_price
      if filled then .ok s else matchAgainst key rest s

/-- The old orders that the new price meets, the best first. -/
def opposing (sell_price : Price) : List LimitOrder :=
  let max_price := sell_price.invert
  ((s.limit_orders.rows.map Prod.snd).filter fun o =>
    !o.sell_price.greater max_price.max && !max_price.greater o.sell_price).insertionSort
      LimitOrder.before

/-- `apply_order`, and whether the order is gone. -/
def apply_order (o : LimitOrder) : Result (Bool × State) := do
  let s ← matchAgainst o.key (s.opposing o.sell_price) s
  .ok (!s.limit_orders.contains o.key, s)

/-- The common part of the two operations. -/
def createOrder (owner : AccountName) (orderid : ℕ) (amount_to_sell : Asset) (sell_price : Price)
    (fill_or_kill : Bool) (expiration : ℕ) : Result State := do
  check (s.time < expiration) .deadline_passed
  let a ← s.get_account owner
  let balance ← get_balance a amount_to_sell.symbol
  check (amount_to_sell.amount ≤ balance) .insufficient_funds
  let s ← s.adjust_balance owner (-amount_to_sell)
  let o : LimitOrder :=
    { id := s.next_id
      created := s.time
      expiration
      seller := owner
      orderid
      for_sale := amount_to_sell.amount
      sell_price }
  check (!s.limit_orders.contains o.key) .already_exists
  let (filled, s) ← { s.putOrder o with next_id := s.next_id + 1 }.apply_order o
  check (!fill_or_kill || filled) .not_filled
  .ok s

/-- STEEM against SBD. -/
def isMarket (a b : Symbol) : Bool :=
  decide ((a = .STEEM ∧ b = .SBD) ∨ (a = .SBD ∧ b = .STEEM))

def limit_order_create (owner : AccountName) (orderid : ℕ) (amount_to_sell min_to_receive : Asset)
    (fill_or_kill : Bool) (expiration : ℕ) : Result State := do
  check (isMarket amount_to_sell.symbol min_to_receive.symbol) .invalid_asset
  check (0 < amount_to_sell.amount ∧ 0 < min_to_receive.amount) .invalid_price
  s.createOrder owner orderid amount_to_sell ⟨amount_to_sell, min_to_receive⟩ fill_or_kill expiration

def limit_order_create2 (owner : AccountName) (orderid : ℕ) (amount_to_sell : Asset)
    (exchange_rate : Price) (fill_or_kill : Bool) (expiration : ℕ) : Result State := do
  check (amount_to_sell.symbol = exchange_rate.base.symbol) .invalid_asset
  check (0 < exchange_rate.base.amount ∧ 0 < exchange_rate.quote.amount) .invalid_price
  check (isMarket amount_to_sell.symbol exchange_rate.quote.symbol) .invalid_asset
  let value ← withError .asset (amount_to_sell.mul exchange_rate)
  check (0 < value.amount) .invalid_price
  s.createOrder owner orderid amount_to_sell exchange_rate fill_or_kill expiration

/-- `get_limit_order` keeps only the lower half of the order id. -/
def limit_order_cancel (owner : AccountName) (orderid : ℕ) : Result State :=
  match s.limit_orders.find? (toLex (owner, orderid % 2 ^ 16)) with
  | none => .error .not_found
  | some o => s.cancel_order o

/-- The loop of `clear_expired_orders` over the orders in order of their expiration. -/
def cancelOrders : List LimitOrder → State → Result State
  | [], s => .ok s
  | o :: rest, s => do
    let s ← s.cancel_order o
    cancelOrders rest s

def expiredOrders : List LimitOrder :=
  ((s.limit_orders.rows.map Prod.snd).filter fun o => decide (o.expiration < s.time)).insertionSort
    fun a b => a.expiration < b.expiration ∨ (a.expiration = b.expiration ∧ a.id ≤ b.id)

def clear_expired_orders : Result State := cancelOrders s.expiredOrders s

end State

/-! ## Matches -/

variable {filled : Bool}

/-- A match fills both orders: each pays what the other receives. -/
theorem matchOrders_cases {s s' : State} {o old : LimitOrder} {match_price : Price}
    (h : s.matchOrders o old match_price = .ok (filled, s')) :
    ∃ new_receives old_receives s1 filled',
      matchAmounts o old match_price = .ok (new_receives, old_receives) ∧
      s.fill_order o old_receives new_receives = .ok (filled, s1) ∧
      s1.fill_order old new_receives old_receives = .ok (filled', s') := by
  obtain ⟨⟨new_receives, old_receives⟩, hamounts, h⟩ := bind_ok.1 h
  obtain ⟨⟨filled1, s1⟩, h1, h⟩ := bind_ok.1 h
  obtain ⟨⟨filled2, s2⟩, h2, h⟩ := bind_ok.1 h
  obtain ⟨rfl, rfl⟩ := Prod.mk.inj (Except.ok.inj h)
  exact ⟨new_receives, old_receives, s1, filled2, hamounts, h1, h2⟩

/-! ## The market moves value -/

section Frame

variable {s s' : State} {o : LimitOrder}

theorem moved_putOrder (s : State) (o : LimitOrder) : Moved s (s.putOrder o) := by
  refine ⟨?_, rfl⟩
  constructor <;> rfl

theorem moved_removeOrder (s : State) (o : LimitOrder) : Moved s (s.removeOrder o) := by
  refine ⟨?_, rfl⟩
  constructor <;> rfl

theorem moved_cancel_order (h : s.cancel_order o = .ok s') : Moved s s' := by
  obtain ⟨t, ht, h⟩ := bind_ok.1 h
  cases h
  exact (moved_adjust_balance ht).trans (moved_removeOrder t o)

theorem moved_fill_order {pays receives : Asset}
    (h : s.fill_order o pays receives = .ok (filled, s')) : Moved s s' := by
  replace h := ok_of_check h
  replace h := ok_of_check h
  obtain ⟨t, ht, h⟩ := bind_ok.1 h
  refine (moved_adjust_balance ht).trans ?_
  split at h
  · cases h
    exact moved_removeOrder t o
  · obtain ⟨to_receive, -, h⟩ := bind_ok.1 h
    split at h
    · obtain ⟨u, hu, h⟩ := bind_ok.1 h
      cases h
      exact (moved_putOrder t _).trans (moved_cancel_order hu)
    · cases h
      exact moved_putOrder t _

theorem moved_matchOrders {old : LimitOrder} {match_price : Price}
    (h : s.matchOrders o old match_price = .ok (filled, s')) : Moved s s' := by
  obtain ⟨_, _, s1, _, -, h1, h2⟩ := matchOrders_cases h
  exact (moved_fill_order h1).trans (moved_fill_order h2)

theorem moved_matchAgainst {key : AccountName ×ₗ ℕ} {l : List LimitOrder}
    (h : State.matchAgainst key l s = .ok s') : Moved s s' := by
  induction l generalizing s with
  | nil =>
    cases h
    exact .refl _
  | cons old l ih =>
    unfold State.matchAgainst at h
    split at h
    · cases h
    · obtain ⟨⟨filled, t⟩, ht, h⟩ := bind_ok.1 h
      refine (moved_matchOrders ht).trans ?_
      dsimp only at h
      split at h
      · cases h
        exact .refl _
      · exact ih h

variable {owner : AccountName} {orderid expiration : ℕ} {kill : Bool}

theorem moved_createOrder {sell : Asset} {price : Price}
    (h : s.createOrder owner orderid sell price kill expiration = .ok s') : Moved s s' := by
  simp only [State.createOrder, bind_ok, exists_check_eq_ok] at h
  obtain ⟨-, _, -, _, -, -, t, ht, -, ⟨filled, u⟩, hu, -, h⟩ := h
  cases h
  obtain ⟨v, hv, hu⟩ := bind_ok.1 hu
  obtain ⟨-, rfl⟩ := Prod.mk.inj (Except.ok.inj hu)
  have hmatched := moved_matchAgainst hv
  refine (moved_adjust_balance ht).trans (Moved.trans ?_ hmatched)
  refine ⟨?_, rfl⟩
  constructor <;> rfl

theorem moved_limit_order_create {sell receive : Asset}
    (h : s.limit_order_create owner orderid sell receive kill expiration = .ok s') :
    Moved s s' := by
  replace h := ok_of_check h
  replace h := ok_of_check h
  exact moved_createOrder h

theorem moved_limit_order_create2 {sell : Asset} {rate : Price}
    (h : s.limit_order_create2 owner orderid sell rate kill expiration = .ok s') : Moved s s' := by
  simp only [State.limit_order_create2, bind_ok, exists_check_eq_ok] at h
  obtain ⟨-, -, -, _, -, -, h⟩ := h
  exact moved_createOrder h

theorem moved_limit_order_cancel (h : s.limit_order_cancel owner orderid = .ok s') :
    Moved s s' := by
  unfold State.limit_order_cancel at h
  split at h
  · cases h
  · exact moved_cancel_order h

theorem moved_cancelOrders {l : List LimitOrder} (h : State.cancelOrders l s = .ok s') :
    Moved s s' := by
  induction l generalizing s with
  | nil =>
    cases h
    exact .refl _
  | cons o l ih =>
    obtain ⟨t, ht, h⟩ := bind_ok.1 h
    exact (moved_cancel_order ht).trans (ih h)

theorem moved_clear_expired_orders (h : s.clear_expired_orders = .ok s') : Moved s s' :=
  moved_cancelOrders h

end Frame

end Calibrd.Chain.Ledger
