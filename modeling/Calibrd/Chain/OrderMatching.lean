import Calibrd.Chain.OrderBook

/-!
# Safety of the order book

An open order has something for sale and can receive something for it, and no two orders on the two
sides of the market meet (`BookSafe`). While a new order is matched there is an exception: it may meet
the old orders that the loop has still to come to (`Matching`). One match fills one of the two orders
completely; if it is the new one the exception is gone, and otherwise the old one is.

`Match.Fair` says what one match is: each side pays what the other receives, the old order at its own
price with one rounding, the new one at its limit or better.
-/

namespace Calibrd.Chain.Ledger

open Calibrd.Lib Calibrd.Protocol
open Calibrd.Protocol.Price (STEEMIT_MAX_SHARE_SUPPLY)

/-! ## Orders -/

namespace LimitOrder

/-- The two sides of the price. -/
def base (o : LimitOrder) : ℤ := o.sell_price.base.amount

def quote (o : LimitOrder) : ℤ := o.sell_price.quote.amount

/-- An order as the evaluators create it: the amounts of the price are positive numbers of 64 bits,
and at least one unit can be received. -/
structure Ok (o : LimitOrder) : Prop where
  market : State.isMarket o.sell_price.base.symbol o.sell_price.quote.symbol = true
  base_pos : 0 < o.base
  base_lt : o.base < 2 ^ 63
  quote_pos : 0 < o.quote
  quote_lt : o.quote < 2 ^ 63
  for_sale_pos : 0 < o.for_sale
  for_sale_le : o.for_sale ≤ STEEMIT_MAX_SHARE_SUPPLY
  receives_pos : o.base ≤ o.for_sale * o.quote
  receives_lt : o.for_sale * o.quote < 2 ^ 63 * o.base

/-- The orders are on opposite sides, and each offers at least what the other asks for. -/
def Crosses (o p : LimitOrder) : Prop :=
  o.sell_price.base.symbol ≠ p.sell_price.base.symbol ∧ o.quote * p.quote ≤ o.base * p.base

end LimitOrder

section Orders

variable {o p : LimitOrder}

theorem isMarket_ne {a b : Symbol} (h : State.isMarket a b = true) : a ≠ b := by
  rintro rfl
  cases a <;> simp [State.isMarket] at h

theorem quote_symbol_eq {a b c d : Symbol} (h : State.isMarket a b = true)
    (h' : State.isMarket c d = true) (hne : a ≠ c) : b = c ∧ d = a := by
  cases a <;> cases b <;> cases c <;> cases d <;> simp_all [State.isMarket]

theorem LimitOrder.Crosses.symm (h : o.Crosses p) : p.Crosses o := by
  refine ⟨h.1.symm, ?_⟩
  rw [mul_comm p.quote, mul_comm p.base]
  exact h.2

theorem amount_to_receive_of_fits (hsale : 0 ≤ o.for_sale) (hbase : 0 < o.base)
    (hbase' : o.base < 2 ^ 63) (hquote : 0 ≤ o.quote)
    (hfit : o.for_sale * o.quote < 2 ^ 63 * o.base) :
    o.amount_to_receive = .ok ⟨o.for_sale * o.quote / o.base, o.sell_price.quote.symbol⟩ := by
  have hmul := mulDiv_of_fits hsale hquote hbase hbase' hfit
  rw [LimitOrder.amount_to_receive, LimitOrder.amount_for_sale, Asset.mul, if_pos rfl]
  exact withError_eq_ok.2 (bind_ok.2 ⟨_, hmul, rfl⟩)

theorem LimitOrder.Ok.amount_to_receive (h : o.Ok) :
    o.amount_to_receive = .ok ⟨o.for_sale * o.quote / o.base, o.sell_price.quote.symbol⟩ :=
  amount_to_receive_of_fits h.for_sale_pos.le h.base_pos h.base_lt h.quote_pos.le h.receives_lt

theorem LimitOrder.Ok.one_le_receives (h : o.Ok) : 1 ≤ o.for_sale * o.quote / o.base :=
  (Int.le_ediv_iff_mul_le h.base_pos).2 (by linarith [h.receives_pos])

/-- What is left of an order is one, if it can still receive something. -/
theorem LimitOrder.Ok.after (h : o.Ok) {pays : Asset} (hpays : 0 ≤ pays.amount)
    (hlt : pays.amount < o.for_sale) {r : Asset} (hr : (o.after pays).amount_to_receive = .ok r)
    (hpos : r.amount ≠ 0) : (o.after pays).Ok := by
  have hle : (o.for_sale - pays.amount) * o.quote ≤ o.for_sale * o.quote :=
    mul_le_mul_of_nonneg_right (by omega) h.quote_pos.le
  have hfit : (o.after pays).for_sale * (o.after pays).quote < 2 ^ 63 * (o.after pays).base :=
    hle.trans_lt h.receives_lt
  have hsale : 0 < (o.after pays).for_sale := sub_pos.2 hlt
  have hreceives := amount_to_receive_of_fits hsale.le h.base_pos h.base_lt h.quote_pos.le hfit
  rw [hreceives] at hr
  cases hr
  refine ⟨h.market, h.base_pos, h.base_lt, h.quote_pos, h.quote_lt, hsale, ?_, ?_, hfit⟩
  · exact (sub_le_self _ hpays).trans h.for_sale_le
  · have hnonneg : 0 ≤ (o.after pays).for_sale * (o.after pays).quote / (o.after pays).base :=
      Int.ediv_nonneg (mul_nonneg hsale.le h.quote_pos.le) h.base_pos.le
    have hone : 1 ≤ (o.after pays).for_sale * (o.after pays).quote / (o.after pays).base := by
      have hne : (o.after pays).for_sale * (o.after pays).quote / (o.after pays).base ≠ 0 := hpos
      omega
    have hbase := (Int.le_ediv_iff_mul_le h.base_pos).1 hone
    rwa [one_mul] at hbase

end Orders

/-! ## The amounts of a match -/

/-- What the new order pays and receives. -/
def trade (new old : LimitOrder) : ℤ × ℤ :=
  if new.for_sale ≤ old.for_sale * old.quote / old.base then
    (new.for_sale, new.for_sale * old.base / old.quote)
  else (old.for_sale * old.quote / old.base, old.for_sale)

/-- The new order pays `x` and receives `y`. For the old order one of the two amounts is the other at
its own price, rounded down; the new order receives at least the amount at its limit, rounded down. -/
structure FairPrice (new old : LimitOrder) (x y : ℤ) : Prop where
  pays_pos : 0 < x
  receives_pos : 0 < y
  own_price : (y * old.quote ≤ x * old.base ∧ x * old.base < (y + 1) * old.quote) ∨
    (x * old.base ≤ y * old.quote ∧ y * old.quote < (x + 1) * old.base)
  limit : x * new.quote / new.base ≤ y

section Trade

variable {new old : LimitOrder}

theorem old_value_mul_le (ho : old.Ok) :
    old.for_sale * old.quote / old.base * old.base ≤ old.for_sale * old.quote :=
  Int.ediv_mul_le _ ho.base_pos.ne'

/-- The new order is the smaller one. -/
theorem trade_new_le (ho : old.Ok) (hle : new.for_sale ≤ old.for_sale * old.quote / old.base) :
    new.for_sale * old.base ≤ old.for_sale * old.quote :=
  (mul_le_mul_of_nonneg_right hle ho.base_pos.le).trans (old_value_mul_le ho)

/-- What is worth `z` at the limit of the new order is worth at least as much at the old price. -/
theorem mul_quote_le_of_crosses (hn : new.Ok) (hx : new.Crosses old) {x z : ℤ} (hx0 : 0 ≤ x)
    (hz : z * new.base ≤ x * new.quote) (ho : old.Ok) : z * old.quote ≤ x * old.base := by
  have hprices : x * (new.quote * old.quote) ≤ x * (new.base * old.base) :=
    mul_le_mul_of_nonneg_left hx.2 hx0
  have hlimit : z * new.base * old.quote ≤ x * new.quote * old.quote :=
    mul_le_mul_of_nonneg_right hz ho.quote_pos.le
  have hchain : z * old.quote * new.base ≤ x * old.base * new.base := by linarith
  exact le_of_mul_le_mul_right hchain hn.base_pos

theorem trade_le (new : LimitOrder) (ho : old.Ok) :
    (trade new old).1 ≤ new.for_sale ∧ (trade new old).2 ≤ old.for_sale := by
  unfold trade
  split
  · rename_i hle
    refine ⟨le_rfl, Int.ediv_le_of_le_mul ho.quote_pos ?_⟩
    linarith [trade_new_le ho hle]
  · rename_i hlt
    exact ⟨(not_le.1 hlt).le, le_rfl⟩

/-- One of the two orders is filled. -/
theorem trade_fills (new old : LimitOrder) :
    (trade new old).1 = new.for_sale ∨
      ((trade new old).2 = old.for_sale ∧ (trade new old).1 < new.for_sale) := by
  unfold trade
  split
  · exact .inl rfl
  · rename_i hlt
    exact .inr ⟨rfl, not_le.1 hlt⟩

theorem fairPrice_trade (hn : new.Ok) (ho : old.Ok) (hx : new.Crosses old) :
    FairPrice new old (trade new old).1 (trade new old).2 := by
  unfold trade
  split
  · -- the new order is filled
    have hone : 1 * new.base ≤ new.for_sale * new.quote := by
      rw [one_mul]
      exact hn.receives_pos
    have hpos : 1 ≤ new.for_sale * old.base / old.quote :=
      (Int.le_ediv_iff_mul_le ho.quote_pos).2
        (mul_quote_le_of_crosses hn hx hn.for_sale_pos.le hone ho)
    refine ⟨hn.for_sale_pos, hpos, .inl ⟨?_, ?_⟩, ?_⟩
    · exact Int.ediv_mul_le _ ho.quote_pos.ne'
    · exact Int.lt_ediv_add_one_mul_self _ ho.quote_pos
    · refine (Int.le_ediv_iff_mul_le ho.quote_pos).2 ?_
      exact mul_quote_le_of_crosses hn hx hn.for_sale_pos.le (Int.ediv_mul_le _ hn.base_pos.ne') ho
  · -- the old order is filled
    have hone := ho.one_le_receives
    refine ⟨hone, ho.for_sale_pos, .inr ⟨old_value_mul_le ho, ?_⟩, ?_⟩
    · exact Int.lt_ediv_add_one_mul_self _ ho.base_pos
    · have hlimit := mul_quote_le_of_crosses hn hx (by omega)
        (Int.ediv_mul_le (old.for_sale * old.quote / old.base * new.quote) hn.base_pos.ne') ho
      exact le_of_mul_le_mul_right (hlimit.trans (old_value_mul_le ho)) ho.quote_pos

theorem matchAmounts_eq (hn : new.Ok) (ho : old.Ok) (hx : new.Crosses old) :
    matchAmounts new old old.sell_price =
      .ok (⟨(trade new old).2, old.sell_price.base.symbol⟩,
        ⟨(trade new old).1, new.sell_price.base.symbol⟩) := by
  obtain ⟨hold, hnew⟩ := quote_symbol_eq hn.market ho.market hx.1
  have hvalue := ho.amount_to_receive
  refine bind_ok.2 ⟨_, hvalue, check_bind_ok.2 ⟨?_, ?_⟩⟩
  · exact decide_eq_true hnew.symm
  · unfold trade
    dsimp only
    split
    · rename_i hle
      have hfit : new.for_sale * old.base < 2 ^ 63 * old.quote := by
        have hsale := trade_new_le ho hle
        have hmax : old.for_sale * old.quote < 2 ^ 63 * old.quote :=
          mul_lt_mul_of_pos_right (ho.for_sale_le.trans_lt (by decide)) ho.quote_pos
        exact hsale.trans_lt hmax
      have hmul := mulDiv_of_fits hn.for_sale_pos.le ho.base_pos.le ho.quote_pos ho.quote_lt hfit
      refine bind_ok.2 ⟨⟨new.for_sale * old.base / old.quote, old.sell_price.base.symbol⟩, ?_, rfl⟩
      rw [LimitOrder.amount_for_sale, Asset.mul, if_neg hx.1, if_pos hnew.symm]
      exact withError_eq_ok.2 (bind_ok.2 ⟨_, hmul, rfl⟩)
    · rw [hnew]
      rfl

end Trade

/-! ## What a match does -/

/-- The table with `left` in the place of an order. -/
def edit (m : OrdMap (AccountName ×ₗ ℕ) LimitOrder) (k : AccountName ×ₗ ℕ) :
    Option LimitOrder → OrdMap (AccountName ×ₗ ℕ) LimitOrder
  | none => m.erase k
  | some o => m.insert k o

@[simp] theorem find?_edit (m : OrdMap (AccountName ×ₗ ℕ) LimitOrder) (k j : AccountName ×ₗ ℕ)
    (left : Option LimitOrder) : (edit m k left).find? j = if k = j then left else m.find? j := by
  cases left with
  | none => exact OrdMap.find?_erase m k j
  | some o => exact OrdMap.find?_insert m k j o

/-- What is given back of an order that is cancelled. -/
def refundOf (o : LimitOrder) (refund : ℤ) : List Payment :=
  if refund = 0 then [] else [⟨o.seller, ⟨refund, o.sell_price.base.symbol⟩⟩]

/-- What is still for sale. -/
def saleOf (left : Option LimitOrder) : ℤ := left.elim 0 LimitOrder.for_sale

structure LimitOrder.PartOf (p o : LimitOrder) : Prop where
  key : p.key = o.key
  sell_price : p.sell_price = o.sell_price
  ok : p.Ok

section Effects

variable {s s' : State} {o new old : LimitOrder} {filled : Bool}

/-- An order pays, and the rest of it is given back or stays. -/
theorem Fill.effect {pays receives : Asset} (h : Fill s o pays receives filled s') (ho : o.Ok)
    (hsymbol : o.amount_for_sale.symbol = pays.symbol) (hnonneg : 0 ≤ pays.amount)
    (hle : pays.amount ≤ o.for_sale) :
    ∃ left refund t, (left = none ↔ filled = true) ∧ (∀ p ∈ left, p.PartOf o) ∧
      o.for_sale = pays.amount + refund + saleOf left ∧
      (pays.amount = o.for_sale → left = none) ∧
      s.pay (⟨o.seller, receives⟩ :: refundOf o refund) = .ok t ∧
      s' = { t with limit_orders := edit s.limit_orders o.key left } := by
  have hwhole : pays.amount = o.for_sale → pays = o.amount_for_sale := by
    intro hamount
    obtain ⟨amount, symbol⟩ := pays
    dsimp only [LimitOrder.amount_for_sale] at hamount hsymbol
    subst hamount hsymbol
    rfl
  cases h with
  | whole hpays ht =>
    refine ⟨none, 0, _, by simp, by simp, ?_, fun _ => rfl, ht, rfl⟩
    rw [hpays, LimitOrder.amount_for_sale]
    simp [saleOf]
  | culled hpays hr hzero ht =>
    have hne : o.for_sale - pays.amount ≠ 0 := fun h => hpays (hwhole (by omega))
    refine ⟨none, o.for_sale - pays.amount, _, by simp, by simp, ?_, fun _ => rfl, ?_, rfl⟩
    · simp [saleOf]
    · rw [refundOf, if_neg hne]
      exact ht
  | part hpays hr hpos ht =>
    have hlt : pays.amount < o.for_sale := lt_of_le_of_ne hle fun h => hpays (hwhole h)
    refine ⟨some (o.after pays), 0, _, by simp, ?_, ?_, fun h => absurd h hlt.ne, ht, rfl⟩
    · intro p hp
      cases hp
      exact ⟨rfl, rfl, ho.after hnonneg hlt hr hpos⟩
    · simp [saleOf, LimitOrder.after]

/-- A match of two orders that meet: the payments, and what is left of the two. -/
structure Matched (s s' : State) (new old : LimitOrder) (left left' : Option LimitOrder)
    (refund refund' : ℤ) : Prop where
  part : ∀ p ∈ left, p.PartOf new
  part' : ∀ p ∈ left', p.PartOf old
  one_filled : left = none ∨ left' = none
  new_sale : new.for_sale = (trade new old).1 + refund + saleOf left
  old_sale : old.for_sale = (trade new old).2 + refund' + saleOf left'
  paid : ∃ t, s.pay
      (⟨new.seller, ⟨(trade new old).2, old.sell_price.base.symbol⟩⟩ :: refundOf new refund ++
        ⟨old.seller, ⟨(trade new old).1, new.sell_price.base.symbol⟩⟩ :: refundOf old refund') = .ok t ∧
    s' = { t with limit_orders := edit (edit s.limit_orders new.key left) old.key left' }

theorem matchOrders_matched (hn : new.Ok) (ho : old.Ok) (hx : new.Crosses old)
    (h : s.matchOrders new old old.sell_price = .ok (filled, s')) :
    ∃ left left' refund refund', (left = none ↔ filled = true) ∧
      Matched s s' new old left left' refund refund' := by
  obtain ⟨new_receives, old_receives, s1, filled', hamounts, h1, h2⟩ := matchOrders_cases h
  rw [matchAmounts_eq hn ho hx] at hamounts
  obtain ⟨rfl, rfl⟩ := Prod.mk.inj (Except.ok.inj hamounts)
  have hfair := fairPrice_trade hn ho hx
  obtain ⟨hle, hle'⟩ := trade_le new ho
  obtain ⟨hsymbol, -, hfill⟩ := fill_of_fill_order h1
  obtain ⟨left, refund, t, hfilled, hpart, hsale, hwhole, ht, rfl⟩ :=
    hfill.effect hn hsymbol hfair.pays_pos.le hle
  obtain ⟨hsymbol', -, hfill'⟩ := fill_of_fill_order h2
  obtain ⟨left', refund', t', -, hpart', hsale', hwhole', ht', rfl⟩ :=
    hfill'.effect ho hsymbol' hfair.receives_pos.le hle'
  refine ⟨left, left', refund, refund', hfilled, hpart, hpart', ?_, hsale, hsale', ?_⟩
  · rcases trade_fills new old with hx | ⟨hy, -⟩
    · exact .inl (hwhole hx)
    · exact .inr (hwhole' hy)
  · obtain ⟨u, hu, rfl⟩ := pay_orders ht'
    refine ⟨u, ?_, rfl⟩
    rw [pay_append, ht]
    exact hu

end Effects

/-! ## The book while an order is matched -/

/-- Every order is kept under its key and well formed. -/
def OrdersOk (m : OrdMap (AccountName ×ₗ ℕ) LimitOrder) : Prop :=
  ∀ k o, m.find? k = some o → o.key = k ∧ o.Ok

/-- The order at `key` may meet the orders of `rest`, and otherwise no two orders meet. -/
structure Matching (m : OrdMap (AccountName ×ₗ ℕ) LimitOrder) (key : AccountName ×ₗ ℕ)
    (rest : List LimitOrder) : Prop where
  orders : OrdersOk m
  is_open : ∀ o ∈ rest, m.find? o.key = some o
  crosses : ∀ o ∈ rest, ∀ n, m.find? key = some n → n.Crosses o
  keys : (key :: rest.map LimitOrder.key).Nodup
  uncrossed : ∀ {k k' o o'}, m.find? k = some o → m.find? k' = some o' → o.Crosses o' →
    (k = key ∧ o' ∈ rest) ∨ (k' = key ∧ o ∈ rest)

structure BookOk (m : OrdMap (AccountName ×ₗ ℕ) LimitOrder) : Prop where
  orders : OrdersOk m
  uncrossed : ∀ {k k' o o'}, m.find? k = some o → m.find? k' = some o' → ¬ o.Crosses o'

section Loop

variable {s s' : State} {m : OrdMap (AccountName ×ₗ ℕ) LimitOrder} {key : AccountName ×ₗ ℕ}
  {new old : LimitOrder} {left left' : Option LimitOrder} {rest : List LimitOrder}

theorem LimitOrder.Crosses.congr {o o' p p' : LimitOrder} (h : o.Crosses p)
    (ho : o'.sell_price = o.sell_price) (hp : p'.sell_price = p.sell_price) : o'.Crosses p' := by
  unfold LimitOrder.Crosses LimitOrder.base LimitOrder.quote at *
  rwa [ho, hp]

theorem OrdersOk.edit (h : OrdersOk m) {o : LimitOrder} (hleft : ∀ p ∈ left, p.PartOf o) :
    OrdersOk (edit m o.key left) := by
  intro k p hp
  rw [find?_edit] at hp
  split at hp
  · rename_i hk
    have hpart := hleft p hp
    exact ⟨hpart.key.trans hk, hpart.ok⟩
  · exact h k p hp

/-- After a match every row has been there, with the same price. -/
theorem find?_of_matched {k : AccountName ×ₗ ℕ} {o : LimitOrder}
    (hn : m.find? new.key = some new) (ho : m.find? old.key = some old)
    (hpart : ∀ p ∈ left, p.PartOf new) (hpart' : ∀ p ∈ left', p.PartOf old)
    (h : (edit (edit m new.key left) old.key left').find? k = some o) :
    ∃ p, m.find? k = some p ∧ o.sell_price = p.sell_price := by
  rw [find?_edit, find?_edit] at h
  split at h
  · rename_i hk
    exact ⟨old, hk ▸ ho, (hpart' o h).sell_price⟩
  · split at h
    · rename_i hk
      exact ⟨new, hk ▸ hn, (hpart o h).sell_price⟩
    · exact ⟨o, h, rfl⟩

variable (hm : Matching m key (old :: rest)) (hnew : m.find? key = some new)
  (hpart : ∀ p ∈ left, p.PartOf new) (hpart' : ∀ p ∈ left', p.PartOf old)

include hm hnew hpart hpart'

/-- Two orders that meet after a match have met before. -/
theorem Matching.uncrossed_step {k k' : AccountName ×ₗ ℕ} {o o' : LimitOrder}
    (ho : (edit (edit m new.key left) old.key left').find? k = some o)
    (ho' : (edit (edit m new.key left) old.key left').find? k' = some o') (hx : o.Crosses o') :
    (k = key ∧ ∃ p' ∈ old :: rest, m.find? k' = some p') ∨
      (k' = key ∧ ∃ p ∈ old :: rest, m.find? k = some p) := by
  have hkey := (hm.orders key new hnew).1
  have hold := hm.is_open old List.mem_cons_self
  have hnew' : m.find? new.key = some new := hkey ▸ hnew
  obtain ⟨p, hp, hprice⟩ := find?_of_matched hnew' hold hpart hpart' ho
  obtain ⟨p', hp', hprice'⟩ := find?_of_matched hnew' hold hpart hpart' ho'
  rcases hm.uncrossed hp hp' (hx.congr hprice.symm hprice'.symm) with ⟨hk, hmem⟩ | ⟨hk, hmem⟩
  · exact .inl ⟨hk, p', hmem, hp'⟩
  · exact .inr ⟨hk, p, hmem, hp⟩

theorem Matching.filled (hleft : left = none) :
    BookOk (edit (edit m new.key left) old.key left') := by
  have hkey := (hm.orders key new hnew).1
  have hne : old.key ≠ key := fun h =>
    (List.nodup_cons.1 hm.keys).1 (h ▸ List.mem_map_of_mem List.mem_cons_self)
  have hgone : (edit (edit m new.key left) old.key left').find? key = none := by
    rw [find?_edit, if_neg hne, find?_edit, if_pos hkey, hleft]
  refine ⟨(hm.orders.edit hpart).edit hpart', fun {k k' o o'} ho ho' hx => ?_⟩
  rcases hm.uncrossed_step hnew hpart hpart' ho ho' hx with ⟨rfl, -⟩ | ⟨rfl, -⟩
  · rw [hgone] at ho
    cases ho
  · rw [hgone] at ho'
    cases ho'

theorem Matching.continued (hleft' : left' = none) :
    Matching (edit (edit m new.key left) old.key left') key rest := by
  have hkey := (hm.orders key new hnew).1
  obtain ⟨hnotmem, hnodup⟩ := List.nodup_cons.1 hm.keys
  rw [List.map_cons] at hnotmem hnodup
  obtain ⟨holdmem, hrest⟩ := List.nodup_cons.1 hnodup
  have hne : old.key ≠ key := fun h => hnotmem (h ▸ List.mem_cons_self)
  have hgone : (edit (edit m new.key left) old.key left').find? old.key = none := by
    rw [find?_edit, if_pos rfl, hleft']
  -- the orders of the rest are not touched
  have hopen : ∀ o ∈ rest, (edit (edit m new.key left) old.key left').find? o.key = some o := by
    intro o ho
    have hmem := List.mem_map_of_mem (f := LimitOrder.key) ho
    have h1 : old.key ≠ o.key := fun h => holdmem (h ▸ hmem)
    have h2 : new.key ≠ o.key := fun h => hnotmem (hkey ▸ h ▸ List.mem_cons_of_mem _ hmem)
    rw [find?_edit, if_neg h1, find?_edit, if_neg h2]
    exact hm.is_open o (List.mem_cons_of_mem _ ho)
  -- an order that met the new one is still in the list, since `old` is gone
  have hlater : ∀ {k o p}, (edit (edit m new.key left) old.key left').find? k = some o →
      p ∈ old :: rest → m.find? k = some p → o ∈ rest := by
    intro k o p ho hp hk
    have hkp := (hm.orders k p hk).1
    rcases List.mem_cons.1 hp with rfl | hp
    · rw [← hkp, hgone] at ho
      cases ho
    · rw [← hkp, hopen p hp] at ho
      rwa [← Option.some.inj ho]
  refine ⟨(hm.orders.edit hpart).edit hpart', hopen, fun o ho n' hn' => ?_, ?_, ?_⟩
  · rw [find?_edit, if_neg hne, find?_edit, if_pos hkey] at hn'
    have hcross := hm.crosses o (List.mem_cons_of_mem _ ho) new hnew
    exact hcross.congr (hpart n' hn').sell_price rfl
  · exact List.nodup_cons.2 ⟨fun h => hnotmem (List.mem_cons_of_mem _ h), hrest⟩
  · intro k k' o o' ho ho' hx
    rcases hm.uncrossed_step hnew hpart hpart' ho ho' hx with ⟨rfl, p', hmem, hp'⟩ | ⟨rfl, p, hmem, hp⟩
    · exact .inl ⟨rfl, hlater ho' hmem hp'⟩
    · exact .inr ⟨rfl, hlater ho hmem hp⟩

end Loop

/-! ## The orders that a new one meets -/

section Opposing

variable {s : State} {o new : LimitOrder}

theorem LimitOrder.Ok.price (h : o.Ok) : o.sell_price.Positive :=
  ⟨h.base_pos, h.base_lt, h.quote_pos, h.quote_lt⟩

/-- The range of the index that the loop reads. -/
def inRange (sell_price : Price) (o : LimitOrder) : Bool :=
  !o.sell_price.greater sell_price.invert.max && !sell_price.invert.greater o.sell_price

/-- Orders of the same side are outside: the symbols are compared first. -/
theorem inRange_same_side (hn : new.Ok)
    (hsymbol : new.sell_price.base.symbol = o.sell_price.base.symbol) :
    inRange new.sell_price o = false := by
  have hbase : o.sell_price.base.symbol ≠ new.sell_price.quote.symbol := by
    rw [← hsymbol]
    exact isMarket_ne hn.market
  have hmax : o.sell_price.greater new.sell_price.invert.max =
      !decide (o.sell_price.base.symbol.code < new.sell_price.quote.symbol.code) :=
    Price.greater_of_symbol hbase
  have hprice : new.sell_price.invert.greater o.sell_price =
      !decide (new.sell_price.quote.symbol.code < o.sell_price.base.symbol.code) :=
    Price.greater_of_symbol (Ne.symm hbase)
  rw [inRange, hmax, hprice, Bool.not_not, Bool.not_not, Bool.and_eq_false_iff,
    decide_eq_false_iff_not, decide_eq_false_iff_not]
  omega

/-- No order has a price above the greatest one: it could not receive anything. -/
theorem not_greater_max (ho : o.Ok) {p : Price} (hbase : o.sell_price.base.symbol = p.base.symbol)
    (hquote : o.sell_price.quote.symbol = p.quote.symbol) : o.sell_price.greater p.max = false := by
  have hmax : p.max.Positive :=
    ⟨show 0 < STEEMIT_MAX_SHARE_SUPPLY by decide, show STEEMIT_MAX_SHARE_SUPPLY < 2 ^ 63 by decide,
      show (0 : ℤ) < 1 by decide, show (1 : ℤ) < 2 ^ 63 by decide⟩
  rw [← Bool.not_eq_true, Price.greater_iff ho.price.fits hmax.fits hbase hquote, not_lt]
  have hpos := ho.receives_pos
  have hle : o.for_sale * o.quote ≤ STEEMIT_MAX_SHARE_SUPPLY * o.quote :=
    mul_le_mul_of_nonneg_right ho.for_sale_le ho.quote_pos.le
  show 1 * o.base ≤ o.quote * STEEMIT_MAX_SHARE_SUPPLY
  linarith

theorem inRange_iff (hn : new.Ok) (ho : o.Ok) :
    inRange new.sell_price o = true ↔ new.Crosses o := by
  by_cases hsymbol : new.sell_price.base.symbol = o.sell_price.base.symbol
  · simp [inRange_same_side hn hsymbol, LimitOrder.Crosses, hsymbol]
  · obtain ⟨hbase, hquote⟩ := quote_symbol_eq hn.market ho.market hsymbol
    have hprice : new.sell_price.invert.Positive :=
      ⟨hn.quote_pos, hn.quote_lt, hn.base_pos, hn.base_lt⟩
    have hgreater := Price.greater_iff hprice.fits ho.price.fits hbase hquote.symm
    rw [inRange, not_greater_max ho hbase.symm hquote, Bool.not_false, Bool.true_and,
      Bool.not_eq_true', ← Bool.not_eq_true, hgreater, not_lt]
    show o.quote * new.quote ≤ new.base * o.base ↔ _
    rw [LimitOrder.Crosses, mul_comm o.quote]
    exact ⟨fun h => ⟨hsymbol, h⟩, fun h => h.2⟩

theorem mem_opposing (hs : OrdersOk s.limit_orders) (hn : new.Ok) :
    o ∈ s.opposing new.sell_price ↔ s.limit_orders.find? o.key = some o ∧ new.Crosses o := by
  have hkey : ∀ k v, s.limit_orders.find? k = some v → v.key = k := fun k v h => (hs k v h).1
  refine (OrdMap.mem_index hkey (p := inRange new.sell_price) (r := LimitOrder.before)).trans ?_
  exact and_congr_right fun hfind => inRange_iff hn (hs _ o hfind).2

end Opposing

/-! ## The loop -/

/-- One match of the loop: the orders and the states before and after. -/
structure Match where
  before : State
  new : LimitOrder
  old : LimitOrder
  after : State

/-- Each party pays what the other one receives, at a fair price. The payments of a match are these,
and what is given back of an order that is cancelled; what leaves the two orders is the same. -/
def Match.Fair (m : Match) : Prop :=
  ∃ x y refund refund' : ℤ, FairPrice m.new m.old x y ∧
    (∃ t, m.before.pay
        (⟨m.new.seller, ⟨y, m.old.sell_price.base.symbol⟩⟩ :: refundOf m.new refund ++
          ⟨m.old.seller, ⟨x, m.new.sell_price.base.symbol⟩⟩ :: refundOf m.old refund') = .ok t ∧
      m.after = { t with limit_orders := m.after.limit_orders }) ∧
    m.new.for_sale = x + refund + saleOf (m.after.limit_orders.find? m.new.key) ∧
    m.old.for_sale = y + refund' + saleOf (m.after.limit_orders.find? m.old.key) ∧
    ∀ k, k ≠ m.new.key → k ≠ m.old.key →
      m.after.limit_orders.find? k = m.before.limit_orders.find? k

/-- The matches of `matchAgainst`. -/
def matchLog (key : AccountName ×ₗ ℕ) : List LimitOrder → State → List Match
  | [], _ => []
  | old :: rest, s =>
    match s.limit_orders.find? key with
    | none => []
    | some new =>
      match s.matchOrders new old old.sell_price with
      | .error _ => []
      | .ok (filled, s') => ⟨s, new, old, s'⟩ :: if filled then [] else matchLog key rest s'

section Run

variable {s s' : State} {key : AccountName ×ₗ ℕ} {rest : List LimitOrder}

theorem Matched.fair {new old : LimitOrder} {left left' : Option LimitOrder} {refund refund' : ℤ}
    (h : Matched s s' new old left left' refund refund') (hfair : FairPrice new old (trade new old).1
      (trade new old).2) (hne : new.key ≠ old.key) : Match.Fair ⟨s, new, old, s'⟩ := by
  obtain ⟨t, ht, rfl⟩ := h.paid
  refine ⟨_, _, refund, refund', hfair, ⟨t, ht, rfl⟩, ?_, ?_, fun k hk hk' => ?_⟩
  · dsimp only
    rw [find?_edit, if_neg (Ne.symm hne), find?_edit, if_pos rfl]
    exact h.new_sale
  · dsimp only
    rw [find?_edit, if_pos rfl]
    exact h.old_sale
  · dsimp only
    rw [find?_edit, if_neg (Ne.symm hk'), find?_edit, if_neg (Ne.symm hk)]

theorem Matching.bookOk {m : OrdMap (AccountName ×ₗ ℕ) LimitOrder} (h : Matching m key []) :
    BookOk m := by
  refine ⟨h.orders, fun {k k' o o'} ho ho' hx => ?_⟩
  rcases h.uncrossed ho ho' hx with ⟨-, hmem⟩ | ⟨-, hmem⟩
  · cases hmem
  · cases hmem

theorem matchAgainst_cons {new old : LimitOrder} {filled : Bool} {s1 : State}
    (rest : List LimitOrder) (hnew : s.limit_orders.find? key = some new)
    (hmatch : s.matchOrders new old old.sell_price = .ok (filled, s1)) :
    State.matchAgainst key (old :: rest) s =
        (if filled then .ok s1 else State.matchAgainst key rest s1) ∧
      matchLog key (old :: rest) s =
        ⟨s, new, old, s1⟩ :: if filled then [] else matchLog key rest s1 := by
  simp only [State.matchAgainst, matchLog, hnew, hmatch, and_true]
  rfl

/-- Without a match there is nothing to show. -/
theorem matchAgainst_stuck {old : LimitOrder} (rest : List LimitOrder)
    (h : ∀ new r, s.limit_orders.find? key = some new →
      s.matchOrders new old old.sell_price ≠ .ok r) :
    (∀ s', State.matchAgainst key (old :: rest) s ≠ .ok s') ∧ matchLog key (old :: rest) s = [] := by
  cases hnew : s.limit_orders.find? key with
  | none =>
    simp only [State.matchAgainst, matchLog, hnew]
    exact ⟨fun _ h => (nomatch h), trivial⟩
  | some new =>
    cases hmatch : s.matchOrders new old old.sell_price with
    | error e =>
      simp only [State.matchAgainst, matchLog, hnew, hmatch]
      exact ⟨fun _ h => (nomatch h), trivial⟩
    | ok r => exact absurd hmatch (h new r hnew)

/-- The loop: what one match leaves is a safe book, or the book of a shorter loop. -/
theorem matchAgainst_safe (hm : Matching s.limit_orders key rest) :
    (∀ s', State.matchAgainst key rest s = .ok s' → BookOk s'.limit_orders) ∧
      ∀ m ∈ matchLog key rest s, m.Fair := by
  induction rest generalizing s with
  | nil =>
    refine ⟨fun s' h => ?_, fun m hmem => nomatch hmem⟩
    cases h
    exact hm.bookOk
  | cons old rest ih =>
    by_cases hstuck : ∀ new r, s.limit_orders.find? key = some new →
        s.matchOrders new old old.sell_price ≠ .ok r
    · obtain ⟨hnot, hlog⟩ := matchAgainst_stuck rest hstuck
      refine ⟨fun s' h => absurd h (hnot s'), fun m hmem => ?_⟩
      rw [hlog] at hmem
      cases hmem
    push Not at hstuck
    obtain ⟨new, ⟨filled, s1⟩, hnew, hmatch⟩ := hstuck
    obtain ⟨hloop, hlog⟩ := matchAgainst_cons rest hnew hmatch
    obtain ⟨hkey, hn⟩ := hm.orders key new hnew
    have hold := (hm.orders _ old (hm.is_open old List.mem_cons_self)).2
    have hx := hm.crosses old List.mem_cons_self new hnew
    have hne : new.key ≠ old.key := fun h =>
      (List.nodup_cons.1 hm.keys).1 (hkey ▸ h ▸ List.mem_map_of_mem List.mem_cons_self)
    obtain ⟨left, left', refund, refund', hfilled, hmatched⟩ := matchOrders_matched hn hold hx hmatch
    have hfair := hmatched.fair (fairPrice_trade hn hold hx) hne
    obtain ⟨t, -, hs1⟩ := hmatched.paid
    have horders : s1.limit_orders = edit (edit s.limit_orders new.key left) old.key left' := by
      rw [hs1]
    rw [hloop, hlog]
    cases filled with
    | true =>
      have hbook := hm.filled hnew hmatched.part hmatched.part' (hfilled.2 rfl)
      refine ⟨fun s' h => ?_, List.forall_mem_singleton.2 hfair⟩
      cases h
      rw [horders]
      exact hbook
    | false =>
      have hleft' : left' = none := by
        rcases hmatched.one_filled with hleft | hleft
        · exact absurd (hfilled.1 hleft) (by simp)
        · exact hleft
      have hmatching := hm.continued hnew hmatched.part hmatched.part' hleft'
      rw [← horders] at hmatching
      obtain ⟨hbook, hrest⟩ := ih hmatching
      exact ⟨hbook, List.forall_mem_cons.2 ⟨hfair, hrest⟩⟩

/-- A new order in a safe book: it may meet just the orders that the loop is given. -/
theorem BookOk.matching (hs : BookOk s.limit_orders) {new : LimitOrder} (hn : new.Ok)
    (n : ℕ) : Matching (s.putOrder new).limit_orders new.key
      (State.opposing { s.putOrder new with next_id := n } new.sell_price) := by
  have hfind : ∀ k, (s.putOrder new).limit_orders.find? k =
      if new.key = k then some new else s.limit_orders.find? k :=
    fun k => OrdMap.find?_insert _ _ _ _
  have horders : OrdersOk (s.putOrder new).limit_orders := by
    intro k o ho
    rw [hfind] at ho
    split at ho
    · rename_i hk
      cases ho
      exact ⟨hk, hn⟩
    · exact hs.orders k o ho
  have hmem : ∀ o, o ∈ State.opposing { s.putOrder new with next_id := n } new.sell_price ↔
      (s.putOrder new).limit_orders.find? o.key = some o ∧ new.Crosses o :=
    fun o => mem_opposing (s := { s.putOrder new with next_id := n }) horders hn
  have hself : (s.putOrder new).limit_orders.find? new.key = some new := by rw [hfind, if_pos rfl]
  refine ⟨horders, fun o ho => ((hmem o).1 ho).1, fun o ho n' hn' => ?_, ?_, ?_⟩
  · rw [hself] at hn'
    cases hn'
    exact ((hmem o).1 ho).2
  · refine List.nodup_cons.2 ⟨fun h => ?_,
      OrdMap.nodup_index (p := inRange new.sell_price) (r := LimitOrder.before) fun k v h =>
        (horders k v h).1⟩
    obtain ⟨o, ho, hkey⟩ := List.mem_map.1 h
    obtain ⟨hopen, hx⟩ := (hmem o).1 ho
    rw [hkey, hself] at hopen
    cases hopen
    exact hx.1 rfl
  · intro k k' o o' ho ho' hx
    have hnot : ¬ (k ≠ new.key ∧ k' ≠ new.key) := by
      rintro ⟨hk, hk'⟩
      rw [hfind, if_neg (Ne.symm hk)] at ho
      rw [hfind, if_neg (Ne.symm hk')] at ho'
      exact hs.uncrossed ho ho' hx
    by_cases hk : k = new.key
    · left
      rw [hk, hself] at ho
      cases ho
      have hkey := (horders k' o' ho').1
      exact ⟨hk, (hmem o').2 ⟨hkey ▸ ho', hx⟩⟩
    · right
      have hk' : k' = new.key := by
        by_contra hk'
        exact hnot ⟨hk, hk'⟩
      rw [hk', hself] at ho'
      cases ho'
      have hkey := (horders k o ho).1
      exact ⟨hk', (hmem o).2 ⟨hkey ▸ ho, hx.symm⟩⟩

end Run

end Calibrd.Chain.Ledger

namespace Calibrd.Chain.OrderBook

open Calibrd.Lib Calibrd.Protocol Calibrd.Chain.Ledger
open Calibrd.Protocol.Price (STEEMIT_MAX_SHARE_SUPPLY)

/-! ## Runs -/

/-- No more is offered than can exist; other amounts are numbers of 64 bits. -/
def Call.bounded : Call → Bool
  | limit_order_create _ _ amount_to_sell min_to_receive _ _ =>
    decide (amount_to_sell.amount ≤ STEEMIT_MAX_SHARE_SUPPLY ∧ min_to_receive.amount < 2 ^ 63)
  | limit_order_create2 _ _ amount_to_sell exchange_rate _ _ =>
    decide (-2 ^ 63 ≤ amount_to_sell.amount ∧ amount_to_sell.amount ≤ STEEMIT_MAX_SHARE_SUPPLY ∧
      exchange_rate.base.amount < 2 ^ 63 ∧ exchange_rate.quote.amount < 2 ^ 63)
  | _ => true

/-- The matches of a new order. -/
def createMatches (s : State) (owner : AccountName) (orderid : ℕ) (amount_to_sell : Asset)
    (sell_price : Price) (expiration : ℕ) : List Match :=
  match s.adjust_balance owner (-amount_to_sell) with
  | .error _ => []
  | .ok t =>
    let o : LimitOrder :=
      ⟨t.next_id, t.time, expiration, owner, orderid, amount_to_sell.amount, sell_price⟩
    let s : State := { t.putOrder o with next_id := t.next_id + 1 }
    matchLog o.key (s.opposing sell_price) s

/-- The matches that a call makes. -/
def Call.loop (s : State) : Call → List Match
  | limit_order_create owner orderid amount_to_sell min_to_receive _ expiration =>
    createMatches s owner orderid amount_to_sell ⟨amount_to_sell, min_to_receive⟩ expiration
  | limit_order_create2 owner orderid amount_to_sell exchange_rate _ expiration =>
    createMatches s owner orderid amount_to_sell exchange_rate expiration
  | _ => []

/-- Those of an accepted call. -/
def Call.matches (s : State) (c : Call) : List Match :=
  if accepts Call.apply s c then c.loop s else []

/-- Open orders can be filled, and no two of them meet. -/
structure BookSafe (s : State) : Prop where
  positive : ∀ k o, s.limit_orders.find? k = some o →
    0 < o.for_sale ∧ ∃ r, o.amount_to_receive = .ok r ∧ 0 < r.amount
  uncrossed : ∀ k k' o o', s.limit_orders.find? k = some o → s.limit_orders.find? k' = some o' →
    ¬ o.Crosses o'

section Steps

variable {s s' : State} {owner : AccountName} {orderid : ℕ} {sell receive : Asset} {rate : Price}
  {kill : Bool} {expiration : ℕ}

theorem bookSafe_of_bookOk (h : BookOk s.limit_orders) : BookSafe s := by
  refine ⟨fun k o ho => ?_, fun k k' o o' ho ho' => h.uncrossed ho ho'⟩
  have hok := (h.orders k o ho).2
  exact ⟨hok.for_sale_pos, _, hok.amount_to_receive, hok.one_le_receives⟩

theorem bookOk_erase {m : OrdMap (AccountName ×ₗ ℕ) LimitOrder} (h : BookOk m)
    (j : AccountName ×ₗ ℕ) : BookOk (m.erase j) :=
  ⟨fun k o ho => h.orders k o (OrdMap.find?_of_erase ho),
    fun ho ho' => h.uncrossed (OrdMap.find?_of_erase ho) (OrdMap.find?_of_erase ho')⟩

theorem bookOk_cancel_order {o : LimitOrder} (h : BookOk s.limit_orders)
    (hcancel : s.cancel_order o = .ok s') : BookOk s'.limit_orders := by
  obtain ⟨t, -, rfl⟩ := cancel_order_eq hcancel
  exact bookOk_erase h o.key

theorem bookOk_cancelOrders {l : List LimitOrder} (h : BookOk s.limit_orders)
    (hcancel : State.cancelOrders l s = .ok s') : BookOk s'.limit_orders := by
  induction l generalizing s with
  | nil =>
    cases hcancel
    exact h
  | cons o l ih =>
    obtain ⟨t, ht, hcancel⟩ := bind_ok.1 hcancel
    exact ih (bookOk_cancel_order h ht) hcancel

theorem ok_of_create (id created : ℕ) (hmarket : State.isMarket sell.symbol receive.symbol = true)
    (hsell : 0 < sell.amount) (hreceive : 0 < receive.amount)
    (hmax : sell.amount ≤ STEEMIT_MAX_SHARE_SUPPLY) (hlt : receive.amount < 2 ^ 63) :
    LimitOrder.Ok ⟨id, created, expiration, owner, orderid, sell.amount, ⟨sell, receive⟩⟩ := by
  have hle : (STEEMIT_MAX_SHARE_SUPPLY : ℤ) < 2 ^ 63 := by decide
  refine ⟨hmarket, hsell, hmax.trans_lt hle, hreceive, hlt, hsell, hmax, ?_, ?_⟩
  · exact le_mul_of_one_le_right hsell.le hreceive
  · show sell.amount * receive.amount < 2 ^ 63 * sell.amount
    rw [mul_comm]
    exact mul_lt_mul_of_pos_right hlt hsell

theorem ok_of_create2 (id created : ℕ) (hsymbol : sell.symbol = rate.base.symbol)
    (hmarket : State.isMarket sell.symbol rate.quote.symbol = true) (hbase : 0 < rate.base.amount)
    (hquote : 0 < rate.quote.amount) {value : Asset}
    (hvalue : sell.mul rate = .ok value) (hpos : 0 < value.amount) (hlow : -2 ^ 63 ≤ sell.amount)
    (hmax : sell.amount ≤ STEEMIT_MAX_SHARE_SUPPLY) (hbase' : rate.base.amount < 2 ^ 63)
    (hquote' : rate.quote.amount < 2 ^ 63) :
    LimitOrder.Ok ⟨id, created, expiration, owner, orderid, sell.amount, rate⟩ := by
  have hle : (STEEMIT_MAX_SHARE_SUPPLY : ℤ) < 2 ^ 63 := by decide
  rw [Asset.mul, if_pos hsymbol] at hvalue
  obtain ⟨r, hr, hvalue⟩ := bind_ok.1 hvalue
  cases hvalue
  have hnonneg : 0 ≤ sell.amount := by
    by_contra hneg
    exact mulDiv_of_neg (not_le.1 hneg) hlow hquote hquote' hbase' hr
  obtain ⟨-, hfit, rfl⟩ := mulDiv_eq_ok.1 hr
  have hprod : 0 ≤ sell.amount * rate.quote.amount := mul_nonneg hnonneg hquote.le
  have hlt : sell.amount * rate.quote.amount < 2 ^ 128 := by nlinarith
  rw [uint128_of_nonneg hprod hlt] at hpos hfit
  have hbounds : 1 ≤ sell.amount * rate.quote.amount / rate.base.amount ∧
      sell.amount * rate.quote.amount / rate.base.amount < 2 ^ 63 := by
    dsimp only [int64] at hpos
    split at hpos <;> omega
  have hreceives := (Int.le_ediv_iff_mul_le hbase).1 hbounds.1
  have hsell : 0 < sell.amount := by
    rcases hnonneg.lt_or_eq with h | h
    · exact h
    · rw [← h] at hreceives
      omega
  refine ⟨hsymbol ▸ hmarket, hbase, hbase', hquote, hquote', hsell, hmax, ?_, ?_⟩
  · rwa [one_mul] at hreceives
  · exact (Int.ediv_lt_iff_lt_mul hbase).1 hbounds.2

/-- A new order is matched until the book is safe again. -/
theorem createOrder_safe {price : Price} (h : BookOk s.limit_orders)
    (hok : ∀ id created, LimitOrder.Ok ⟨id, created, expiration, owner, orderid, sell.amount, price⟩)
    (hcreate : s.createOrder owner orderid sell price kill expiration = .ok s') :
    BookOk s'.limit_orders ∧ ∀ m ∈ createMatches s owner orderid sell price expiration, m.Fair := by
  obtain ⟨t, ht, -, hloop⟩ := createOrder_cases hcreate
  have hbook : BookOk t.limit_orders := by
    rw [limit_orders_pay ht]
    exact h
  have hmatching := hbook.matching (hok t.next_id t.time) (t.next_id + 1)
  obtain ⟨hsafe, hlog⟩ := matchAgainst_safe
    (s := { t.putOrder ⟨t.next_id, t.time, expiration, owner, orderid, sell.amount, price⟩ with
      next_id := t.next_id + 1 }) hmatching
  refine ⟨hsafe s' hloop, fun m hm => hlog m ?_⟩
  rw [pay_singleton] at ht
  rw [createMatches, ht] at hm
  exact hm

theorem call_safe {c : Call} (h : BookOk s.limit_orders) (hc : c.bounded = true)
    (happly : c.apply s = .ok s') : BookOk s'.limit_orders ∧ ∀ m ∈ c.matches s, m.Fair := by
  have haccepts : accepts Call.apply s c = true := by rw [accepts, happly]
  rw [Call.matches, if_pos haccepts]
  cases c with
  | limit_order_create owner orderid sell receive kill expiration =>
    obtain ⟨hmarket, happly⟩ := check_bind_ok.1 happly
    obtain ⟨hprice, happly⟩ := check_decide_ok.1 happly
    obtain ⟨hsell, hreceive⟩ := hprice
    obtain ⟨hmax, hlt⟩ := of_decide_eq_true hc
    exact createOrder_safe h (fun id created => ok_of_create id created hmarket hsell hreceive hmax hlt)
      happly
  | limit_order_create2 owner orderid sell rate kill expiration =>
    obtain ⟨hsymbol, happly⟩ := check_decide_ok.1 happly
    obtain ⟨hprice, happly⟩ := check_decide_ok.1 happly
    obtain ⟨hmarket, happly⟩ := check_bind_ok.1 happly
    obtain ⟨value, hvalue, happly⟩ := bind_ok.1 happly
    obtain ⟨hpos, happly⟩ := check_decide_ok.1 happly
    obtain ⟨hbase, hquote⟩ := hprice
    obtain ⟨hlow, hmax, hbase', hquote'⟩ := of_decide_eq_true hc
    exact createOrder_safe h (fun id created => ok_of_create2 id created hsymbol
      hmarket hbase hquote (withError_eq_ok.1 hvalue) hpos hlow hmax hbase' hquote')
      happly
  | limit_order_cancel owner orderid =>
    refine ⟨?_, fun m hm => absurd hm List.not_mem_nil⟩
    simp only [Call.apply, State.limit_order_cancel] at happly
    split at happly
    · cases happly
    · exact bookOk_cancel_order h happly
  | clear_expired_orders => exact ⟨bookOk_cancelOrders h happly, fun m hm => absurd hm List.not_mem_nil⟩
  | other t =>
    refine ⟨?_, fun m hm => absurd hm List.not_mem_nil⟩
    cases happly
    exact h

end Steps

/-- In every run in which no more is offered than can exist, open orders can be filled and no two of
them meet, and every match of the next call is fair. -/
theorem run_bookSafe (calls : List Call)
    (h : Along Call.apply (fun _ c => c.bounded = true) {} calls) :
    BookSafe (run calls) ∧ ∀ c : Call, c.bounded = true → ∀ m ∈ c.matches (run calls), m.Fair := by
  have hbook : BookOk (run calls).limit_orders :=
    runCalls_rule (P := fun s : State => BookOk s.limit_orders)
      (fun hs hc happly => (call_safe hs hc happly).1) ⟨fun _ _ => nofun, nofun⟩ h
  refine ⟨bookSafe_of_bookOk hbook, fun c hc m hm => ?_⟩
  cases happly : c.apply (run calls) with
  | ok s' => exact (call_safe hbook hc happly).2 m hm
  | error e =>
    have hrefused : accepts Call.apply (run calls) c = false := by rw [accepts, happly]
    rw [Call.matches, hrefused] at hm
    cases hm

/-- Account 1 has STEEM and account 2 has SBD. -/
def traders : OrdMap AccountName Account :=
  (OrdMap.empty.insert 1 { purse := { steem := 1000 } }).insert 2 { purse := { sbd := { balance := 1000 } } }

/-- Account 1 offers 100 STEEM for 50 SBD, twice. -/
def twoOffers : List Call :=
  [ .other { accounts := traders },
    .limit_order_create 1 1 ⟨100, .STEEM⟩ ⟨50, .SBD⟩ false 10,
    .limit_order_create 1 2 ⟨100, .STEEM⟩ ⟨50, .SBD⟩ false 10 ]

/-- Account 2 buys with 75 SBD, one offer and a half. -/
def purchase : Call := .limit_order_create 2 1 ⟨75, .SBD⟩ ⟨150, .STEEM⟩ false 10

theorem run_bookSafe_purchase :
    BookSafe (run twoOffers) ∧ (purchase.matches (run twoOffers)).length = 2 ∧
      ∀ m ∈ purchase.matches (run twoOffers), m.Fair := by
  obtain ⟨hsafe, hfair⟩ := run_bookSafe twoOffers (by decide +kernel)
  exact ⟨hsafe, by decide +kernel, hfair purchase (by decide)⟩

end Calibrd.Chain.OrderBook
