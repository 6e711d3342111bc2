import Calibrd.Lib.Check

/-!
# Assets and prices

An asset is a 64 bit amount of a symbol, a price the ratio of two assets. `Asset.mul` is `asset * price`
in 128 bits. A product of amounts that are not negative is rounded down (`mulDiv_of_nonneg`); one of a
negative amount does not fit and throws (`mulDiv_of_neg`).
-/

namespace Calibrd.Protocol

open Calibrd.Lib

inductive Symbol where
  | STEEM
  | SBD
  | VESTS
deriving DecidableEq, Repr

/-- The number that stands for the symbol, with its decimals in the lowest byte. -/
def Symbol.code : Symbol → ℕ
  | STEEM => 0x4d4545545303
  | SBD => 0x44425303
  | VESTS => 0x535453455606

structure Asset where
  amount : ℤ
  symbol : Symbol
deriving DecidableEq, Repr

instance : Neg Asset := ⟨fun a => ⟨-a.amount, a.symbol⟩⟩

structure Price where
  base : Asset := ⟨0, .STEEM⟩
  quote : Asset := ⟨0, .STEEM⟩
deriving DecidableEq, Repr

inductive AssetError where
  | price_not_positive
  | product_too_large
  | invalid_product
deriving DecidableEq, Repr

/-- The value of a number as `uint128_t`. -/
def uint128 (n : ℤ) : ℤ := n % 2 ^ 128

/-- The value of a `uint64_t` as `int64_t`. -/
def int64 (n : ℤ) : ℤ := if n < 2 ^ 63 then n else n - 2 ^ 64

variable {p : Price}

namespace Price

/-- `operator ==`. -/
def equals (a b : Price) : Bool :=
  decide (a.base.symbol = b.base.symbol) && decide (a.quote.symbol = b.quote.symbol) &&
    decide (uint128 (b.quote.amount * a.base.amount) = uint128 (a.quote.amount * b.base.amount))

/-- `operator <`: the symbols first. -/
def less (a b : Price) : Bool :=
  if a.base.symbol ≠ b.base.symbol then decide (a.base.symbol.code < b.base.symbol.code)
  else if a.quote.symbol ≠ b.quote.symbol then decide (a.quote.symbol.code < b.quote.symbol.code)
  else decide (uint128 (b.quote.amount * a.base.amount) < uint128 (a.quote.amount * b.base.amount))

/-- `operator >`. -/
def greater (a b : Price) : Bool := !(a.equals b || a.less b)

/-- `operator ~`. -/
def invert (p : Price) : Price := ⟨p.quote, p.base⟩

def STEEMIT_MAX_SHARE_SUPPLY : ℤ := 1000000000000000

/-- `price::max` for the symbols of the price. -/
def max (p : Price) : Price := ⟨⟨STEEMIT_MAX_SHARE_SUPPLY, p.base.symbol⟩, ⟨1, p.quote.symbol⟩⟩

/-- Equal to the default price. -/
def is_null (p : Price) : Bool := p.equals {}

theorem is_null_iff :
    p.is_null = true ↔ p.base.symbol = .STEEM ∧ p.quote.symbol = .STEEM := by
  simp [is_null, equals, uint128]

/-- A price between STEEM and SBD, as it comes from the feeds of the witnesses and the limit on debt:
some SBD over STEEM, or the other way round. -/
def IsFeed (p : Price) : Prop :=
  ∃ sbd steem : ℤ, 0 < sbd ∧ sbd < 2 ^ 63 ∧ 0 ≤ steem ∧ steem < 2 ^ 63 ∧
    (p = ⟨⟨sbd, .SBD⟩, ⟨steem, .STEEM⟩⟩ ∨ p = ⟨⟨steem, .STEEM⟩, ⟨sbd, .SBD⟩⟩)

/-- The SBD of a price of the feeds. -/
def sbd (p : Price) : ℤ := if p.base.symbol = .SBD then p.base.amount else p.quote.amount

/-- The STEEM of a price of the feeds. -/
def steem (p : Price) : ℤ := if p.base.symbol = .SBD then p.quote.amount else p.base.amount

theorem IsFeed.bounds (h : p.IsFeed) :
    0 < p.sbd ∧ p.sbd < 2 ^ 63 ∧ 0 ≤ p.steem ∧ p.steem < 2 ^ 63 := by
  obtain ⟨sbd, steem, hpos, hsbd, hsteem, hsteem', rfl | rfl⟩ := h
  all_goals exact ⟨hpos, hsbd, hsteem, hsteem'⟩

end Price

/-- `amount * num / den` for a price of `num` over `den`. -/
def mulDiv (amount num den : ℤ) : Except AssetError ℤ := do
  check (0 < den) .price_not_positive
  let result := uint128 (amount * num) / den
  check (result < 2 ^ 64) .product_too_large
  .ok (int64 result)

namespace Asset

/-- `asset * price`. -/
def mul (a : Asset) (p : Price) : Except AssetError Asset :=
  if a.symbol = p.base.symbol then do
    let amount ← mulDiv a.amount p.quote.amount p.base.amount
    .ok ⟨amount, p.quote.symbol⟩
  else if a.symbol = p.quote.symbol then do
    let amount ← mulDiv a.amount p.base.amount p.quote.amount
    .ok ⟨amount, p.base.symbol⟩
  else .error .invalid_product

end Asset

section MulDiv

variable {amount num den r : ℤ}

theorem mulDiv_eq_ok : mulDiv amount num den = .ok r ↔
    0 < den ∧ uint128 (amount * num) / den < 2 ^ 64 ∧
      r = int64 (uint128 (amount * num) / den) := by
  unfold mulDiv
  simp only [check_bind_ok, decide_eq_true_eq, Except.ok.injEq]
  exact and_congr_right fun _ => and_congr_right fun _ => eq_comm

theorem uint128_of_nonneg {n : ℤ} (h : 0 ≤ n) (hlt : n < 2 ^ 128) : uint128 n = n :=
  Int.emod_eq_of_lt h hlt

theorem uint128_of_neg {n : ℤ} (h : n < 0) (hge : -2 ^ 128 ≤ n) : uint128 n = n + 2 ^ 128 := by
  rw [uint128, ← Int.add_emod_right]
  exact Int.emod_eq_of_lt (by omega) (by omega)

theorem mulDiv_of_nonneg (hden : 0 < den) (hpos : 0 ≤ amount * num) (hlt : amount * num < 2 ^ 128)
    (hfit : amount * num / den < 2 ^ 64) :
    mulDiv amount num den = .ok (int64 (amount * num / den)) := by
  rw [mulDiv_eq_ok, uint128_of_nonneg hpos hlt]
  exact ⟨hden, hfit, rfl⟩

/-- A product that fits 63 bits after the division. -/
theorem mulDiv_of_fits (ha : 0 ≤ amount) (hn : 0 ≤ num) (hd : 0 < den) (hden : den < 2 ^ 63)
    (hfit : amount * num < 2 ^ 63 * den) : mulDiv amount num den = .ok (amount * num / den) := by
  have hpos : 0 ≤ amount * num := mul_nonneg ha hn
  have hlt : amount * num / den < 2 ^ 63 := Int.ediv_lt_of_lt_mul hd hfit
  rw [mulDiv_of_nonneg hd hpos (by omega) (by omega), int64, if_pos hlt]

/-- The product of a negative amount wraps to a number that is too large for any price. -/
theorem mulDiv_of_neg (ha : amount < 0) (hlow : -2 ^ 63 ≤ amount) (hnum : 0 < num)
    (hnum' : num < 2 ^ 63) (hden' : den < 2 ^ 63) : mulDiv amount num den ≠ .ok r := by
  rw [Ne, mulDiv_eq_ok]
  rintro ⟨hden, hfit, -⟩
  have hprod : -2 ^ 126 ≤ amount * num := by nlinarith
  have hneg : amount * num < 0 := mul_neg_of_neg_of_pos ha hnum
  rw [uint128_of_neg hneg (by omega), Int.ediv_lt_iff_lt_mul hden] at hfit
  have hbound : 2 ^ 64 * den < 2 ^ 127 := by omega
  omega

end MulDiv

/-! ## Comparisons -/

namespace Price

/-- Both amounts are positive numbers of 64 bits. -/
structure Positive (p : Price) : Prop where
  base_pos : 0 < p.base.amount
  base_lt : p.base.amount < 2 ^ 63
  quote_pos : 0 < p.quote.amount
  quote_lt : p.quote.amount < 2 ^ 63

/-- Both amounts are numbers of 63 bits. -/
structure Fits (p : Price) : Prop where
  base_nonneg : 0 ≤ p.base.amount
  base_lt : p.base.amount < 2 ^ 63
  quote_nonneg : 0 ≤ p.quote.amount
  quote_lt : p.quote.amount < 2 ^ 63

theorem Positive.fits (h : p.Positive) : p.Fits :=
  ⟨h.base_pos.le, h.base_lt, h.quote_pos.le, h.quote_lt⟩

theorem uint128_mul {x y : ℤ} (hx : 0 ≤ x) (hx' : x < 2 ^ 63) (hy : 0 ≤ y) (hy' : y < 2 ^ 63) :
    uint128 (x * y) = x * y := by
  refine uint128_of_nonneg (mul_nonneg hx hy) ?_
  calc x * y < 2 ^ 63 * 2 ^ 63 := mul_lt_mul'' hx' hy' hx hy
    _ < 2 ^ 128 := by norm_num

section Compare

variable {a b : Price} (ha : a.Fits) (hb : b.Fits) (hbase : a.base.symbol = b.base.symbol)
  (hquote : a.quote.symbol = b.quote.symbol)

include ha hb hbase hquote

/-- Prices of one pair are compared by their ratios. -/
theorem less_iff : a.less b = true ↔ b.quote.amount * a.base.amount < a.quote.amount * b.base.amount := by
  simp [less, hbase, hquote, uint128_mul hb.quote_nonneg hb.quote_lt ha.base_nonneg ha.base_lt,
    uint128_mul ha.quote_nonneg ha.quote_lt hb.base_nonneg hb.base_lt]

theorem equals_iff :
    a.equals b = true ↔ b.quote.amount * a.base.amount = a.quote.amount * b.base.amount := by
  simp [equals, hbase, hquote, uint128_mul hb.quote_nonneg hb.quote_lt ha.base_nonneg ha.base_lt,
    uint128_mul ha.quote_nonneg ha.quote_lt hb.base_nonneg hb.base_lt]

theorem greater_iff :
    a.greater b = true ↔ a.quote.amount * b.base.amount < b.quote.amount * a.base.amount := by
  have hless := less_iff ha hb hbase hquote
  have hequals := equals_iff ha hb hbase hquote
  rw [greater, Bool.not_eq_true', Bool.or_eq_false_iff, ← Bool.not_eq_true, ← Bool.not_eq_true, hless,
    hequals]
  omega

end Compare

/-- Otherwise by the symbols of their bases. -/
theorem greater_of_symbol {a b : Price} (h : a.base.symbol ≠ b.base.symbol) :
    a.greater b = !decide (a.base.symbol.code < b.base.symbol.code) := by
  simp [greater, equals, less, h]

end Price

/-- SBD at the price of a feed. -/
theorem Asset.mul_sbd {amount r : ℤ} (hp : p.IsFeed) (h : mulDiv amount p.steem p.sbd = .ok r) :
    (⟨amount, .SBD⟩ : Asset).mul p = .ok ⟨r, .STEEM⟩ := by
  obtain ⟨sbd, steem, -, -, -, -, rfl | rfl⟩ := hp
  all_goals
    simp only [Asset.mul, reduceCtorEq, ↓reduceIte]
    exact bind_ok.2 ⟨r, h, rfl⟩

/-- STEEM is converted to SBD. -/
theorem Asset.symbol_of_mul {amount : ℤ} {b : Asset} (hp : p.IsFeed)
    (heq : (⟨amount, .STEEM⟩ : Asset).mul p = .ok b) : b.symbol = .SBD := by
  obtain ⟨sbd, steem, -, -, -, -, rfl | rfl⟩ := hp
  all_goals
    simp only [Asset.mul, reduceCtorEq, ↓reduceIte] at heq
    obtain ⟨r, -, heq⟩ := bind_ok.1 heq
    cases heq
    rfl

theorem Asset.nonneg_of_mul {amount : ℤ} {b : Asset} (hp : p.IsFeed) (hlow : -2 ^ 63 ≤ amount)
    (heq : (⟨amount, .STEEM⟩ : Asset).mul p = .ok b) : 0 ≤ amount := by
  obtain ⟨sbd, steem, hsbd, hsbd', -, hsteem', hprice⟩ := hp
  have hmul : ∃ r, mulDiv amount sbd steem = .ok r := by
    rcases hprice with rfl | rfl
    all_goals
      simp only [Asset.mul, reduceCtorEq, ↓reduceIte] at heq
      obtain ⟨r, hr, -⟩ := bind_ok.1 heq
      exact ⟨r, hr⟩
  obtain ⟨r, hr⟩ := hmul
  by_contra hneg
  exact mulDiv_of_neg (not_le.1 hneg) hlow hsbd hsbd' hsteem' hr

end Calibrd.Protocol
