import Calibrd.Lib.OrderStatistic
import Calibrd.Lib.Runs
import Calibrd.Protocol.Asset
import Calibrd.Protocol.FixedString

/-!
# The price feed

Witnesses publish prices between STEEM and SBD. Once an hour the median of the recent feeds of the
scheduled witnesses is added to `price_history`, and the median of that, raised to the price at which
all SBD are worth a tenth of the market, becomes `current_median_history`.

`feed_publish` accepts a price with either asset as its base, and prices are compared by their symbols
first. While every feed has SBD as its base, the comparisons are those of the rates and the limit on
debt holds after every update (`update_median_feed_capped`); a median with STEEM as its base is above
every limit, so that the limit is not applied.
-/

namespace Calibrd.Chain.PriceFeed

open Calibrd.Lib Calibrd.Protocol

def STEEMIT_FEED_INTERVAL_BLOCKS : ℕ := 60 * 60 / 3

def STEEMIT_FEED_HISTORY_WINDOW_PRE_HF_16 : ℕ := 24 * 7

def STEEMIT_FEED_HISTORY_WINDOW : ℕ := 12 * 7

def STEEMIT_MAX_FEED_AGE_SECONDS : ℕ := 60 * 60 * 24 * 7

/-- `STEEMIT_MAX_WITNESSES / 3`. -/
def STEEMIT_MIN_FEEDS : ℕ := 21 / 3

inductive FeedError where
  | unknown_witness (name : Protocol.AccountName)
  | invalid_account_name
  | not_a_steem_sbd_price
  | price_not_positive
  | overflow
deriving DecidableEq

abbrev Result := Except FeedError

/-- An amount that is issued, a `share_type` that is not negative. -/
structure Supply where
  amount : ℤ
  nonneg : 0 ≤ amount
  lt : amount < 2 ^ 63

structure Witness where
  sbd_exchange_rate : Price := {}
  last_sbd_exchange_update : ℕ := 0

structure State where
  head_block_num : ℕ
  head_block_time : ℕ
  last_hardfork : ℕ
  witnesses : OrdMap Protocol.AccountName Witness := .empty
  /-- The first `num_scheduled_witnesses` of `current_shuffled_witnesses`. -/
  scheduled_witnesses : List Protocol.AccountName
  current_supply : Supply
  current_sbd_supply : Supply
  price_history : List Price := []
  current_median_history : Price := {}

/-- The operation. An amount has 64 bits. -/
structure FeedPublish where
  publisher : Protocol.AccountName
  exchange_rate : Price
  base_lt : exchange_rate.base.amount < 2 ^ 63
  quote_lt : exchange_rate.quote.amount < 2 ^ 63

def FeedPublish.validate (o : FeedPublish) : Result Unit := do
  check (is_valid_account_name o.publisher.toString) .invalid_account_name
  let base := o.exchange_rate.base
  let quote := o.exchange_rate.quote
  check ((decide (base.symbol = .STEEM) && decide (quote.symbol = .SBD)) ||
    (decide (base.symbol = .SBD) && decide (quote.symbol = .STEEM))) .not_a_steem_sbd_price
  check (0 < base.amount) .price_not_positive
  check (0 < quote.amount) .price_not_positive

namespace State

variable (s : State)

def has_hardfork (n : ℕ) : Bool := n ≤ s.last_hardfork

def get_witness (name : Protocol.AccountName) : Result Witness :=
  (s.witnesses.find? name).elim (.error (.unknown_witness name)) .ok

def feed_publish (o : FeedPublish) : Result State := do
  o.validate
  let w ← s.get_witness o.publisher
  .ok { s with
    witnesses := s.witnesses.insert o.publisher
      { w with sbd_exchange_rate := o.exchange_rate, last_sbd_exchange_update := s.head_block_time } }

/-- The feed of the witness is recent. Before hardfork 19 every one is. -/
def isRecent (w : Witness) : Bool :=
  if s.has_hardfork 19 then
    s.head_block_time < (w.last_sbd_exchange_update + STEEMIT_MAX_FEED_AGE_SECONDS) % 2 ^ 32
  else w.last_sbd_exchange_update < (s.head_block_time + STEEMIT_MAX_FEED_AGE_SECONDS) % 2 ^ 32

def feed (w : Witness) : Option Price :=
  if s.isRecent w && !w.sbd_exchange_rate.is_null then some w.sbd_exchange_rate else none

def feeds : Result (List Price) := do
  let scheduled ← s.scheduled_witnesses.mapM s.get_witness
  .ok (scheduled.filterMap s.feed)

def steemit_feed_history_window : ℕ :=
  if s.has_hardfork 16 then STEEMIT_FEED_HISTORY_WINDOW else STEEMIT_FEED_HISTORY_WINDOW_PRE_HF_16

/-- `price_history` with the new median, without the oldest one if there are too many. -/
def pushHistory (median_feed : Price) : List Price :=
  let price_history := s.price_history ++ [median_feed]
  if s.steemit_feed_history_window < price_history.length then price_history.tail else price_history

/-- The price at which nine times the SBD are worth all STEEM. -/
def min_price : Price := ⟨⟨9 * s.current_sbd_supply.amount, .SBD⟩, ⟨s.current_supply.amount, .STEEM⟩⟩

end State

/-- `copy[copy.size() / 2]`. -/
def middle (l : List Price) : Price := l.getD (l.length / 2) {}

section Update

variable (sort : List Price → List Price)

/-- The change of `feed_history_object`. -/
def State.add_median_feed (s : State) (median_feed : Price) : Result State := do
  let price_history := s.pushHistory median_feed
  if price_history.length = 0 then .ok { s with price_history }
  else
    let median := middle (sort price_history)
    if s.has_hardfork 14 then
      check (decide (9 * s.current_sbd_supply.amount < 2 ^ 63)) .overflow
      .ok { s with price_history,
                   current_median_history := if s.min_price.greater median then s.min_price else median }
    else .ok { s with price_history, current_median_history := median }

def State.update_median_feed (s : State) : Result State := do
  if s.head_block_num % STEEMIT_FEED_INTERVAL_BLOCKS ≠ 0 then .ok s
  else
    let feeds ← s.feeds
    if STEEMIT_MIN_FEEDS ≤ feeds.length then s.add_median_feed sort (middle (sort feeds))
    else .ok s

/-- What happens to a chain between two blocks' updates of the feed, as far as the feed sees it. -/
inductive Call where
  | feed_publish (o : FeedPublish)
  | update_median_feed
  /-- A new witness has no feed. -/
  | new_witness (owner : Protocol.AccountName)
  /-- Hardfork 16 shortens the history. -/
  | apply_hardfork_0_16
  | advance (head_block_num head_block_time last_hardfork : ℕ)
      (scheduled_witnesses : List Protocol.AccountName)
      (current_supply current_sbd_supply : Supply)

def State.perform (s : State) : Call → Result State
  | .feed_publish o => s.feed_publish o
  | .update_median_feed => s.update_median_feed sort
  | .new_witness owner =>
    .ok { s with witnesses :=
      if s.witnesses.contains owner then s.witnesses else s.witnesses.insert owner {} }
  | .apply_hardfork_0_16 =>
    .ok { s with price_history :=
      s.price_history.drop (s.price_history.length - STEEMIT_FEED_HISTORY_WINDOW) }
  | .advance head_block_num head_block_time last_hardfork scheduled_witnesses current_supply
      current_sbd_supply =>
    .ok { s with head_block_num, head_block_time, last_hardfork, scheduled_witnesses, current_supply,
                 current_sbd_supply }

/-- The documented effect of `std::sort` on prices that can be compared. -/
def Sorts : Prop :=
  ∀ l : List Price, (∀ p ∈ l, p.Positive) →
    (sort l).Perm l ∧ (sort l).Pairwise fun a b => b.less a = false

end Update

/-! ## Rates -/

/-- The price `p` gives at most as many SBD for STEEM as `q`. -/
def rateLe (p q : Price) : Prop := p.sbd * q.steem ≤ q.sbd * p.steem

instance (p q : Price) : Decidable (rateLe p q) :=
  inferInstanceAs (Decidable (p.sbd * q.steem ≤ q.sbd * p.steem))

theorem rateLe_refl (p : Price) : rateLe p p := le_refl _

/-- At least half of the rates are at most that of `m` and at least half are at least that. -/
structure IsMedian (m : Price) (rates : List Price) : Prop where
  mem : m ∈ rates
  below : rates.length ≤ 2 * rates.countP fun p => decide (rateLe p m)
  above : rates.length ≤ 2 * rates.countP fun p => decide (rateLe m p)

/-- `current_median_history` is the larger one of a median of the history and of the limit, and nine
times all SBD are worth at most all STEEM. -/
structure Capped (s : State) : Prop where
  larger : ∃ m, IsMedian m s.price_history ∧
    ((s.current_median_history = m ∧ rateLe s.min_price m) ∨
      (s.current_median_history = s.min_price ∧ rateLe m s.min_price))
  supply : ∃ r, (⟨9 * s.current_sbd_supply.amount, .SBD⟩ : Asset).mul s.current_median_history =
    .ok ⟨r, .STEEM⟩ ∧ r ≤ s.current_supply.amount

/-- A positive price with SBD as its base. -/
structure SbdBased (p : Price) : Prop where
  positive : p.Positive
  base : p.base.symbol = .SBD
  quote : p.quote.symbol = .STEEM

/-- A positive price between STEEM and SBD, with either as its base: what `validate` accepts. -/
structure Feed (p : Price) : Prop where
  positive : p.Positive
  symbols : (p.base.symbol = .STEEM ∧ p.quote.symbol = .SBD) ∨
    (p.base.symbol = .SBD ∧ p.quote.symbol = .STEEM)

theorem feed_of_validate {o : FeedPublish} (h : o.validate = .ok ()) : Feed o.exchange_rate := by
  replace h := ok_of_check h
  obtain ⟨hsymbols, h⟩ := check_bind_ok.1 h
  obtain ⟨hbase, h⟩ := check_bind_ok.1 h
  have hquote := check_eq_ok.1 h
  simp only [Bool.or_eq_true, Bool.and_eq_true, decide_eq_true_eq] at hsymbols hbase hquote
  exact ⟨⟨hbase, o.base_lt, hquote, o.quote_lt⟩, hsymbols⟩

theorem Feed.isFeed {p : Price} (h : Feed p) : p.IsFeed := by
  obtain ⟨⟨base, _⟩, ⟨quote, _⟩⟩ := p
  obtain ⟨⟨hbase, hbase', hquote, hquote'⟩, ⟨rfl, rfl⟩ | ⟨rfl, rfl⟩⟩ := h
  · exact ⟨quote, base, hquote, hquote', hbase.le, hbase', .inr rfl⟩
  · exact ⟨base, quote, hbase, hbase', hquote.le, hquote', .inl rfl⟩

theorem SbdBased.of_feed {p : Price} (h : Feed p) (hbase : p.base.symbol = .SBD) : SbdBased p := by
  rcases h.symbols with hsym | hsym
  · rw [hsym.1] at hbase
    cases hbase
  · exact ⟨h.positive, hsym.1, hsym.2⟩

section SbdBased

variable {p q : Price}

theorem SbdBased.feed (h : SbdBased p) : Feed p := ⟨h.positive, .inr ⟨h.base, h.quote⟩⟩

theorem SbdBased.sbd_eq (h : SbdBased p) : p.sbd = p.base.amount := if_pos h.base

theorem SbdBased.steem_eq (h : SbdBased p) : p.steem = p.quote.amount := if_pos h.base

/-- Among prices with SBD as their base the order is that of the rates. -/
theorem rateLe_of_not_less (hp : SbdBased p) (hq : SbdBased q) (h : q.less p = false) :
    rateLe p q := by
  rw [← Bool.not_eq_true, Price.less_iff hq.positive.fits hp.positive.fits (hq.base.trans hp.base.symm)
    (hq.quote.trans hp.quote.symm), not_lt] at h
  rw [rateLe, hp.sbd_eq, hq.sbd_eq, hp.steem_eq, hq.steem_eq, mul_comm q.base.amount,
    mul_comm p.base.amount]
  exact h

end SbdBased

/-! ## What the steps do -/

section Steps

variable {sort : List Price → List Price} {s s' : State} {m : Price}

theorem State.get_witness_eq_ok {name : Protocol.AccountName} {w : Witness} :
    s.get_witness name = .ok w ↔ s.witnesses.find? name = some w := by
  unfold State.get_witness
  cases s.witnesses.find? name <;> simp

theorem mem_feeds {feeds : List Price} {p : Price} (h : s.feeds = .ok feeds) (hp : p ∈ feeds) :
    ∃ name w, s.witnesses.find? name = some w ∧ w.sbd_exchange_rate = p ∧ p.is_null = false := by
  obtain ⟨scheduled, hscheduled, h⟩ := bind_ok.1 h
  cases h
  obtain ⟨w, hw, hfeed⟩ := List.mem_filterMap.1 hp
  obtain ⟨name, -, hname⟩ := exists_of_mem_mapM hscheduled hw
  unfold State.feed at hfeed
  split at hfeed
  · next hrecent =>
    cases hfeed
    rw [Bool.and_eq_true, Bool.not_eq_true'] at hrecent
    exact ⟨name, w, State.get_witness_eq_ok.1 hname, rfl, hrecent.2⟩
  · cases hfeed

theorem mem_pushHistory {p : Price} (h : p ∈ s.pushHistory m) : p ∈ s.price_history ∨ p = m := by
  unfold State.pushHistory at h
  dsimp only at h
  rw [← List.mem_singleton, ← List.mem_append]
  split at h
  · exact List.mem_of_mem_tail h
  · exact h

theorem pushHistory_ne_nil : s.pushHistory m ≠ [] := by
  have hwindow : 0 < s.steemit_feed_history_window := by
    unfold State.steemit_feed_history_window
    split <;> decide
  rw [← List.length_pos_iff]
  unfold State.pushHistory
  dsimp only
  split
  · rw [List.length_tail]
    omega
  · simp

theorem middle_mem {l pool : List Price} (h : l.Perm pool) (hpool : pool ≠ []) : middle l ∈ pool := by
  have hpos : 0 < l.length := h.length_eq ▸ List.length_pos_iff.2 hpool
  rw [middle, List.getD_eq_getElem?_getD, List.getElem?_eq_getElem (by omega), Option.getD_some]
  exact h.mem_iff.1 (List.getElem_mem _)

/-- The median that is stored: not below the limit since hardfork 14. -/
def State.limited (s : State) (median : Price) : Price :=
  if s.has_hardfork 14 && s.min_price.greater median then s.min_price else median

theorem add_median_feed_eq_ok (h : s.add_median_feed sort m = .ok s') :
    (s.has_hardfork 14 = true → 9 * s.current_sbd_supply.amount < 2 ^ 63) ∧
      s' = { s with
        price_history := s.pushHistory m
        current_median_history := s.limited (middle (sort (s.pushHistory m))) } := by
  unfold State.add_median_feed at h
  dsimp only at h
  rw [if_neg (mt List.length_eq_zero_iff.1 pushHistory_ne_nil)] at h
  unfold State.limited
  split at h
  · next hfork =>
    obtain ⟨hfits, h⟩ := check_decide_ok.1 h
    cases h
    rw [hfork, Bool.true_and]
    exact ⟨fun _ => hfits, rfl⟩
  · next hfork =>
    cases h
    rw [Bool.not_eq_true] at hfork
    rw [hfork]
    exact ⟨nofun, rfl⟩

theorem update_median_feed_eq_ok (h : s.update_median_feed sort = .ok s') :
    s' = s ∨ ∃ feeds, s.feeds = .ok feeds ∧ feeds ≠ [] ∧
      s.add_median_feed sort (middle (sort feeds)) = .ok s' := by
  unfold State.update_median_feed at h
  split at h
  · cases h
    exact .inl rfl
  · obtain ⟨feeds, hfeeds, h⟩ := bind_ok.1 h
    split at h
    · next hmin =>
      refine .inr ⟨feeds, hfeeds, fun hnil => ?_, h⟩
      rw [hnil] at hmin
      exact absurd hmin (by decide)
    · cases h
      exact .inl rfl

end Steps

/-! ## Feeds along a run -/

/-- Every feed and every stored median is in `Q`. -/
structure FeedsIn (Q : Price → Prop) (s : State) : Prop where
  witnesses : ∀ name w, s.witnesses.find? name = some w →
    w.sbd_exchange_rate = {} ∨ Q w.sbd_exchange_rate
  history : ∀ p ∈ s.price_history, Q p

section Runs

variable {Q : Price → Prop} {sort : List Price → List Price} {s s' : State}

theorem FeedsIn.feeds (h : FeedsIn Q s) {feeds : List Price} (hfeeds : s.feeds = .ok feeds) :
    ∀ p ∈ feeds, Q p := by
  intro p hp
  obtain ⟨name, w, hw, rfl, hnull⟩ := mem_feeds hfeeds hp
  refine (h.witnesses name w hw).resolve_left fun hempty => ?_
  rw [hempty] at hnull
  cases hnull

/-- The history after an update, and that its middle entry is the median of something. -/
theorem FeedsIn.pushHistory (hsort : Sorts sort) (hQ : ∀ p, Q p → p.Positive) (h : FeedsIn Q s)
    {feeds : List Price} (hfeeds : s.feeds = .ok feeds) (hne : feeds ≠ []) :
    ∀ p ∈ s.pushHistory (middle (sort feeds)), Q p := by
  have hin := h.feeds hfeeds
  have hmid := middle_mem (hsort feeds fun p hp => hQ p (hin p hp)).1 hne
  intro p hp
  rcases mem_pushHistory hp with hp | rfl
  · exact h.history p hp
  · exact hin _ hmid

theorem FeedsIn.step (hsort : Sorts sort) (hQ : ∀ p, Q p → p.Positive) {c : Call} (h : FeedsIn Q s)
    (hcall : ∀ o, c = .feed_publish o → o.validate = .ok () → Q o.exchange_rate)
    (hs : s.perform sort c = .ok s') : FeedsIn Q s' := by
  cases c with
  | feed_publish o =>
    obtain ⟨_, hvalid, hs⟩ := bind_ok.1 hs
    obtain ⟨w, -, hs⟩ := bind_ok.1 hs
    cases hs
    exact ⟨OrdMap.forall_insert h.witnesses (.inr (hcall o rfl hvalid)), h.history⟩
  | update_median_feed =>
    rcases update_median_feed_eq_ok hs with rfl | ⟨feeds, hfeeds, hne, hs⟩
    · exact h
    · rw [(add_median_feed_eq_ok hs).2]
      exact ⟨h.witnesses, h.pushHistory hsort hQ hfeeds hne⟩
  | new_witness owner =>
    cases hs
    refine ⟨?_, h.history⟩
    dsimp only
    split
    · exact h.witnesses
    · exact OrdMap.forall_insert h.witnesses (.inl rfl)
  | apply_hardfork_0_16 =>
    cases hs
    exact ⟨h.witnesses, fun p hp => h.history p (List.mem_of_mem_drop hp)⟩
  | advance =>
    cases hs
    exact ⟨h.witnesses, h.history⟩

theorem isMedian_middle (hsort : Sorts sort) {history : List Price}
    (h : ∀ p ∈ history, SbdBased p) (hne : history ≠ []) :
    IsMedian (middle (sort history)) history := by
  obtain ⟨hperm, hpair⟩ := hsort history fun p hp => (h p hp).positive
  have hrates : (sort history).Pairwise rateLe := by
    refine hpair.imp_of_mem fun ha hb hless => ?_
    exact rateLe_of_not_less (h _ (hperm.mem_iff.1 ha)) (h _ (hperm.mem_iff.1 hb)) hless
  have hhalf := half_le_countP_middle rateLe_refl hperm hrates hne {}
  rw [← hperm.length_eq] at hhalf
  refine ⟨middle_mem hperm hne, ?_, ?_⟩
  · rw [← hperm.length_eq]
    exact hhalf.1
  · rw [← hperm.length_eq]
    exact hhalf.2

/-- The limit applies exactly if it is the larger rate. -/
theorem min_price_greater_iff {m : Price} (hm : SbdBased m)
    (hfits : 9 * s.current_sbd_supply.amount < 2 ^ 63) :
    s.min_price.greater m = true ↔ ¬ rateLe s.min_price m := by
  have hnonneg := s.current_sbd_supply.nonneg
  have hmin : s.min_price.Fits :=
    ⟨by show 0 ≤ 9 * _; omega, hfits, s.current_supply.nonneg, s.current_supply.lt⟩
  rw [Price.greater_iff hmin hm.positive.fits hm.base.symm hm.quote.symm, rateLe, hm.sbd_eq,
    hm.steem_eq, not_le, mul_comm m.base.amount, mul_comm s.min_price.sbd]
  exact Iff.rfl

/-- The limit only replaces a median if there are SBD at all. -/
theorem limited_isFeed {m : Price} (hm : Feed m)
    (hfits : s.has_hardfork 14 = true → 9 * s.current_sbd_supply.amount < 2 ^ 63) :
    (s.limited m).IsFeed := by
  unfold State.limited
  split
  · next hlimit =>
    rw [Bool.and_eq_true] at hlimit
    obtain ⟨hfork, hgreater⟩ := hlimit
    rcases hm.symbols with hsym | hsym
    · have hne : s.min_price.base.symbol ≠ m.base.symbol := by
        rw [hsym.1]
        exact nofun
      rw [Price.greater_of_symbol hne, hsym.1] at hgreater
      cases hgreater
    · have hm : SbdBased m := ⟨hm.positive, hsym.1, hsym.2⟩
      have hrate : m.sbd * s.current_supply.amount < 9 * s.current_sbd_supply.amount * m.steem :=
        not_le.1 ((min_price_greater_iff hm (hfits hfork)).1 hgreater)
      have hleft : 0 ≤ m.sbd * s.current_supply.amount :=
        mul_nonneg hm.feed.isFeed.bounds.1.le s.current_supply.nonneg
      have hsbd : 0 < 9 * s.current_sbd_supply.amount :=
        pos_of_mul_pos_left (hleft.trans_lt hrate) hm.feed.isFeed.bounds.2.2.1
      exact ⟨_, _, hsbd, hfits hfork, s.current_supply.nonneg, s.current_supply.lt, .inl rfl⟩
  · exact hm.isFeed

/-- Nine times all SBD at a rate that is not below the limit. -/
theorem mul_le_supply {p : Price} (hp : p.IsFeed) (hrate : rateLe s.min_price p) :
    ∃ r, (⟨9 * s.current_sbd_supply.amount, .SBD⟩ : Asset).mul p = .ok ⟨r, .STEEM⟩ ∧
      r ≤ s.current_supply.amount := by
  obtain ⟨hsbd, hsbd', hsteem, -⟩ := hp.bounds
  have hrate : 9 * s.current_sbd_supply.amount * p.steem ≤ p.sbd * s.current_supply.amount := hrate
  have hnonneg := s.current_sbd_supply.nonneg
  refine ⟨_, Asset.mul_sbd hp (mulDiv_of_fits (by omega) hsteem hsbd hsbd' ?_), ?_⟩
  · calc 9 * s.current_sbd_supply.amount * p.steem ≤ p.sbd * s.current_supply.amount := hrate
      _ < p.sbd * 2 ^ 63 := mul_lt_mul_of_pos_left s.current_supply.lt hsbd
      _ = 2 ^ 63 * p.sbd := mul_comm _ _
  · rw [mul_comm p.sbd] at hrate
    exact Int.ediv_le_of_le_mul hsbd hrate

/-- With SBD as the base of every feed, an update that changes the feed stores the larger one of a
median and the limit. -/
theorem update_median_feed_capped (hsort : Sorts sort) (h : FeedsIn SbdBased s)
    (hfork : s.has_hardfork 14 = true) (hs : s.update_median_feed sort = .ok s') :
    s' = s ∨ Capped s' := by
  rcases update_median_feed_eq_ok hs with rfl | ⟨feeds, hfeeds, hne, hs⟩
  · exact .inl rfl
  · right
    obtain ⟨hfits, rfl⟩ := add_median_feed_eq_ok hs
    have hhistory := h.pushHistory hsort (fun p hp => hp.positive) hfeeds hne
    have hmedian := isMedian_middle hsort hhistory pushHistory_ne_nil
    have hm := hhistory _ hmedian.mem
    have hgreater := min_price_greater_iff hm (hfits hfork)
    generalize middle (sort (s.pushHistory (middle (sort feeds)))) = m at hmedian hm hgreater
    have hfeed := limited_isFeed hm.feed hfits
    have hlimited : s.limited m = if s.min_price.greater m then s.min_price else m := by
      rw [State.limited, hfork, Bool.true_and]
    by_cases hrate : rateLe s.min_price m
    · rw [if_neg (mt hgreater.1 (not_not.2 hrate))] at hlimited
      rw [hlimited] at hfeed ⊢
      exact ⟨⟨m, hmedian, .inl ⟨rfl, hrate⟩⟩, mul_le_supply hfeed hrate⟩
    · rw [if_pos (hgreater.2 hrate)] at hlimited
      rw [hlimited] at hfeed ⊢
      exact ⟨⟨m, hmedian, .inr ⟨rfl, (not_le.1 hrate).le⟩⟩, mul_le_supply hfeed (rateLe_refl _)⟩

theorem step_isFeed (hsort : Sorts sort) {c : Call} (h : FeedsIn Feed s)
    (hfeed : s.current_median_history = {} ∨ s.current_median_history.IsFeed)
    (hs : s.perform sort c = .ok s') :
    s'.current_median_history = {} ∨ s'.current_median_history.IsFeed := by
  cases c with
  | feed_publish o =>
    obtain ⟨_, -, hs⟩ := bind_ok.1 hs
    obtain ⟨w, -, hs⟩ := bind_ok.1 hs
    cases hs
    exact hfeed
  | update_median_feed =>
    rcases update_median_feed_eq_ok hs with rfl | ⟨feeds, hfeeds, hne, hs⟩
    · exact hfeed
    · obtain ⟨hfits, rfl⟩ := add_median_feed_eq_ok hs
      have hhistory := h.pushHistory hsort (fun p hp => hp.positive) hfeeds hne
      have hperm := (hsort _ fun p hp => (hhistory p hp).positive).1
      exact .inr (limited_isFeed (hhistory _ (middle_mem hperm pushHistory_ne_nil)) hfits)
  | new_witness owner | apply_hardfork_0_16 | advance =>
    cases hs
    exact hfeed

/-- The chain before its first block. -/
def genesis : State :=
  { head_block_num := 0, head_block_time := 0, last_hardfork := 0, scheduled_witnesses := []
    current_supply := ⟨0, le_rfl, by decide⟩, current_sbd_supply := ⟨0, le_rfl, by decide⟩ }

theorem feedsIn_genesis : FeedsIn Q genesis := ⟨nofun, nofun⟩

/-- A feed is published with SBD as its base. -/
def Call.sbdBased : Call → Bool
  | .feed_publish o => decide (o.exchange_rate.base.symbol = .SBD)
  | _ => true

theorem runCalls_feedsIn (hsort : Sorts sort) {calls : List Call}
    (h : Along (State.perform sort) (fun _ c => c.sbdBased = true) genesis calls) :
    FeedsIn SbdBased (runCalls (State.perform sort) genesis calls) := by
  refine runCalls_rule (fun hin hc hs => ?_) feedsIn_genesis h
  refine FeedsIn.step hsort (fun p hp => hp.positive) hin (fun o ho hvalid => ?_) hs
  subst ho
  exact SbdBased.of_feed (feed_of_validate hvalid) (of_decide_eq_true hc)

/-- Whatever is published, the price of the feed is one between STEEM and SBD. -/
theorem run_isFeed (hsort : Sorts sort) (calls : List Call) :
    (runCalls (State.perform sort) genesis calls).current_median_history = {} ∨
      (runCalls (State.perform sort) genesis calls).current_median_history.IsFeed := by
  have hinv : FeedsIn Feed (runCalls (State.perform sort) genesis calls) ∧
      ((runCalls (State.perform sort) genesis calls).current_median_history = {} ∨
        (runCalls (State.perform sort) genesis calls).current_median_history.IsFeed) := by
    refine runCalls_rule_all (P := fun s => FeedsIn Feed s ∧ (s.current_median_history = {} ∨
      s.current_median_history.IsFeed)) (fun hs hstep => ?_) ⟨feedsIn_genesis, .inl rfl⟩ calls
    refine ⟨hs.1.step hsort (fun p hp => hp.positive) (fun o _ => feed_of_validate) hstep, ?_⟩
    exact step_isFeed hsort hs.1 hs.2 hstep
  exact hinv.2

/-- In every run that only publishes feeds with SBD as their base, the limit on debt holds after every
update that changes the feed. -/
theorem run_feed_capped (hsort : Sorts sort) {calls : List Call}
    (hcalls : Along (State.perform sort) (fun _ c => c.sbdBased = true) genesis calls)
    (hfork : (runCalls (State.perform sort) genesis calls).has_hardfork 14 = true)
    (hs : (runCalls (State.perform sort) genesis calls).update_median_feed sort = .ok s') :
    s' = runCalls (State.perform sort) genesis calls ∨ Capped s' :=
  update_median_feed_capped hsort (runCalls_feedsIn hsort hcalls) hfork hs

end Runs

/-! ## Sorting prices -/

/-- The order of positive prices as one of numbers. -/
def key (p : Price) : ℕ ×ₗ ℕ ×ₗ ℚ :=
  toLex (p.base.symbol.code, toLex (p.quote.symbol.code, (p.base.amount : ℚ) / p.quote.amount))

theorem code_inj {a b : Symbol} : a.code = b.code ↔ a = b := by
  cases a <;> cases b <;> decide

theorem ratio_lt_iff {p q : Price} (hp : p.Positive) (hq : q.Positive) :
    (p.base.amount : ℚ) / p.quote.amount < q.base.amount / q.quote.amount ↔
      q.quote.amount * p.base.amount < p.quote.amount * q.base.amount := by
  rw [div_lt_div_iff₀ (Int.cast_pos.2 hp.quote_pos) (Int.cast_pos.2 hq.quote_pos), ← Int.cast_mul,
    ← Int.cast_mul, Int.cast_lt, mul_comm p.base.amount, mul_comm q.base.amount]

theorem less_iff_key {p q : Price} (hp : p.Positive) (hq : q.Positive) :
    p.less q = true ↔ key p < key q := by
  rw [key, key, Prod.Lex.toLex_lt_toLex, Prod.Lex.toLex_lt_toLex, code_inj, code_inj,
    ratio_lt_iff hp hq]
  by_cases hbase : p.base.symbol = q.base.symbol
  · by_cases hquote : p.quote.symbol = q.quote.symbol
    · rw [Price.less_iff hp.fits hq.fits hbase hquote]
      simp [hbase, hquote]
    · simp [Price.less, hbase, hquote]
  · simp [Price.less, hbase]

def sortPrices (l : List Price) : List Price := l.insertionSort fun a b => key a ≤ key b

theorem sorts_sortPrices : Sorts sortPrices := by
  intro l hl
  have hperm : (sortPrices l).Perm l := List.perm_insertionSort _ l
  refine ⟨hperm, ?_⟩
  have htotal : Std.Total fun a b : Price => key a ≤ key b := ⟨fun a b => le_total _ _⟩
  have htrans : IsTrans Price fun a b => key a ≤ key b := ⟨fun a b c => le_trans⟩
  refine (List.pairwise_insertionSort (fun a b => key a ≤ key b) l).imp_of_mem fun ha hb hle => ?_
  rw [← Bool.not_eq_true, less_iff_key (hl _ (hperm.mem_iff.1 hb)) (hl _ (hperm.mem_iff.1 ha)), not_lt]
  exact hle

/-! ## Feeds with STEEM as their base -/

def feeders : List Protocol.AccountName :=
  ["feed-a", "feed-b", "feed-c", "feed-d", "feed-e", "feed-f", "feed-g"].map fun n =>
    .ofString (ofAscii n)

/-- Seven witnesses publish the same price. There are as many SBD as STEEM. -/
def publishing (base quote : Symbol) : List Call :=
  feeders.map .new_witness ++
    feeders.map (fun n => .feed_publish ⟨n, ⟨⟨1000, base⟩, ⟨1000, quote⟩⟩, by norm_num, by norm_num⟩) ++
    [.advance STEEMIT_FEED_INTERVAL_BLOCKS 3600 19 feeders ⟨1000, by decide, by decide⟩
      ⟨1000, by decide, by decide⟩]

theorem run_isFeed_published : (runCalls (State.perform sortPrices) genesis
    (publishing .STEEM .SBD ++ [.update_median_feed])).current_median_history.IsFeed :=
  (run_isFeed sorts_sortPrices _).resolve_left (by decide +kernel)

/-- With SBD as the base the limit of nine SBD for one STEEM replaces the median. -/
theorem run_feed_capped_sbd_based : ∃ s',
    (runCalls (State.perform sortPrices) genesis (publishing .SBD .STEEM)).update_median_feed
      sortPrices = .ok s' ∧ s'.current_median_history = ⟨⟨9000, .SBD⟩, ⟨1000, .STEEM⟩⟩ ∧
    (s' = runCalls (State.perform sortPrices) genesis (publishing .SBD .STEEM) ∨ Capped s') := by
  obtain ⟨s', hs'⟩ := exists_eq_ok (x := (runCalls (State.perform sortPrices) genesis
    (publishing .SBD .STEEM)).update_median_feed sortPrices) (by decide +kernel)
  have hmedian : State.current_median_history <$> (runCalls (State.perform sortPrices) genesis
      (publishing .SBD .STEEM)).update_median_feed sortPrices =
        .ok ⟨⟨9000, .SBD⟩, ⟨1000, .STEEM⟩⟩ := by decide +kernel
  rw [hs'] at hmedian
  exact ⟨s', hs', Except.ok.inj hmedian,
    run_feed_capped sorts_sortPrices (by decide +kernel) (by decide +kernel) hs'⟩

/-- With STEEM as the base the limit is not applied: nine times all SBD are worth nine times all
STEEM at the new price. -/
theorem steem_based_feed_exceeds_cap : ∃ s',
    (runCalls (State.perform sortPrices) genesis (publishing .STEEM .SBD)).has_hardfork 14 = true ∧
    (runCalls (State.perform sortPrices) genesis (publishing .STEEM .SBD)).update_median_feed
      sortPrices = .ok s' ∧
    s'.price_history ≠
      (runCalls (State.perform sortPrices) genesis (publishing .STEEM .SBD)).price_history ∧
    (⟨9 * s'.current_sbd_supply.amount, .SBD⟩ : Asset).mul s'.current_median_history =
      .ok ⟨9 * s'.current_supply.amount, .STEEM⟩ ∧ ¬ Capped s' := by
  obtain ⟨s', hs'⟩ := exists_eq_ok (x := (runCalls (State.perform sortPrices) genesis
    (publishing .STEEM .SBD)).update_median_feed sortPrices) (by decide +kernel)
  have hfeed : (fun s => (s.price_history, s.current_median_history, s.current_supply.amount,
      s.current_sbd_supply.amount)) <$> (runCalls (State.perform sortPrices) genesis
        (publishing .STEEM .SBD)).update_median_feed sortPrices =
      .ok ([⟨⟨1000, .STEEM⟩, ⟨1000, .SBD⟩⟩], ⟨⟨1000, .STEEM⟩, ⟨1000, .SBD⟩⟩, 1000, 1000) := by
    decide +kernel
  rw [hs'] at hfeed
  have hparts := Except.ok.inj hfeed
  simp only [Prod.mk.injEq] at hparts
  obtain ⟨hhistory, hmedian, hsteem, hsbd⟩ := hparts
  have hmul : (⟨9 * s'.current_sbd_supply.amount, .SBD⟩ : Asset).mul s'.current_median_history =
      .ok ⟨9 * s'.current_supply.amount, .STEEM⟩ := by
    rw [hmedian, hsteem, hsbd]
    decide
  refine ⟨s', by decide +kernel, hs', ?_, hmul, fun hcapped => ?_⟩
  · rw [hhistory]
    decide +kernel
  · obtain ⟨r, hr, hle⟩ := hcapped.supply
    rw [hmul] at hr
    cases hr
    omega

end Calibrd.Chain.PriceFeed
