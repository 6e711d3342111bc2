import Calibrd.Chain.Maintenance
import Calibrd.Chain.Payments

/-!
# Savings withdrawals

A withdrawal waits in a table under its account and request id until it is delivered or cancelled. The
account counts its withdrawals in a field of its own. `Event` is one change of the table: a request, a
delivery or a return. `History` says which events may follow each other under one key, and `Tracked`
that the counters, the table and the log of the events agree, which every call keeps.
-/

namespace Calibrd.Chain.Savings

open Calibrd.Lib Calibrd.Protocol Calibrd.Chain.Ledger

/-- What a purse has of a symbol. -/
def held (p : Purse) : Symbol → ℤ
  | .STEEM => p.steem
  | .SBD => p.sbd.balance
  | .VESTS => 0

/-- The key of a withdrawal in `by_from_rid`. -/
def key (w : SavingsWithdraw) : AccountName ×ₗ ℕ := toLex (w.from_account, w.request_id)

inductive Event where
  | requested (w : SavingsWithdraw) (time : ℕ)
  | delivered (w : SavingsWithdraw) (time : ℕ)
  | returned (w : SavingsWithdraw)

namespace Event

def withdraw : Event → SavingsWithdraw
  | requested w _ | delivered w _ | returned w => w

/-- Whose purse the event changes. -/
def account : Event → AccountName
  | delivered w _ => w.to_account
  | requested w _ | returned w => w.from_account

/-- By how much. -/
def amount : Event → Asset
  | requested w _ => -w.amount
  | delivered w _ | returned w => w.amount

/-- Deliveries go to the purse; requests and returns are about the savings. -/
def purse : Event → Account → Purse
  | delivered _ _ => Account.purse
  | requested _ _ | returned _ => Account.savings

def edit (m : OrdMap (AccountName ×ₗ ℕ) SavingsWithdraw) :
    Event → OrdMap (AccountName ×ₗ ℕ) SavingsWithdraw
  | requested w _ => m.insert (key w) w
  | delivered w _ | returned w => m.erase (key w)

/-- The counter is a `uint8_t`. -/
def count (n : ℕ) : Event → ℕ
  | requested _ _ => n + 1
  | delivered _ _ | returned _ => (n + 255) % 256

/-- What the code has checked before the event. -/
def Legal (s : State) : Event → Prop
  | requested w time => s.savings_withdraws.find? (key w) = none ∧
      s.requestsOf w.from_account < STEEMIT_SAVINGS_WITHDRAW_REQUEST_LIMIT ∧
      w.complete = time + STEEMIT_SAVINGS_WITHDRAW_TIME
  | delivered w time => s.savings_withdraws.find? (key w) = some w ∧ w.complete ≤ time
  | returned w => s.savings_withdraws.find? (key w) = some w

end Event

/-- What may happen under one key, and which withdrawal is pending after it: a request is delivered,
not before its time, or returned, and only then there can be another one. -/
inductive History : List Event → Option SavingsWithdraw → Prop
  | nil : History [] none
  | request {l : List Event} {w : SavingsWithdraw} {time : ℕ} (h : History l none)
      (hcomplete : w.complete = time + STEEMIT_SAVINGS_WITHDRAW_TIME) :
      History (l ++ [.requested w time]) (some w)
  | deliver {l : List Event} {w : SavingsWithdraw} {time : ℕ} (h : History l (some w))
      (htime : w.complete ≤ time) : History (l ++ [.delivered w time]) none
  | cancel {l : List Event} {w : SavingsWithdraw} (h : History l (some w)) :
      History (l ++ [.returned w]) none

/-- How many withdrawals of the account are pending. -/
def pendingOf (s : State) (name : AccountName) : ℤ :=
  s.savings_withdraws.sum fun w => if w.from_account = name then 1 else 0

/-! ## Calls and their events -/

inductive Call where
  | transfer_from_savings (from_account to_account : AccountName) (request_id : ℕ) (amount : Asset)
  | cancel_transfer_from_savings (from_account : AccountName) (request_id : ℕ)
  | process_savings_withdraws
  /-- The rest of the chain leads to `t`. Only the other calls write the withdrawals and the
  counters. -/
  | other (t : State)

namespace Call

def apply (s : State) : Call → Result State
  | transfer_from_savings x y id amount => s.transfer_from_savings x y id amount
  | cancel_transfer_from_savings x id => s.cancel_transfer_from_savings x id
  | process_savings_withdraws => s.process_savings_withdraws
  | other t => do
    check ((s.accounts.keys ++ t.accounts.keys).all fun x => t.requestsOf x = s.requestsOf x) .not_found
    check (decide (t.time < TIME_LIMIT)) .not_found
    .ok { t with savings_withdraws := s.savings_withdraws }

def events (s : State) : Call → List Event
  | transfer_from_savings from_account to_account request_id amount =>
    [.requested { from_account, to_account, amount, request_id,
                  complete := s.time + STEEMIT_SAVINGS_WITHDRAW_TIME } s.time]
  | cancel_transfer_from_savings x id =>
    (s.savings_withdraws.find? (toLex (x, id))).toList.map .returned
  | process_savings_withdraws => s.completeWithdraws.map (.delivered · s.time)
  | other _ => []

/-- The purse that the events of the call are about. -/
def purse : Call → Account → Purse
  | process_savings_withdraws => Account.purse
  | _ => Account.savings

theorem purse_events (s : State) (c : Call) : ∀ e ∈ c.events s, e.purse = c.purse := by
  intro e he
  cases c with
  | transfer_from_savings =>
    cases List.mem_singleton.1 he
    rfl
  | cancel_transfer_from_savings | process_savings_withdraws =>
    obtain ⟨w, -, rfl⟩ := List.mem_map.1 he
    rfl
  | other => cases he

end Call

/-- What the events give to an account. -/
def given (events : List Event) (x : AccountName) (symbol : Symbol) : ℤ :=
  ((events.filter fun e => e.account = x ∧ e.amount.symbol = symbol).map fun e => e.amount.amount).sum

/-! ## One event -/

structure Did (s s' : State) (e : Event) : Prop where
  time : s'.time = s.time
  table : s'.savings_withdraws = e.edit s.savings_withdraws
  requests : ∀ x, s'.requestsOf x =
    if x = e.withdraw.from_account then e.count (s.requestsOf x) else s.requestsOf x
  rate : s'.sbd_interest_rate = s.sbd_interest_rate
  symbol : e.amount.symbol ≠ .VESTS
  own : ∀ x, s'.purseOf e.purse x = if x = e.account then
    (s.purseOf e.purse x).adjusted s.time s.sbd_interest_rate e.amount else s.purseOf e.purse x

section Did

variable {s s' t : State} {e : Event} {a : Account}

/-- The purse, the table and the counter, in any order. -/
theorem did_of_adjusted {other : Account → Purse}
    (hadjusted : Adjusted e.purse other s t e.account e.amount)
    (ha : t.accounts.find? e.withdraw.from_account = some a)
    (hs : s' = { t with
      savings_withdraws := e.edit t.savings_withdraws
      accounts := t.accounts.insert e.withdraw.from_account
        { a with savings_withdraw_requests := e.count a.savings_withdraw_requests } }) :
    Did s s' e := by
  have htable : t.savings_withdraws = s.savings_withdraws :=
    (congrArg State.savings_withdraws hadjusted.tables).symm
  have hpurse : ∀ n, e.purse { a with savings_withdraw_requests := n } = e.purse a := by
    intro n
    cases e <;> rfl
  subst hs
  refine ⟨hadjusted.chain.time, congrArg e.edit htable, fun x => ?_,
    hadjusted.chain.sbd_interest_rate, hadjusted.symbol, fun x => ?_⟩
  · rw [← hadjusted.requests x]
    unfold State.requestsOf
    by_cases hx : x = e.withdraw.from_account
    · simp [hx, ha]
    · simp [hx, Ne.symm hx]
  · rw [← hadjusted.own x]
    unfold State.purseOf
    by_cases hx : e.withdraw.from_account = x
    · simp [← hx, ha, hpurse]
    · simp [hx]

theorem modifyAccount_eq {name : AccountName} {f : Account → Account}
    (h : s.modifyAccount name f = .ok s') :
    ∃ a, s.accounts.find? name = some a ∧ s' = { s with accounts := s.accounts.insert name (f a) } := by
  obtain ⟨a, ha, h⟩ := bind_ok.1 h
  cases h
  exact ⟨a, find_of_get_account ha, rfl⟩

theorem did_transfer_from_savings {x y : AccountName} {id : ℕ} {amount : Asset}
    (h : s.transfer_from_savings x y id amount = .ok s') :
    ∃ e, (Call.transfer_from_savings x y id amount).events s = [e] ∧ e.Legal s ∧ Did s s' e := by
  replace h := ok_of_check h
  replace h := ok_of_check h
  obtain ⟨a, ha, h⟩ := bind_ok.1 h
  obtain ⟨_, -, h⟩ := bind_ok.1 h
  obtain ⟨hlimit, h⟩ := check_bind_ok.1 h
  obtain ⟨_, -, h⟩ := bind_ok.1 h
  replace h := ok_of_check h
  obtain ⟨t, ht, h⟩ := bind_ok.1 h
  obtain ⟨hfree, h⟩ := check_bind_ok.1 h
  obtain ⟨b, hb, h⟩ := modifyAccount_eq h
  have hadjusted := adjust_savings_balance_adjusted ht
  have htime : t.time = s.time := hadjusted.chain.time
  have htable : t.savings_withdraws = s.savings_withdraws :=
    (congrArg State.savings_withdraws hadjusted.tables).symm
  refine ⟨_, rfl, ⟨?_, ?_, rfl⟩, did_of_adjusted hadjusted hb ?_⟩
  · have hnone : t.savings_withdraws.find? (toLex (x, id)) = none := by
      simpa [OrdMap.contains] using hfree
    exact htable ▸ hnone
  · simpa [State.requestsOf, find_of_get_account ha] using hlimit
  · rw [h, htime]
    rfl

theorem did_cancel_transfer_from_savings
    (hkeyed : ∀ k w, s.savings_withdraws.find? k = some w → key w = k) {x : AccountName} {id : ℕ}
    (h : s.cancel_transfer_from_savings x id = .ok s') :
    ∃ e, (Call.cancel_transfer_from_savings x id).events s = [e] ∧ e.Legal s ∧ Did s s' e := by
  unfold State.cancel_transfer_from_savings at h
  split at h
  · cases h
  · next w hw =>
    obtain ⟨t, ht, h⟩ := bind_ok.1 h
    obtain ⟨b, hb, h⟩ := modifyAccount_eq h
    obtain ⟨rfl, rfl⟩ := Prod.mk.inj (congrArg ofLex (hkeyed _ w hw))
    refine ⟨.returned w, ?_, hw, did_of_adjusted (adjust_savings_balance_adjusted ht) hb ?_⟩
    · simp [Call.events, hw]
    · rw [h]
      rfl

end Did

/-! ## Deliveries -/

variable {w : SavingsWithdraw}

section Deliveries

variable {s s' : State}

inductive DidAll : State → State → List Event → Prop
  | nil (s : State) : DidAll s s []
  | cons {s t s' : State} {e : Event} {l : List Event} (hlegal : e.Legal s) (h : Did s t e)
      (hrest : DidAll t s' l) : DidAll s s' (e :: l)

theorem didAll_paySavings {l : List SavingsWithdraw} (hnodup : (l.map key).Nodup)
    (hdue : ∀ w ∈ l, s.savings_withdraws.find? (key w) = some w ∧ w.complete ≤ s.time)
    (h : State.paySavings l s = .ok s') : DidAll s s' (l.map (.delivered · s.time)) := by
  induction l generalizing s with
  | nil =>
    cases h
    exact .nil _
  | cons w l ih =>
    obtain ⟨t, ht, h⟩ := bind_ok.1 h
    obtain ⟨u, hu, h⟩ := bind_ok.1 h
    obtain ⟨b, hb, rfl⟩ := modifyAccount_eq hu
    obtain ⟨r, hr⟩ : ∃ r, State.paySavings l r = .ok s' ∧ Did s r (.delivered w s.time) :=
      ⟨_, h, did_of_adjusted (adjust_balance_adjusted ht) hb rfl⟩
    rw [List.map_cons, List.nodup_cons] at hnodup
    refine .cons (hdue w List.mem_cons_self) hr.2 (hr.2.time ▸ ih hnodup.2 (fun v hv => ?_) hr.1)
    -- the other withdrawals are still there
    have hne : key w ≠ key v := fun he => hnodup.1 (he ▸ List.mem_map_of_mem hv)
    rw [hr.2.time, hr.2.table, Event.edit, OrdMap.find?_erase, if_neg hne]
    exact hdue v (List.mem_cons_of_mem w hv)

variable (hkeyed : ∀ k w, s.savings_withdraws.find? k = some w → key w = k)

include hkeyed

theorem mem_completeWithdraws :
    w ∈ s.completeWithdraws ↔ s.savings_withdraws.find? (key w) = some w ∧ w.complete ≤ s.time := by
  rw [State.completeWithdraws, OrdMap.mem_index hkeyed, decide_eq_true_iff]

theorem didAll_apply {c : Call} (h : c.apply s = .ok s') :
    (∃ t, c = .other t) ∨ DidAll s s' (c.events s) := by
  cases c with
  | transfer_from_savings x y id amount =>
    obtain ⟨e, he, hlegal, hdid⟩ := did_transfer_from_savings h
    exact .inr (he ▸ .cons hlegal hdid (.nil s'))
  | cancel_transfer_from_savings x id =>
    obtain ⟨e, he, hlegal, hdid⟩ := did_cancel_transfer_from_savings hkeyed h
    exact .inr (he ▸ .cons hlegal hdid (.nil s'))
  | process_savings_withdraws =>
    refine .inr (didAll_paySavings (OrdMap.nodup_index hkeyed) (fun w hw => ?_) h)
    exact (mem_completeWithdraws hkeyed).1 hw
  | other t => exact .inl ⟨t, rfl⟩

end Deliveries

/-! ## Runs -/

/-- The counters, the table and the log agree. -/
structure Tracked (s : State) (log : List Event) : Prop where
  keyed : ∀ k w, s.savings_withdraws.find? k = some w → key w = k
  requests : ∀ x, (s.requestsOf x : ℤ) = pendingOf s x
  limit : ∀ x, s.requestsOf x ≤ STEEMIT_SAVINGS_WITHDRAW_REQUEST_LIMIT
  history : ∀ k, History (log.filter fun e => key e.withdraw = k) (s.savings_withdraws.find? k)
  time : s.time < TIME_LIMIT

namespace Tracked

variable {s s' : State} {log events : List Event} {e : Event}

variable (h : Tracked s log)

include h

/-- A pending withdrawal is counted, so the counter does not wrap. -/
theorem count_removed (hw : s.savings_withdraws.find? (key w) = some w) (x : AccountName) :
    ((if x = w.from_account then (s.requestsOf x + 255) % 256 else s.requestsOf x : ℕ) : ℤ) =
        s.requestsOf x - (if w.from_account = x then 1 else 0) ∧
      (if x = w.from_account then (s.requestsOf x + 255) % 256 else s.requestsOf x) ≤
        STEEMIT_SAVINGS_WITHDRAW_REQUEST_LIMIT := by
  have hlimit : s.requestsOf x ≤ 100 := h.limit x
  have hpending := h.requests x
  have herase := OrdMap.sum_erase_of_some (fun v => if v.from_account = x then 1 else 0) hw
  have hrest : 0 ≤ (s.savings_withdraws.erase (key w)).sum
      fun v => if v.from_account = x then 1 else 0 :=
    OrdMap.sum_nonneg fun _ v _ => by split <;> decide
  unfold pendingOf at hpending
  unfold STEEMIT_SAVINGS_WITHDRAW_REQUEST_LIMIT
  by_cases hx : x = w.from_account
  · subst hx
    rw [herase, if_pos rfl] at hrest
    rw [if_pos rfl, if_pos rfl]
    omega
  · rw [if_neg hx, if_neg (Ne.symm hx)]
    omega

theorem count_did (hlegal : e.Legal s) (hdid : Did s s' e) (x : AccountName) :
    (s'.requestsOf x : ℤ) = pendingOf s' x ∧
      s'.requestsOf x ≤ STEEMIT_SAVINGS_WITHDRAW_REQUEST_LIMIT := by
  have hpending := h.requests x
  have hlimit := h.limit x
  rw [hdid.requests, pendingOf, hdid.table]
  unfold pendingOf at hpending
  cases e with
  | requested w time =>
    rw [Event.edit, OrdMap.sum_insert_of_none _ w hlegal.1, ← hpending]
    by_cases hx : x = w.from_account
    · subst hx
      simp only [Event.withdraw, Event.count, ↓reduceIte]
      exact ⟨by push_cast; rfl, hlegal.2.1⟩
    · simp [Event.withdraw, hx, Ne.symm hx, hlimit]
  | delivered w time =>
    rw [Event.edit, OrdMap.sum_erase_of_some _ hlegal.1, ← hpending]
    exact count_removed h hlegal.1 x
  | returned w =>
    rw [Event.edit, OrdMap.sum_erase_of_some _ hlegal, ← hpending]
    exact count_removed h hlegal x

theorem did (hlegal : e.Legal s) (hdid : Did s s' e) :
    Tracked s' (log ++ [e]) := by
  refine ⟨fun k w hw => ?_, fun x => (count_did h hlegal hdid x).1,
    fun x => (count_did h hlegal hdid x).2, fun k => ?_, hdid.time.trans_lt h.time⟩
  · rw [hdid.table] at hw
    cases e with
    | requested v time => exact OrdMap.forall_insert h.keyed rfl k w hw
    | delivered v time | returned v => exact h.keyed k w (OrdMap.find?_of_erase hw)
  · have hk := h.history k
    rw [List.filter_append, hdid.table]
    cases e with
    | requested v time =>
      rw [Event.edit, OrdMap.find?_insert]
      by_cases hv : key v = k
      · subst hv
        rw [hlegal.1] at hk
        simpa [Event.withdraw] using hk.request hlegal.2.2
      · simpa [Event.withdraw, hv] using hk
    | delivered v time =>
      rw [Event.edit, OrdMap.find?_erase]
      by_cases hv : key v = k
      · subst hv
        rw [hlegal.1] at hk
        simpa [Event.withdraw] using hk.deliver hlegal.2
      · simpa [Event.withdraw, hv] using hk
    | returned v =>
      rw [Event.edit, OrdMap.find?_erase]
      by_cases hv : key v = k
      · subst hv
        rw [hlegal] at hk
        simpa [Event.withdraw] using hk.cancel
      · simpa [Event.withdraw, hv] using hk

theorem didAll (hdid : DidAll s s' events) : Tracked s' (log ++ events) := by
  induction hdid generalizing log with
  | nil s => rwa [List.append_nil]
  | cons hlegal hdid _ ih =>
    rw [← List.singleton_append, ← List.append_assoc]
    exact ih (h.did hlegal hdid)

theorem apply {c : Call} (hs : c.apply s = .ok s') :
    Tracked s' (log ++ c.events s) := by
  rcases didAll_apply h.keyed hs with ⟨t, rfl⟩ | hdid
  · obtain ⟨hsame, hs⟩ := check_bind_ok.1 hs
    obtain ⟨htime, hs⟩ := check_decide_ok.1 hs
    cases hs
    have hrequests : ∀ x, t.requestsOf x = s.requestsOf x := by
      intro x
      by_cases hx : x ∈ s.accounts.keys ++ t.accounts.keys
      · simpa using List.all_eq_true.1 hsame x hx
      · rw [List.mem_append, OrdMap.mem_keys, OrdMap.mem_keys] at hx
        push Not at hx
        simp [State.requestsOf, Option.eq_none_iff_forall_ne_some.2 hx.1,
          Option.eq_none_iff_forall_ne_some.2 hx.2]
    rw [Call.events, List.append_nil]
    exact ⟨h.keyed, fun x => (congrArg _ (hrequests x)).trans (h.requests x),
      fun x => (hrequests x).trans_le (h.limit x), h.history, htime⟩
  · exact h.didAll hdid

end Tracked

/-- What is left after deliveries was there before and is none of them. -/
theorem DidAll.find_delivered {s s' : State} {events : List Event} {time : ℕ}
    (h : DidAll s s' events) (hdelivered : ∀ e ∈ events, ∃ w, e = .delivered w time)
    {k : AccountName ×ₗ ℕ} (hw : s'.savings_withdraws.find? k = some w) :
    s.savings_withdraws.find? k = some w ∧ ∀ e ∈ events, key e.withdraw ≠ k := by
  induction h with
  | nil => exact ⟨hw, List.forall_mem_nil _⟩
  | cons _ hdid _ ih =>
    obtain ⟨⟨v, rfl⟩, hrest⟩ := List.forall_mem_cons.1 hdelivered
    obtain ⟨ht, hne⟩ := ih hrest hw
    rw [hdid.table, Event.edit, OrdMap.find?_erase] at ht
    split at ht
    · cases ht
    · next hv => exact ⟨ht, List.forall_mem_cons.2 ⟨hv, hne⟩⟩

theorem Tracked.lt_complete {s s' : State} {log : List Event} (h : Tracked s log)
    (hs : s.process_savings_withdraws = .ok s') {k : AccountName ×ₗ ℕ}
    (hw : s'.savings_withdraws.find? k = some w) : s.time < w.complete := by
  have hdid : DidAll s s' (s.completeWithdraws.map (.delivered · s.time)) :=
    didAll_paySavings (OrdMap.nodup_index h.keyed) (fun w hw => (mem_completeWithdraws h.keyed).1 hw) hs
  obtain ⟨hfind, hne⟩ := hdid.find_delivered
    (fun e he => (List.mem_map.1 he).imp fun _ h => h.2.symm) hw
  have hkey := h.keyed k w hfind
  by_contra hdue
  have hmem : w ∈ s.completeWithdraws :=
    (mem_completeWithdraws h.keyed).2 ⟨hkey.symm ▸ hfind, not_lt.1 hdue⟩
  exact hne _ (List.mem_map_of_mem hmem) hkey

theorem held_adjusted (p : Purse) (now : ℕ) (rate : ℤ) {delta : Asset} (h : delta.symbol ≠ .VESTS)
    (symbol : Symbol) : held (p.adjusted now rate delta) symbol = held p symbol +
      if symbol = delta.symbol then
        delta.amount + if symbol = .SBD then p.sbd.owed now rate else 0 else 0 := by
  obtain ⟨amount, sym⟩ := delta
  cases sym with
  | STEEM => cases symbol <;> simp [held, Purse.adjusted]
  | SBD =>
    cases symbol with
    | SBD =>
      simp only [held, Purse.adjusted, SbdBalance.settled_balance, ↓reduceIte]
      omega
    | STEEM | VESTS => simp [held, Purse.adjusted]
  | VESTS => exact absurd rfl h

theorem owed_adjusted (p : Purse) (now : ℕ) (rate : ℤ) {delta : Asset} (h : delta.symbol ≠ .VESTS) :
    (p.adjusted now rate delta).sbd.owed now rate =
      if delta.symbol = .SBD then 0 else p.sbd.owed now rate := by
  obtain ⟨amount, symbol⟩ := delta
  cases symbol with
  | STEEM => rfl
  | SBD => exact if_pos (p.sbd.settled_last_update now rate)
  | VESTS => exact absurd rfl h

/-- What the call gives to an account: the amounts of its events, and the interest on SBD once. -/
theorem DidAll.held {s s' : State} {events : List Event} {purse : Account → Purse}
    (h : DidAll s s' events) (hpurse : ∀ e ∈ events, e.purse = purse) (x : AccountName)
    (symbol : Symbol) :
    Savings.held (s'.purseOf purse x) symbol =
      Savings.held (s.purseOf purse x) symbol + given events x symbol +
        if symbol = .SBD ∧ ∃ e ∈ events, e.account = x ∧ e.amount.symbol = symbol then
          (s.purseOf purse x).sbd.owed s.time s.sbd_interest_rate
        else 0 := by
  induction h with
  | nil => simp [given]
  | @cons s t s' e l hlegal hdid hrest ih =>
    obtain ⟨rfl, hl⟩ := List.forall_mem_cons.1 hpurse
    rw [ih hl, hdid.own, hdid.time, hdid.rate]
    by_cases hx : x = e.account
    · subst hx
      rw [if_pos rfl, held_adjusted _ _ _ hdid.symbol, owed_adjusted _ _ _ hdid.symbol]
      by_cases hsymbol : symbol = e.amount.symbol
      · subst hsymbol
        by_cases hsbd : e.amount.symbol = .SBD
        · simp only [given, hsbd, decide_true, and_self, List.filter_cons_of_pos, ↓reduceIte, ite_self,
            List.map_cons, List.sum_cons, List.exists_mem_cons_iff, true_or]
          omega
        · simp only [given, hsbd, decide_true, and_self, List.filter_cons_of_pos, ↓reduceIte,
            List.map_cons, List.sum_cons, false_and]
          omega
      · by_cases hsbd : symbol = .SBD
        · subst hsbd
          simp [given, hsymbol, Ne.symm hsymbol]
        · simp [given, hsbd, hsymbol, Ne.symm hsymbol]
    · simp [given, hx, Ne.symm hx]

theorem run_tracked (init_supply : ℤ) (calls : List Call) :
    Tracked (runCalls Call.apply (Rewards.init_genesis init_supply).ledger calls)
      (logCalls Call.apply Call.events (Rewards.init_genesis init_supply).ledger calls) := by
  have hnone : ∀ x, (Rewards.init_genesis init_supply).ledger.requestsOf x = 0 := by
    intro x
    simp only [Rewards.init_genesis, Rewards.genesis, State.requestsOf, OrdMap.find?_insert]
    split_ifs <;> rfl
  have htime : STEEMIT_GENESIS_TIME < TIME_LIMIT := by decide
  refine logCalls_rule_all Call.events (fun h hs => h.apply hs) ?_ calls
  exact ⟨nofun, fun x => congrArg _ (hnone x), fun x => (hnone x).trans_le (Nat.zero_le _),
    fun _ => .nil, htime⟩

/-- No sum of a time and a period wraps. -/
theorem run_add_period_lt (init_supply : ℤ) (calls : List Call) {period : ℕ}
    (hperiod : period ≤ 60 * 60 * 24 * 30) :
    (runCalls Call.apply (Rewards.init_genesis init_supply).ledger calls).time + period < 2 ^ 32 :=
  add_period_lt (run_tracked init_supply calls).time hperiod

/-- In every run from the genesis: each account counts its pending withdrawals and has at most the
limit of them; the events under each key are requests that are delivered in time or returned, and the
one that is neither is pending; a processing that succeeds leaves no withdrawal that is due; and each
call gives to the accounts the amounts of its events, with the interest that is due on SBD. -/
theorem run_settles (init_supply : ℤ) (calls : List Call) :
    let genesis := (Rewards.init_genesis init_supply).ledger
    let s := runCalls Call.apply genesis calls
    (∀ x, (s.requestsOf x : ℤ) = pendingOf s x ∧
      s.requestsOf x ≤ STEEMIT_SAVINGS_WITHDRAW_REQUEST_LIMIT) ∧
    (∀ k, History ((logCalls Call.apply Call.events genesis calls).filter fun e => key e.withdraw = k)
      (s.savings_withdraws.find? k)) ∧
    (∀ s', s.process_savings_withdraws = .ok s' →
      ∀ k w, s'.savings_withdraws.find? k = some w → s.time < w.complete) ∧
    ∀ (c : Call) s', c.apply s = .ok s' → (∀ t, c ≠ .other t) → ∀ x symbol,
      held (s'.purseOf c.purse x) symbol =
        held (s.purseOf c.purse x) symbol + given (c.events s) x symbol +
          if symbol = .SBD ∧ ∃ e ∈ c.events s, e.account = x ∧ e.amount.symbol = symbol then
            (s.purseOf c.purse x).sbd.owed s.time s.sbd_interest_rate
          else 0 := by
  intro genesis s
  have htracked : Tracked s (logCalls Call.apply Call.events genesis calls) :=
    run_tracked init_supply calls
  refine ⟨fun x => ⟨htracked.requests x, htracked.limit x⟩, htracked.history, fun s' hs' k w hw => ?_,
    fun c s' hs' hown x symbol => ?_⟩
  · exact htracked.lt_complete hs' hw
  · rcases didAll_apply htracked.keyed hs' with ⟨t, rfl⟩ | hdid
    · exact absurd rfl (hown t)
    · exact hdid.held (c.purse_events s) x symbol

end Calibrd.Chain.Savings
