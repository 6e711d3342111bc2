import Calibrd.Chain.AccountRecovery

/-!
# Which recoveries succeed

The events of a run are kept beside the state: the requests, when an owner authority was replaced and
by which request an account was recovered. From these alone it follows which request is open, when an
account was recovered last and which authorities were replaced lately.

The requests of the state are the open ones that have not expired (`RequestsTracked`), in every run.
The history of the state holds the authorities that were replaced within the recovery period
(`HistoryTracked`) only if they were replaced at a height where the history is kept.
-/

namespace Calibrd.Chain.Recovery

open Calibrd.Lib Calibrd.Protocol

variable {K : Type}

inductive Event (K : Type) where
  | requested (account : Protocol.AccountName) (new_owner_authority : Authority K) (time id : ℕ)
  | cancelled (account : Protocol.AccountName)
  /-- The authority was the owner authority of the account until an update or a recovery. -/
  | replaced (account : Protocol.AccountName) (owner : Authority K) (time : ℕ)
  /-- The request with this id was confirmed. -/
  | recovered (account : Protocol.AccountName) (time id : ℕ)
deriving DecidableEq

/-- The request for an account that was neither cancelled nor confirmed, the newest event first. -/
def pendingRequest (a : Protocol.AccountName) : List (Event K) → Option (Authority K × ℕ)
  | [] => none
  | .requested b auth t _ :: rest => if b = a then some (auth, t) else pendingRequest a rest
  | .cancelled b :: rest => if b = a then none else pendingRequest a rest
  | .recovered b _ _ :: rest => if b = a then none else pendingRequest a rest
  | .replaced _ _ _ :: rest => pendingRequest a rest

/-- The time of the last recovery of an account. -/
def lastRecovery (a : Protocol.AccountName) : List (Event K) → ℕ
  | [] => 0
  | .recovered b t _ :: rest => if b = a then t else lastRecovery a rest
  | _ :: rest => lastRecovery a rest

/-- The requests that were confirmed. -/
def confirmed (log : List (Event K)) : List ℕ :=
  log.filterMap fun
    | .recovered _ _ id => some id
    | _ => none

/-- The events of a call that is accepted. -/
def Call.events (s : State K) : Call K → List (Event K)
  | .account_update o =>
    match o.owner, s.accounts.find? o.account with
    | some _, some account => [.replaced o.account account.owner s.head_block_time]
    | _, _ => []
  | .request_account_recovery o =>
    match s.recovery_requests.find? o.account_to_recover with
    | none =>
      [.requested o.account_to_recover o.new_owner_authority s.head_block_time s.next_request_id]
    | some request =>
      if o.new_owner_authority.weight_threshold = 0 then [.cancelled o.account_to_recover]
      else [.requested o.account_to_recover o.new_owner_authority s.head_block_time request.id]
  | .recover_account o =>
    match s.accounts.find? o.account_to_recover, s.recovery_requests.find? o.account_to_recover with
    | some account, some request =>
      [.recovered o.account_to_recover s.head_block_time request.id,
        .replaced o.account_to_recover account.owner s.head_block_time]
    | _, _ => []
  | _ => []

structure Trace (K : Type) where
  state : State K
  log : List (Event K) := []

def Trace.perform [DecidableEq K] (t : Trace K) (c : Call K) : Result (Trace K) := do
  let s ← t.state.perform c
  .ok ⟨s, c.events t.state ++ t.log⟩

variable {a : Protocol.AccountName} {account : Account K} {c : Call K}

theorem Trace.perform_eq_ok [DecidableEq K] {t t' : Trace K} :
    t.perform c = .ok t' ↔ t.state.perform c = .ok t'.state ∧ t'.log = c.events t.state ++ t.log := by
  rw [Trace.perform, bind_ok]
  constructor
  · rintro ⟨s, hs, h⟩
    cases h
    exact ⟨hs, rfl⟩
  · rintro ⟨hs, hlog⟩
    refine ⟨t'.state, hs, ?_⟩
    rw [← hlog]

/-! ## What the calls do -/

/-- The history is kept where the call replaces an owner authority, and only updates and recoveries
replace one where it is kept. -/
def Call.tracked (s : State K) : Call K → Bool
  | .account_update o =>
    o.owner.isNone || STEEMIT_OWNER_AUTH_HISTORY_TRACKING_START_BLOCK_NUM ≤ s.head_block_num
  | .recover_account _ => STEEMIT_OWNER_AUTH_HISTORY_TRACKING_START_BLOCK_NUM ≤ s.head_block_num
  | .apply_hardfork_0_9 _ _ =>
    s.head_block_num < STEEMIT_OWNER_AUTH_HISTORY_TRACKING_START_BLOCK_NUM
  | _ => true

/-- What a call that is accepted does, with its events. Where it is `tracked`, the history goes along. -/
inductive Effect (s : State K) (tracked : Bool) : List (Event K) → State K → Prop
  | quiet {top_witness change_requests} :
    Effect s tracked [] { s with top_witness, change_requests }
  | created {name account} (hnew : s.accounts.find? name = none)
      (hnever : account.last_account_recovery = 0) :
    Effect s tracked [] { s with accounts := s.accounts.insert name account }
  | replaced {name account} (haccount : s.accounts.find? name = some account) (owner : Authority K)
      (hkept : tracked = true →
        STEEMIT_OWNER_AUTH_HISTORY_TRACKING_START_BLOCK_NUM ≤ s.head_block_num) :
    Effect s tracked [.replaced name account.owner s.head_block_time]
      (s.update_owner_authority name account owner)
  | requested {name id next_request_id} (hname : s.accounts.contains name = true)
      (auth : Authority K)
      (hid : (id = s.next_request_id ∧ next_request_id = s.next_request_id + 1) ∨
        ((∃ r, s.recovery_requests.find? name = some r ∧ r.id = id) ∧
          next_request_id = s.next_request_id)) :
    Effect s tracked [.requested name auth s.head_block_time id]
      { s with
        recovery_requests := s.recovery_requests.insert name
          ⟨id, auth, s.head_block_time + STEEMIT_ACCOUNT_RECOVERY_REQUEST_EXPIRATION_PERIOD⟩
        next_request_id }
  | cancelled (name) : Effect s tracked [.cancelled name]
      { s with recovery_requests := s.recovery_requests.erase name }
  | recovered {name account request} (haccount : s.accounts.find? name = some account)
      (hrequest : s.recovery_requests.find? name = some request) (auth : Authority K)
      (hkept : tracked = true →
        STEEMIT_OWNER_AUTH_HISTORY_TRACKING_START_BLOCK_NUM ≤ s.head_block_num) :
    Effect s tracked [.recovered name s.head_block_time request.id,
      .replaced name account.owner s.head_block_time] (s.recovered name account auth)
  | ended {timestamp s'} (hb : EndOfBlock s timestamp s') : Effect s tracked [] s'
  | hardfork (compromised : List Protocol.AccountName) (auth : Authority K) (hlow : tracked = true →
        s.head_block_num < STEEMIT_OWNER_AUTH_HISTORY_TRACKING_START_BLOCK_NUM) :
    Effect s tracked [] (s.apply_hardfork_0_9 compromised auth)

theorem Effect.time_lt {s s' : State K} {tracked : Bool} {events : List (Event K)}
    (h : Effect s tracked events s') (ht : s.head_block_time < TIME_LIMIT) :
    s'.head_block_time < TIME_LIMIT := by
  cases h with
  | ended hb => exact hb.head_block_time.trans_lt hb.bounded
  | hardfork compromised auth =>
    exact apply_hardfork_0_9_rule (P := fun s => s.head_block_time < TIME_LIMIT)
      (fun hP _ => hP) ht
  | quiet | created | replaced | requested | cancelled | recovered => exact ht

section Effects

variable {s s' : State K}

theorem account_update_effect {o : AccountUpdate K} (h : s.account_update o = .ok s') :
    Effect s (Call.tracked s (.account_update o)) (Call.events s (.account_update o)) s' := by
  replace h := ok_of_check h
  replace h := ok_of_check h
  replace h := ok_of_check h
  obtain ⟨account, haccount, h⟩ := bind_ok.1 h
  rw [State.get_account_eq_ok] at haccount
  obtain ⟨s1, hs1, h⟩ := bind_ok.1 h
  obtain ⟨_, -, h⟩ := bind_ok.1 h
  obtain ⟨_, -, h⟩ := bind_ok.1 h
  cases h
  rw [Call.events, Call.tracked]
  cases howner : o.owner with
  | none =>
    rw [howner] at hs1
    cases hs1
    exact .quiet
  | some owner =>
    rw [howner] at hs1
    replace hs1 := ok_of_check hs1
    obtain ⟨_, -, hs1⟩ := bind_ok.1 hs1
    cases hs1
    rw [haccount]
    exact .replaced haccount owner of_decide_eq_true

/-- A request is created, cancelled or changed. -/
theorem request_account_recovery_effect {o : RequestAccountRecovery K} {tracked : Bool}
    (h : s.request_account_recovery o = .ok s') :
    Effect s tracked (Call.events s (.request_account_recovery o)) s' := by
  obtain ⟨_, -, h⟩ := bind_ok.1 h
  obtain ⟨account, haccount, h⟩ := bind_ok.1 h
  obtain ⟨_, -, h⟩ := bind_ok.1 h
  have hname : s.accounts.contains o.account_to_recover = true :=
    (OrdMap.contains_iff _ _).2 ⟨account, State.get_account_eq_ok.1 haccount⟩
  dsimp only at h
  rw [Call.events]
  cases hrequest : s.recovery_requests.find? o.account_to_recover with
  | none =>
    rw [hrequest] at h
    replace h := ok_of_check h
    replace h := ok_of_check h
    obtain ⟨_, -, h⟩ := bind_ok.1 h
    cases h
    exact .requested hname _ (.inl ⟨rfl, rfl⟩)
  | some request =>
    rw [hrequest] at h
    dsimp only at h ⊢
    split at h
    · next hopen =>
      cases h
      rw [if_pos hopen]
      exact .cancelled _
    · next hopen =>
      replace h := ok_of_check h
      obtain ⟨_, -, h⟩ := bind_ok.1 h
      cases h
      rw [if_neg hopen]
      exact .requested hname _ (.inr ⟨⟨request, hrequest, rfl⟩, rfl⟩)

theorem Call.effect [DecidableEq K] (hs : s.perform c = .ok s') :
    Effect s (c.tracked s) (c.events s) s' := by
  cases c with
  | new_account name owner recovery_account =>
    obtain ⟨hnew, rfl⟩ := new_account_eq_ok hs
    exact .created hnew rfl
  | account_update o => exact account_update_effect hs
  | request_account_recovery o => exact request_account_recovery_effect hs
  | recover_account o =>
    obtain ⟨-, account, request, haccount, -, hrequest, -, -, rfl⟩ := recover_account_eq_ok.1 hs
    rw [Call.events, haccount, hrequest]
    exact .recovered haccount hrequest _ of_decide_eq_true
  | change_recovery_account o =>
    obtain ⟨_, rfl⟩ := change_recovery_account_eq_ok hs
    exact .quiet
  | elect top_witness =>
    cases hs
    exact .quiet
  | end_block timestamp => exact .ended (end_block_eq_ok hs)
  | apply_hardfork_0_9 compromised auth =>
    cases hs
    exact .hardfork compromised auth of_decide_eq_true

end Effects

/-! ## The requests -/

/-- The requests of the state are the open requests of the log that have not expired. -/
structure RequestsTracked (s : State K) (log : List (Event K)) : Prop where
  request_iff : ∀ a auth expires, (∃ id, s.recovery_requests.find? a = some ⟨id, auth, expires⟩) ↔
    ∃ t, pendingRequest a log = some (auth, t) ∧
      expires = t + STEEMIT_ACCOUNT_RECOVERY_REQUEST_EXPIRATION_PERIOD ∧ s.head_block_time < expires
  recovery : ∀ a, s.lastRecovery a = lastRecovery a log
  known : ∀ a, s.recovery_requests.contains a = true → s.accounts.contains a = true

section Requests

variable {s s' : State K} {log log' : List (Event K)}

variable (h : RequestsTracked s log) {auth : Authority K}

include h

/-- Requests, time and events on requests stay as they are. -/
theorem RequestsTracked.of_same (hsame : SameAccounts s s')
    (hrequests : s'.recovery_requests = s.recovery_requests)
    (htime : s'.head_block_time = s.head_block_time)
    (hpending : ∀ a, pendingRequest a log' = pendingRequest a log)
    (hlast : ∀ a, lastRecovery a log' = lastRecovery a log) : RequestsTracked s' log' where
  request_iff a auth expires := by
    rw [hrequests, htime, hpending]
    exact h.request_iff a auth expires
  recovery a := by rw [hsame.lastRecovery, hlast, h.recovery]
  known a ha := by
    rw [hrequests] at ha
    rw [hsame.contains]
    exact h.known a ha

theorem RequestsTracked.request {id next_request_id : ℕ} (ha : s.accounts.contains a = true) :
    RequestsTracked
      { s with
        recovery_requests := s.recovery_requests.insert a
          ⟨id, auth, s.head_block_time + STEEMIT_ACCOUNT_RECOVERY_REQUEST_EXPIRATION_PERIOD⟩
        next_request_id }
      (.requested a auth s.head_block_time id :: log) where
  request_iff b auth' expires := by
    dsimp only [pendingRequest]
    by_cases hb : a = b
    · subst hb
      rw [OrdMap.find?_insert_self, if_pos rfl]
      constructor
      · rintro ⟨_, heq⟩
        cases heq
        exact ⟨_, rfl, rfl, Nat.lt_add_of_pos_right (by decide)⟩
      · rintro ⟨t, heq, rfl, -⟩
        cases heq
        exact ⟨_, rfl⟩
    · rw [OrdMap.find?_insert_ne _ _ hb, if_neg hb]
      exact h.request_iff b auth' expires
  recovery := h.recovery
  known b hb := by
    by_cases hab : a = b
    · exact hab ▸ ha
    · dsimp only at hb
      rw [OrdMap.contains, OrdMap.find?_insert_ne _ _ hab] at hb
      exact h.known b hb

/-- A request is removed, by an event that closes it. -/
theorem RequestsTracked.remove (hcontains : ∀ b, s'.accounts.contains b = s.accounts.contains b)
    (htime : s'.head_block_time = s.head_block_time)
    (hs' : s'.recovery_requests = s.recovery_requests.erase a)
    (hpending : ∀ b, pendingRequest b log' = if a = b then none else pendingRequest b log)
    (hlast : ∀ b, s'.lastRecovery b = lastRecovery b log') : RequestsTracked s' log' where
  request_iff b auth expires := by
    rw [hs', htime, hpending, OrdMap.find?_erase]
    by_cases hb : a = b
    · rw [if_pos hb, if_pos hb]
      exact iff_of_false nofun nofun
    · rw [if_neg hb, if_neg hb]
      exact h.request_iff b auth expires
  recovery := hlast
  known b hb := by
    rw [hs', OrdMap.contains_iff] at hb
    obtain ⟨r, hr⟩ := hb
    rw [hcontains]
    exact h.known b ((OrdMap.contains_iff _ _).2 ⟨r, OrdMap.find?_of_erase hr⟩)

theorem RequestsTracked.endBlock {timestamp : ℕ}
    (hb : EndOfBlock s timestamp s') : RequestsTracked s' log where
  request_iff a auth expires := by
    have hiff := h.request_iff a auth expires
    have hlater := hb.later
    rw [hb.head_block_time]
    constructor
    · rintro ⟨id, hid⟩
      obtain ⟨hid, hlt⟩ := (hb.recovery_requests a _).1 hid
      obtain ⟨t, ht, hexpires, -⟩ := hiff.1 ⟨id, hid⟩
      exact ⟨t, ht, hexpires, hlt⟩
    · rintro ⟨t, ht, hexpires, hlt⟩
      obtain ⟨id, hid⟩ := hiff.2 ⟨t, ht, hexpires, by omega⟩
      exact ⟨id, (hb.recovery_requests a _).2 ⟨hid, hlt⟩⟩
  recovery a := (hb.accounts.lastRecovery a).trans (h.recovery a)
  known a ha := by
    obtain ⟨r, hr⟩ := (OrdMap.contains_iff _ _).1 ha
    rw [hb.accounts.contains]
    exact h.known a ((OrdMap.contains_iff _ _).2 ⟨r, ((hb.recovery_requests a r).1 hr).1⟩)

/-- A recovery closes the request and is the last one. -/
theorem RequestsTracked.recover {id : ℕ} (haccount : s.accounts.find? a = some account) :
    RequestsTracked (s.recovered a account auth)
      (.recovered a s.head_block_time id :: .replaced a account.owner s.head_block_time :: log) := by
  refine h.remove (fun b => ?_) rfl rfl (fun b => rfl) fun b => ?_
  · exact OrdMap.keep_insert Option.isSome (haccount ▸ rfl) b
  · rw [State.lastRecovery, State.recovered, State.update_owner_authority, lastRecovery]
    by_cases hb : a = b
    · subst hb
      rw [OrdMap.find?_insert_self, if_pos rfl]
      rfl
    · rw [OrdMap.find?_insert_ne _ _ hb, if_neg hb]
      exact h.recovery b

theorem RequestsTracked.step {tracked : Bool} {events : List (Event K)}
    (hs : Effect s tracked events s') : RequestsTracked s' (events ++ log) := by
  cases hs with
  | quiet => exact h.of_same (.of_eq rfl) rfl rfl (fun _ => rfl) fun _ => rfl
  | created hnew hnever =>
    -- a new account was not recovered before
    exact ⟨h.request_iff,
      fun a => (OrdMap.keep_insert (·.elim 0 _) (hnew ▸ hnever) a).trans (h.recovery a),
      fun a ha => OrdMap.keysLe_insert _ _ _ a (h.known a ha)⟩
  | replaced haccount owner =>
    exact h.of_same (sameAccounts_update haccount owner) rfl rfl (fun _ => rfl) fun _ => rfl
  | requested hname auth => exact h.request hname
  | cancelled name => exact h.remove (fun _ => rfl) rfl rfl (fun b => rfl) h.recovery
  | recovered haccount => exact h.recover haccount
  | ended hb => exact h.endBlock hb
  | hardfork compromised auth =>
    exact apply_hardfork_0_9_rule (P := (RequestsTracked · log)) (fun h haccount =>
      h.of_same (sameAccounts_update haccount _) rfl rfl (fun _ => rfl) fun _ => rfl) h

end Requests

/-! ## The history -/

/-- The history of the state holds the authorities that were replaced within the recovery period. -/
structure HistoryTracked (s : State K) (log : List (Event K)) : Prop where
  sorted : s.owner_history.Pairwise fun hist hist' => hist.last_valid_time ≤ hist'.last_valid_time
  past : ∀ hist ∈ s.owner_history, hist.last_valid_time ≤ s.head_block_time
  mem_iff : ∀ a auth t, ⟨a, auth, t⟩ ∈ s.owner_history ↔
    .replaced a auth t ∈ log ∧ s.head_block_time ≤ t + STEEMIT_OWNER_AUTH_RECOVERY_PERIOD

/-- Entries behind the first recent one are recent too. -/
theorem mem_dropWhile_old {l : List (OwnerHistory K)} {p now : ℕ} {hist : OwnerHistory K}
    (hl : l.Pairwise fun hist hist' => hist.last_valid_time ≤ hist'.last_valid_time) :
    hist ∈ (l.dropWhile fun hist => hist.last_valid_time + p < now) ↔
      hist ∈ l ∧ now ≤ hist.last_valid_time + p := by
  induction l with
  | nil => simp
  | cons first rest ih =>
    rw [List.pairwise_cons] at hl
    by_cases hold : first.last_valid_time + p < now
    · rw [List.dropWhile_cons, if_pos (decide_eq_true hold), ih hl.2, List.mem_cons]
      constructor
      · exact fun ⟨hmem, hnow⟩ => ⟨.inr hmem, hnow⟩
      · rintro ⟨rfl | hmem, hnow⟩
        · omega
        · exact ⟨hmem, hnow⟩
    · rw [List.dropWhile_cons, if_neg (by simpa using hold)]
      refine ⟨fun hmem => ⟨hmem, ?_⟩, fun h => h.1⟩
      rcases List.mem_cons.1 hmem with rfl | hmem
      · omega
      · have := hl.1 hist hmem
        omega

section History

variable {s s' : State K} {log log' : List (Event K)}

theorem HistoryTracked.of_same (h : HistoryTracked s log)
    (hhistory : s'.owner_history = s.owner_history) (htime : s'.head_block_time = s.head_block_time)
    (hlog : ∀ a auth t, .replaced a auth t ∈ log' ↔ .replaced a auth t ∈ log) :
    HistoryTracked s' log' where
  sorted := hhistory ▸ h.sorted
  past := by
    rw [hhistory, htime]
    exact h.past
  mem_iff a auth t := by
    rw [hhistory, htime, hlog]
    exact h.mem_iff a auth t

theorem HistoryTracked.replace (h : HistoryTracked s log) {owner : Authority K}
    (htime : s'.head_block_time = s.head_block_time)
    (hs' : s'.owner_history = s.owner_history ++ [⟨a, owner, s.head_block_time⟩])
    (hlog : ∀ b auth t, .replaced b auth t ∈ log' ↔
      (b = a ∧ auth = owner ∧ t = s.head_block_time) ∨ .replaced b auth t ∈ log) :
    HistoryTracked s' log' where
  sorted := by
    rw [hs', List.pairwise_append]
    refine ⟨h.sorted, List.pairwise_singleton _ _, fun hist hhist hist' hhist' => ?_⟩
    rw [List.mem_singleton.1 hhist']
    exact h.past hist hhist
  past := by
    rw [hs', htime]
    exact List.forall_mem_append.2 ⟨h.past, List.forall_mem_singleton.2 le_rfl⟩
  mem_iff b auth t := by
    rw [hs', htime, hlog, List.mem_append, h.mem_iff, List.mem_singleton, OwnerHistory.mk.injEq]
    constructor
    · rintro (⟨hmem, ht⟩ | ⟨rfl, rfl, rfl⟩)
      · exact ⟨.inr hmem, ht⟩
      · exact ⟨.inl ⟨rfl, rfl, rfl⟩, Nat.le_add_right _ _⟩
    · rintro ⟨heq | hmem, ht⟩
      · exact .inr heq
      · exact .inl ⟨hmem, ht⟩

theorem HistoryTracked.endBlock (h : HistoryTracked s log) {timestamp : ℕ}
    (hb : EndOfBlock s timestamp s') : HistoryTracked s' log where
  sorted := by
    rw [hb.owner_history]
    exact h.sorted.sublist (List.dropWhile_sublist _)
  past hist hhist := by
    rw [hb.owner_history] at hhist
    rw [hb.head_block_time]
    exact (h.past hist ((List.dropWhile_sublist _).mem hhist)).trans hb.later.le
  mem_iff a auth t := by
    have hlater := hb.later
    rw [hb.owner_history, hb.head_block_time, mem_dropWhile_old h.sorted, h.mem_iff]
    constructor
    · exact fun ⟨hmem, ht⟩ => ⟨hmem.1, ht⟩
    · exact fun ⟨hmem, ht⟩ => ⟨⟨hmem, by omega⟩, ht⟩

theorem update_owner_authority_history {name : Protocol.AccountName} {owner : Authority K}
    (hkept : STEEMIT_OWNER_AUTH_HISTORY_TRACKING_START_BLOCK_NUM ≤ s.head_block_num) :
    (s.update_owner_authority name account owner).owner_history =
      s.owner_history ++ [⟨name, account.owner, s.head_block_time⟩] :=
  if_pos hkept

theorem HistoryTracked.step (h : HistoryTracked s log) {tracked : Bool} {events : List (Event K)}
    (hc : tracked = true) (hs : Effect s tracked events s') : HistoryTracked s' (events ++ log) := by
  cases hs with
  | quiet | created => exact h.of_same rfl rfl fun _ _ _ => Iff.rfl
  | replaced _ _ hkept =>
    exact h.replace rfl (update_owner_authority_history (hkept hc)) fun b auth t => by simp
  | requested | cancelled => exact h.of_same rfl rfl fun _ _ _ => by simp
  | recovered _ _ _ hkept =>
    exact h.replace rfl (update_owner_authority_history (hkept hc)) fun b auth t => by simp
  | ended hb => exact h.endBlock hb
  | hardfork compromised auth hlow =>
    rw [apply_hardfork_0_9_same (hlow hc)]
    exact h.of_same rfl rfl fun _ _ _ => Iff.rfl

end History

/-! ## Confirmations -/

/-- Ids of requests are not used again, and a confirmed request is gone. -/
structure IdsFresh (s : State K) (log : List (Event K)) : Prop where
  lt : ∀ a r, s.recovery_requests.find? a = some r → r.id < s.next_request_id
  inj : ∀ a b r r', s.recovery_requests.find? a = some r → s.recovery_requests.find? b = some r' →
    r.id = r'.id → a = b
  confirmed_lt : ∀ id ∈ confirmed log, id < s.next_request_id
  not_confirmed : ∀ a r, s.recovery_requests.find? a = some r → r.id ∉ confirmed log
  nodup : (confirmed log).Nodup

section Ids

variable {s s' : State K} {log log' : List (Event K)}

theorem IdsFresh.of_subset (h : IdsFresh s log)
    (hsub : ∀ a r, s'.recovery_requests.find? a = some r → s.recovery_requests.find? a = some r)
    (hnext : s'.next_request_id = s.next_request_id) (hlog : confirmed log' = confirmed log) :
    IdsFresh s' log' where
  lt a r hr := hnext ▸ h.lt a r (hsub a r hr)
  inj a b r r' hr hr' := h.inj a b r r' (hsub a r hr) (hsub b r' hr')
  confirmed_lt := by
    rw [hnext, hlog]
    exact h.confirmed_lt
  not_confirmed a r hr := hlog ▸ h.not_confirmed a r (hsub a r hr)
  nodup := hlog ▸ h.nodup

theorem IdsFresh.of_eq (h : IdsFresh s log) (hrequests : s'.recovery_requests = s.recovery_requests)
    (hnext : s'.next_request_id = s.next_request_id) (hlog : confirmed log' = confirmed log) :
    IdsFresh s' log' :=
  h.of_subset (fun _ _ hr => hrequests ▸ hr) hnext hlog

/-- A request that is new or takes the place of one with its id. -/
theorem IdsFresh.request (h : IdsFresh s log) {request : RecoveryRequest K} {auth : Authority K}
    {time id next_request_id : ℕ}
    (hid : (request.id = s.next_request_id ∧ next_request_id = s.next_request_id + 1) ∨
      ((∃ r, s.recovery_requests.find? a = some r ∧ r.id = request.id) ∧
        next_request_id = s.next_request_id)) :
    IdsFresh
      { s with recovery_requests := s.recovery_requests.insert a request, next_request_id }
      (.requested a auth time id :: log) := by
  have hcases : ∀ b r, (s.recovery_requests.insert a request).find? b = some r →
      (b = a ∧ r = request) ∨ (b ≠ a ∧ s.recovery_requests.find? b = some r) := by
    intro b r hr
    by_cases hb : a = b
    · subst hb
      rw [OrdMap.find?_insert_self, Option.some.injEq] at hr
      exact .inl ⟨rfl, hr.symm⟩
    · rw [OrdMap.find?_insert_ne _ _ hb] at hr
      exact .inr ⟨Ne.symm hb, hr⟩
  -- the id of the request is not that of another one
  have hother : ∀ b r, b ≠ a → s.recovery_requests.find? b = some r → r.id ≠ request.id := by
    intro b r hb hr heq
    rcases hid with ⟨hnew, -⟩ | ⟨⟨r', hr', hsame⟩, -⟩
    · have := h.lt b r hr
      omega
    · exact hb (h.inj b a r r' hr hr' (heq.trans hsame.symm))
  have hnext : s.next_request_id ≤ next_request_id ∧ request.id < next_request_id ∧
      request.id ∉ confirmed log := by
    rcases hid with ⟨hnew, hnext⟩ | ⟨⟨r, hr, hsame⟩, hnext⟩
    · refine ⟨by omega, by omega, fun hmem => ?_⟩
      have := h.confirmed_lt _ hmem
      omega
    · have := h.lt a r hr
      exact ⟨hnext.ge, by omega, hsame ▸ h.not_confirmed a r hr⟩
  refine ⟨fun b r hr => ?_, fun b c r r' hr hr' heq => ?_,
    fun id hid => (h.confirmed_lt id hid).trans_le hnext.1, fun b r hr => ?_, h.nodup⟩
  · rcases hcases b r hr with ⟨-, rfl⟩ | ⟨-, hr⟩
    · exact hnext.2.1
    · exact (h.lt b r hr).trans_le hnext.1
  · rcases hcases b r hr with ⟨rfl, rfl⟩ | ⟨hb, hold⟩
    · rcases hcases c r' hr' with ⟨rfl, -⟩ | ⟨hc, hold⟩
      · rfl
      · exact absurd heq.symm (hother c r' hc hold)
    · rcases hcases c r' hr' with ⟨rfl, rfl⟩ | ⟨hc, hold'⟩
      · exact absurd heq (hother b r hb hold)
      · exact h.inj b c r r' hold hold' heq
  · rcases hcases b r hr with ⟨-, rfl⟩ | ⟨-, hr⟩
    · exact hnext.2.2
    · exact h.not_confirmed b r hr

theorem IdsFresh.confirm (h : IdsFresh s log) {request : RecoveryRequest K}
    (hrequest : s.recovery_requests.find? a = some request)
    (hs' : s'.recovery_requests = s.recovery_requests.erase a)
    (hnext : s'.next_request_id = s.next_request_id)
    (hlog : confirmed log' = request.id :: confirmed log) : IdsFresh s' log' := by
  have hfind : ∀ b r, s'.recovery_requests.find? b = some r →
      b ≠ a ∧ s.recovery_requests.find? b = some r := by
    intro b r hr
    rw [hs', OrdMap.find?_erase] at hr
    split at hr
    · cases hr
    · next hne => exact ⟨fun heq => hne heq.symm, hr⟩
  have hleft : IdsFresh s' log :=
    h.of_subset (fun b r hr => (hfind b r hr).2) hnext rfl
  refine ⟨hleft.lt, hleft.inj, ?_, fun b r hr hmem => ?_, ?_⟩
  · rw [hlog]
    exact List.forall_mem_cons.2 ⟨hnext ▸ h.lt a request hrequest, hleft.confirmed_lt⟩
  · rw [hlog] at hmem
    rcases List.mem_cons.1 hmem with heq | hmem
    · exact (hfind b r hr).1 (h.inj b a r request (hfind b r hr).2 hrequest heq)
    · exact hleft.not_confirmed b r hr hmem
  · rw [hlog]
    exact List.nodup_cons.2 ⟨h.not_confirmed a request hrequest, h.nodup⟩

theorem IdsFresh.step (h : IdsFresh s log) {tracked : Bool} {events : List (Event K)}
    (hs : Effect s tracked events s') : IdsFresh s' (events ++ log) := by
  cases hs with
  | quiet | created | replaced => exact h.of_eq rfl rfl rfl
  | requested _ _ hid =>
    refine h.request ?_
    exact hid
  | cancelled name => exact h.of_subset (fun _ _ => OrdMap.find?_of_erase) rfl rfl
  | recovered _ hrequest => exact h.confirm hrequest rfl rfl rfl
  | ended hb =>
    exact h.of_subset (fun a r hr => ((hb.recovery_requests a r).1 hr).1) hb.next_request_id rfl
  | hardfork compromised auth =>
    exact apply_hardfork_0_9_rule (P := (IdsFresh · log)) (fun h _ => h.of_eq rfl rfl rfl) h

end Ids

/-! ## Runs -/

section Runs

variable [DecidableEq K] {t : Trace K} {calls : List (Call K)}

/-- A chain before its first block. -/
def genesis (K : Type) (top_witness : Protocol.AccountName) : Trace K := ⟨{ top_witness }, []⟩

variable (w : Protocol.AccountName)

theorem run_requestsTracked (calls : List (Call K)) :
    RequestsTracked (runCalls Trace.perform (genesis K w) calls).state
      (runCalls Trace.perform (genesis K w) calls).log := by
  refine runCalls_rule_all (P := fun t : Trace K => RequestsTracked t.state t.log) (fun h hs => ?_) ?_ calls
  · obtain ⟨hs, hlog⟩ := Trace.perform_eq_ok.1 hs
    rw [hlog]
    exact h.step (Call.effect hs)
  · exact ⟨fun a auth expires => ⟨nofun, nofun⟩, fun _ => rfl, nofun⟩

/-- No sum of a time and a period wraps. -/
theorem run_add_period_lt (calls : List (Call K)) {period : ℕ}
    (hperiod : period ≤ 60 * 60 * 24 * 30) :
    (runCalls Trace.perform (genesis K w) calls).state.head_block_time + period < 2 ^ 32 := by
  have hgenesis : STEEMIT_GENESIS_TIME < TIME_LIMIT := by decide
  refine add_period_lt (runCalls_rule_all
    (P := fun t : Trace K => t.state.head_block_time < TIME_LIMIT) (fun ht hs => ?_) hgenesis calls)
    hperiod
  obtain ⟨hs, -⟩ := Trace.perform_eq_ok.1 hs
  exact (Call.effect hs).time_lt ht

theorem run_idsFresh (calls : List (Call K)) :
    IdsFresh (runCalls Trace.perform (genesis K w) calls).state
      (runCalls Trace.perform (genesis K w) calls).log := by
  refine runCalls_rule_all (P := fun t : Trace K => IdsFresh t.state t.log) (fun h hs => ?_) ?_ calls
  · obtain ⟨hs, hlog⟩ := Trace.perform_eq_ok.1 hs
    rw [hlog]
    exact h.step (Call.effect hs)
  · exact ⟨nofun, nofun, nofun, nofun, List.nodup_nil⟩

theorem run_historyTracked {w : Protocol.AccountName}
    (h : Along Trace.perform (fun t c => c.tracked t.state = true) (genesis K w) calls) :
    HistoryTracked (runCalls Trace.perform (genesis K w) calls).state
      (runCalls Trace.perform (genesis K w) calls).log := by
  refine runCalls_rule (P := fun t : Trace K => HistoryTracked t.state t.log) (fun ht hc hs => ?_) ?_ h
  · obtain ⟨hs, hlog⟩ := Trace.perform_eq_ok.1 hs
    rw [hlog]
    exact ht.step hc (Call.effect hs)
  · exact ⟨List.Pairwise.nil, nofun, fun _ _ _ => iff_of_false nofun nofun⟩

theorem inHistory_iff {s : State K} {auth : Authority K} :
    s.inHistory a auth = true ↔ ∃ t, ⟨a, auth, t⟩ ∈ s.owner_history := by
  rw [State.inHistory, List.any_eq_true]
  constructor
  · rintro ⟨hist, hmem, hauth⟩
    obtain ⟨hin, haccount⟩ := List.mem_filter.1 hmem
    obtain rfl := of_decide_eq_true haccount
    obtain rfl := of_decide_eq_true hauth
    exact ⟨hist.last_valid_time, hin⟩
  · rintro ⟨t, hmem⟩
    exact ⟨_, List.mem_filter.2 ⟨hmem, decide_eq_true rfl⟩, decide_eq_true rfl⟩

/-- In a run that replaces owner authorities only where the history is kept, a recovery for an open
request succeeds exactly if its recent authority was replaced within the recovery period, and no request
is confirmed twice. -/
theorem run_recovery_window {w : Protocol.AccountName} {calls : List (Call K)}
    (hcalls : Along Trace.perform (fun t c => c.tracked t.state = true) (genesis K w) calls)
    (ht : runCalls Trace.perform (genesis K w) calls = t) :
    (∀ (o : RecoverAccount K) (made : ℕ), o.validate = .ok () →
      pendingRequest o.account_to_recover t.log = some (o.new_owner_authority, made) →
      t.state.head_block_time < made + STEEMIT_ACCOUNT_RECOVERY_REQUEST_EXPIRATION_PERIOD →
      lastRecovery o.account_to_recover t.log + STEEMIT_OWNER_UPDATE_LIMIT <
        t.state.head_block_time →
      ((∃ s', t.state.recover_account o = .ok s') ↔
        ∃ time, .replaced o.account_to_recover o.recent_owner_authority time ∈ t.log ∧
          t.state.head_block_time ≤ time + STEEMIT_OWNER_AUTH_RECOVERY_PERIOD)) ∧
    (confirmed t.log).Nodup := by
  subst ht
  have hrequests := run_requestsTracked w calls
  have hhistory := run_historyTracked hcalls
  refine ⟨fun o made hvalid hpending hmade hlast => ?_, (run_idsFresh w calls).nodup⟩
  generalize runCalls Trace.perform (genesis K w) calls = t at hrequests hhistory hpending hmade hlast ⊢
  have hfound : t.state.inHistory o.account_to_recover o.recent_owner_authority = true ↔ _ :=
    inHistory_iff.trans (exists_congr fun time => hhistory.mem_iff _ _ time)
  rw [← hfound]
  constructor
  · rintro ⟨s', hs'⟩
    obtain ⟨-, _, _, -, -, -, -, hin, -⟩ := recover_account_eq_ok.1 hs'
    exact hin
  · intro hin
    obtain ⟨id, hrequest⟩ := (hrequests.request_iff _ _ _).2 ⟨made, hpending, rfl, hmade⟩
    obtain ⟨account, haccount⟩ := (OrdMap.contains_iff _ _).1
      (hrequests.known _ ((OrdMap.contains_iff _ _).2 ⟨_, hrequest⟩))
    rw [← hrequests.recovery, State.lastRecovery, haccount] at hlast
    exact ⟨_, recover_account_eq_ok.2
      ⟨hvalid, account, _, haccount, hlast, hrequest, rfl, hin, rfl⟩⟩

/-! ## A recovery above and below the first tracked block -/

/-- A chain without accounts, history and requests. -/
def quiet (K : Type) (w : Protocol.AccountName) (num time : ℕ) : Trace K :=
  ⟨{ head_block_num := num, head_block_time := time, top_witness := w }, []⟩

/-- Blocks without transactions, every three seconds; irreducible, so that millions stay folded. -/
@[irreducible] def emptyBlocks (K : Type) (time n : ℕ) : List (Call K) :=
  (List.range n).map fun i => .end_block (time + 3 * (i + 1))

theorem perform_emptyBlock (num : ℕ) {time : ℕ} (htime : time + 3 < TIME_LIMIT) :
    (quiet K w num time).perform (.end_block (time + 3)) = .ok (quiet K w (num + 1) (time + 3)) := by
  have hlater : decide (time < time + 3) = true := decide_eq_true (by omega)
  refine Trace.perform_eq_ok.2 ⟨?_, rfl⟩
  exact check_bind_ok.2 ⟨hlater, check_bind_ok.2 ⟨decide_eq_true htime, rfl⟩⟩

theorem runCalls_emptyBlocks (num time n : ℕ) (htime : time + 3 * n < TIME_LIMIT) :
    runCalls Trace.perform (quiet K w num time) (emptyBlocks K time n) =
      quiet K w (num + n) (time + 3 * n) := by
  induction n with
  | zero =>
    rw [emptyBlocks]
    rfl
  | succ n ih =>
    rw [emptyBlocks] at ih ⊢
    rw [List.range_succ, List.map_append, runCalls_append, ih (by omega)]
    exact performCall_of_ok (perform_emptyBlock w (num + n) (by omega))

theorem along_emptyBlocks (t : Trace K) (time n : ℕ) :
    Along Trace.perform (fun t c => c.tracked t.state = true) t (emptyBlocks K time n) := by
  rw [emptyBlocks]
  generalize List.range n = l
  induction l generalizing t with
  | nil => trivial
  | cons i l ih => exact ⟨fun _ => rfl, ih _⟩

theorem runCalls_after_emptyBlocks (n : ℕ) (htime : STEEMIT_GENESIS_TIME + 3 * n < TIME_LIMIT)
    (calls : List (Call K)) :
    runCalls Trace.perform (genesis K w) (emptyBlocks K STEEMIT_GENESIS_TIME n ++ calls) =
      runCalls Trace.perform (quiet K w n (STEEMIT_GENESIS_TIME + 3 * n)) calls := by
  have hempty := runCalls_emptyBlocks (K := K) w 0 STEEMIT_GENESIS_TIME n htime
  rw [Nat.zero_add] at hempty
  rw [runCalls_append, ← hempty]
  rfl

theorem along_after_emptyBlocks {w : Protocol.AccountName} {n : ℕ}
    (htime : STEEMIT_GENESIS_TIME + 3 * n < TIME_LIMIT)
    (h : Along Trace.perform (fun t c => c.tracked t.state = true)
      (quiet K w n (STEEMIT_GENESIS_TIME + 3 * n)) calls) :
    Along Trace.perform (fun t c => c.tracked t.state = true) (genesis K w)
      (emptyBlocks K STEEMIT_GENESIS_TIME n ++ calls) := by
  have hempty := runCalls_after_emptyBlocks (K := K) w n htime []
  rw [List.append_nil] at hempty
  exact along_append.2 ⟨along_emptyBlocks _ _ _, hempty ▸ h⟩

end Runs

def alice : Protocol.AccountName := .ofString (ofAscii "alice")

def bob : Protocol.AccountName := .ofString (ofAscii "bob")

/-- The authority of one key. -/
def keyAuthority (k : ℕ) : Authority ℕ := ⟨1, [], [(k, 1)]⟩

/-- The owner key of `alice` is replaced, and `bob` asks for a third one. -/
def replacedKey : List (Call ℕ) :=
  [.new_account alice (keyAuthority 1) bob, .new_account bob (keyAuthority 9) bob,
    .account_update ⟨alice, some (keyAuthority 2), none, none⟩,
    .request_account_recovery ⟨bob, alice, keyAuthority 3⟩]

/-- The recovery with the first key. -/
def recoverAlice : RecoverAccount ℕ := ⟨alice, keyAuthority 3, keyAuthority 1⟩

/-- With the first tracked block as the head the recovery succeeds. -/
theorem run_recovery_window_tracked :
    Along Trace.perform (fun t c => c.tracked t.state = true) (genesis ℕ bob)
      (emptyBlocks ℕ STEEMIT_GENESIS_TIME STEEMIT_OWNER_AUTH_HISTORY_TRACKING_START_BLOCK_NUM ++
        replacedKey) ∧
    (∃ s', (runCalls Trace.perform (genesis ℕ bob)
      (emptyBlocks ℕ STEEMIT_GENESIS_TIME STEEMIT_OWNER_AUTH_HISTORY_TRACKING_START_BLOCK_NUM ++
        replacedKey)).state.recover_account recoverAlice = .ok s') := by
  have hcalls := along_after_emptyBlocks (by decide) (show Along Trace.perform (fun t c => c.tracked t.state = true)
    (quiet ℕ bob STEEMIT_OWNER_AUTH_HISTORY_TRACKING_START_BLOCK_NUM _) replacedKey by decide +kernel)
  have hrun := runCalls_after_emptyBlocks bob
    STEEMIT_OWNER_AUTH_HISTORY_TRACKING_START_BLOCK_NUM (by decide) replacedKey
  have hwindow := (run_recovery_window hcalls hrun).1 recoverAlice 1468394631 (by decide +kernel)
    (by decide +kernel) (by decide +kernel) (by decide +kernel)
  refine ⟨hcalls, ?_⟩
  rw [hrun, hwindow]
  exact ⟨1468394631, by decide +kernel, by decide +kernel⟩

/-- At the first block the same recovery fails, although its recent authority was just replaced. -/
theorem recovery_fails_before_tracking :
    recoverAlice.validate = .ok () ∧
    pendingRequest alice (runCalls Trace.perform (genesis ℕ bob) replacedKey).log =
      some (keyAuthority 3, STEEMIT_GENESIS_TIME) ∧
    (runCalls Trace.perform (genesis ℕ bob) replacedKey).state.head_block_time = STEEMIT_GENESIS_TIME ∧
    lastRecovery alice (runCalls Trace.perform (genesis ℕ bob) replacedKey).log = 0 ∧
    .replaced alice (keyAuthority 1) STEEMIT_GENESIS_TIME ∈
      (runCalls Trace.perform (genesis ℕ bob) replacedKey).log ∧
    ¬ ∃ s', (runCalls Trace.perform (genesis ℕ bob) replacedKey).state.recover_account recoverAlice =
      .ok s' := by
  refine ⟨by decide +kernel, by decide +kernel, by decide +kernel, by decide +kernel,
    by decide +kernel, ?_⟩
  rintro ⟨s', hs'⟩
  have hfails : ((runCalls Trace.perform (genesis ℕ bob) replacedKey).state.recover_account
      recoverAlice).isOk = false := by decide +kernel
  rw [hs'] at hfails
  cases hfails

end Calibrd.Chain.Recovery
