import Calibrd.Chain.Config
import Calibrd.Lib.Runs
import Calibrd.Protocol.Authority

/-!
# Account recovery

Every owner authority that is replaced goes to `owner_authority_history`, with the time until which it
was valid, and stays there for `STEEMIT_OWNER_AUTH_RECOVERY_PERIOD`. The recovery account of an account
requests a new owner authority, and whoever can still sign for an authority of the history confirms the
request. At the end of a block expired requests and old entries are removed. The history starts with
block `STEEMIT_OWNER_AUTH_HISTORY_TRACKING_START_BLOCK_NUM`.

The lemmas at the end say what each step does to the accounts, the history and the requests. Metadata and
memo keys, the active and posting authorities that are stored and the challenges of an account are left
out.
-/

namespace Calibrd.Chain.Recovery

open Calibrd.Lib Calibrd.Protocol

/-- `fc::days( 30 )`. -/
def STEEMIT_OWNER_AUTH_RECOVERY_PERIOD : ℕ := 30 * 24 * 60 * 60

/-- `fc::days( 1 )`. -/
def STEEMIT_ACCOUNT_RECOVERY_REQUEST_EXPIRATION_PERIOD : ℕ := 24 * 60 * 60

/-- `fc::minutes( 60 )`. -/
def STEEMIT_OWNER_UPDATE_LIMIT : ℕ := 60 * 60

def STEEMIT_OWNER_AUTH_HISTORY_TRACKING_START_BLOCK_NUM : ℕ := 3186477

inductive RecoveryError where
  | unknown_account (name : Protocol.AccountName)
  | account_exists
  | invalid_account_name
  | temp_account
  | owner_updated_recently
  | not_the_recovery_account
  | not_the_top_witness
  | impossible_authority
  | open_authority
  | no_request
  | new_authority_does_not_match
  | recent_authority_not_found
  | new_authority_is_recent
  | block_not_later
  | time_limit
deriving DecidableEq

abbrev Result := Except RecoveryError

variable {K : Type}

structure Account (K : Type) where
  owner : Authority K
  last_owner_update : ℕ := 0
  last_account_recovery : ℕ := 0
  recovery_account : Protocol.AccountName

/-- `owner_authority_history_object`. -/
structure OwnerHistory (K : Type) where
  account : Protocol.AccountName
  previous_owner_authority : Authority K
  last_valid_time : ℕ

/-- `account_recovery_request_object`. -/
structure RecoveryRequest (K : Type) where
  id : ℕ
  new_owner_authority : Authority K
  expires : ℕ

/-- `change_recovery_account_request_object`. -/
structure ChangeRequest where
  recovery_account : Protocol.AccountName
  effective_on : ℕ

structure State (K : Type) where
  head_block_num : ℕ := 0
  head_block_time : ℕ := STEEMIT_GENESIS_TIME
  /-- The witness with the most votes. -/
  top_witness : Protocol.AccountName
  accounts : OrdMap Protocol.AccountName (Account K) := .empty
  /-- In the order of their ids. -/
  owner_history : List (OwnerHistory K) := []
  recovery_requests : OrdMap Protocol.AccountName (RecoveryRequest K) := .empty
  next_request_id : ℕ := 0
  change_requests : OrdMap Protocol.AccountName ChangeRequest := .empty

structure AccountUpdate (K : Type) where
  account : Protocol.AccountName
  owner : Option (Authority K)
  active : Option (Authority K)
  posting : Option (Authority K)

structure RequestAccountRecovery (K : Type) where
  recovery_account : Protocol.AccountName
  account_to_recover : Protocol.AccountName
  new_owner_authority : Authority K

structure RecoverAccount (K : Type) where
  account_to_recover : Protocol.AccountName
  new_owner_authority : Authority K
  recent_owner_authority : Authority K

structure ChangeRecoveryAccount where
  account_to_recover : Protocol.AccountName
  new_recovery_account : Protocol.AccountName

def RequestAccountRecovery.validate (o : RequestAccountRecovery K) : Result Unit := do
  check (is_valid_account_name o.recovery_account.toString) .invalid_account_name
  check (is_valid_account_name o.account_to_recover.toString) .invalid_account_name
  check o.new_owner_authority.validate .invalid_account_name

def RecoverAccount.validate [DecidableEq K] (o : RecoverAccount K) : Result Unit := do
  check (is_valid_account_name o.account_to_recover.toString) .invalid_account_name
  check (decide (o.new_owner_authority ≠ o.recent_owner_authority)) .new_authority_is_recent
  check (!o.new_owner_authority.is_impossible) .impossible_authority
  check (!o.recent_owner_authority.is_impossible) .impossible_authority
  check (decide (o.new_owner_authority.weight_threshold ≠ 0)) .open_authority
  check o.new_owner_authority.validate .invalid_account_name
  check o.recent_owner_authority.validate .invalid_account_name

namespace State

variable (s : State K)

def get_account (name : Protocol.AccountName) : Result (Account K) :=
  (s.accounts.find? name).elim (.error (.unknown_account name)) .ok

/-- Every account that the authority names exists. -/
def get_account_auths (auth : Authority K) : Result Unit :=
  auth.account_auths.forM fun e => do
    let _ ← s.get_account e.1

/-- `update_owner_authority`. -/
def update_owner_authority (name : Protocol.AccountName) (account : Account K) (owner_authority : Authority K) :
    State K :=
  { s with
    owner_history :=
      if STEEMIT_OWNER_AUTH_HISTORY_TRACKING_START_BLOCK_NUM ≤ s.head_block_num then
        s.owner_history ++ [⟨name, account.owner, s.head_block_time⟩]
      else s.owner_history
    accounts := s.accounts.insert name
      { account with owner := owner_authority, last_owner_update := s.head_block_time } }

/-- The part of `account_update` for the owner authority, if there is one. -/
def update_owner (name : Protocol.AccountName) (account : Account K) : Option (Authority K) → Result (State K)
  | none => .ok s
  | some owner => do
    check (decide (account.last_owner_update + STEEMIT_OWNER_UPDATE_LIMIT < s.head_block_time))
      .owner_updated_recently
    s.get_account_auths owner
    .ok (s.update_owner_authority name account owner)

def account_update (o : AccountUpdate K) : Result (State K) := do
  check (is_valid_account_name o.account.toString) .invalid_account_name
  check (decide (o.account.toString ≠ ofAscii "temp")) .temp_account
  check (o.posting.all Authority.validate) .invalid_account_name
  let account ← s.get_account o.account
  let s' ← s.update_owner o.account account o.owner
  o.active.forM s'.get_account_auths
  o.posting.forM s'.get_account_auths
  .ok s'

/-- An account without a recovery account is recovered by the top witness. -/
def check_recovery_account (account : Account K) (recovery_account : Protocol.AccountName) : Result Unit :=
  if account.recovery_account.size ≠ 0 then
    check (decide (account.recovery_account = recovery_account)) .not_the_recovery_account
  else check (decide (s.top_witness = recovery_account)) .not_the_top_witness

def request_account_recovery (o : RequestAccountRecovery K) : Result (State K) := do
  o.validate
  let account_to_recover ← s.get_account o.account_to_recover
  s.check_recovery_account account_to_recover o.recovery_account
  let expires := s.head_block_time + STEEMIT_ACCOUNT_RECOVERY_REQUEST_EXPIRATION_PERIOD
  match s.recovery_requests.find? o.account_to_recover with
  | none => do
    check (!o.new_owner_authority.is_impossible) .impossible_authority
    check (decide (o.new_owner_authority.weight_threshold ≠ 0)) .open_authority
    s.get_account_auths o.new_owner_authority
    .ok { s with
      recovery_requests := s.recovery_requests.insert o.account_to_recover
        ⟨s.next_request_id, o.new_owner_authority, expires⟩
      next_request_id := s.next_request_id + 1 }
  | some request =>
    if o.new_owner_authority.weight_threshold = 0 then
      .ok { s with recovery_requests := s.recovery_requests.erase o.account_to_recover }
    else do
      check (!o.new_owner_authority.is_impossible) .impossible_authority
      s.get_account_auths o.new_owner_authority
      .ok { s with
        recovery_requests := s.recovery_requests.insert o.account_to_recover
          { request with new_owner_authority := o.new_owner_authority, expires } }

/-- The search through the entries of the account. -/
def inHistory [DecidableEq K] (account : Protocol.AccountName) (recent_owner_authority : Authority K) : Bool :=
  (s.owner_history.filter fun hist => hist.account = account).any fun hist =>
    hist.previous_owner_authority = recent_owner_authority

def recover_account [DecidableEq K] (o : RecoverAccount K) : Result (State K) := do
  o.validate
  let account ← s.get_account o.account_to_recover
  check (decide (account.last_account_recovery + STEEMIT_OWNER_UPDATE_LIMIT < s.head_block_time))
    .owner_updated_recently
  match s.recovery_requests.find? o.account_to_recover with
  | none => .error .no_request
  | some request => do
    check (decide (request.new_owner_authority = o.new_owner_authority)) .new_authority_does_not_match
    check (s.inHistory o.account_to_recover o.recent_owner_authority) .recent_authority_not_found
    let s := { s with recovery_requests := s.recovery_requests.erase o.account_to_recover }
    .ok (s.update_owner_authority o.account_to_recover
      { account with last_account_recovery := s.head_block_time } o.new_owner_authority)

def change_recovery_account (o : ChangeRecoveryAccount) : Result (State K) := do
  check (is_valid_account_name o.account_to_recover.toString) .invalid_account_name
  check (is_valid_account_name o.new_recovery_account.toString) .invalid_account_name
  let _ ← s.get_account o.new_recovery_account
  let account_to_recover ← s.get_account o.account_to_recover
  let request : ChangeRequest :=
    ⟨o.new_recovery_account, s.head_block_time + STEEMIT_OWNER_AUTH_RECOVERY_PERIOD⟩
  match s.change_requests.find? o.account_to_recover with
  | none => .ok { s with change_requests := s.change_requests.insert o.account_to_recover request }
  | some _ =>
    if account_to_recover.recovery_account ≠ o.new_recovery_account then
      .ok { s with change_requests := s.change_requests.insert o.account_to_recover request }
    else .ok { s with change_requests := s.change_requests.erase o.account_to_recover }

/-- A change of the recovery account takes effect. -/
def applyChange (s : State K) (change_req : Protocol.AccountName × ChangeRequest) : Result (State K) := do
  let account ← s.get_account change_req.1
  .ok { s with
    accounts := s.accounts.insert change_req.1
      { account with recovery_account := change_req.2.recovery_account }
    change_requests := s.change_requests.erase change_req.1 }

def account_recovery_processing : Result (State K) :=
  let expired := (s.recovery_requests.rows.filter fun r => r.2.expires ≤ s.head_block_time).map Prod.fst
  let due := s.change_requests.rows.filter fun r => r.2.effective_on ≤ s.head_block_time
  due.foldlM applyChange
    { s with
      recovery_requests := expired.foldl OrdMap.erase s.recovery_requests
      owner_history := s.owner_history.dropWhile fun hist =>
        hist.last_valid_time + STEEMIT_OWNER_AUTH_RECOVERY_PERIOD < s.head_block_time }

/-- The end of a block with this time stamp. -/
def end_block (timestamp : ℕ) : Result (State K) := do
  check (decide (s.head_block_time < timestamp)) .block_not_later
  check (decide (timestamp < TIME_LIMIT)) .time_limit
  account_recovery_processing
    { s with head_block_num := s.head_block_num + 1, head_block_time := timestamp }

/-- Hardfork 9 replaces the authorities of compromised accounts. -/
def apply_hardfork_0_9 (compromised : List Protocol.AccountName) (auth : Authority K) : State K :=
  compromised.foldl (fun s acc =>
    match s.accounts.find? acc with
    | none => s
    | some account => s.update_owner_authority acc account auth) s

/-- Account creations and proofs of work. -/
def new_account (name : Protocol.AccountName) (owner : Authority K) (recovery_account : Protocol.AccountName) :
    Result (State K) := do
  check (!s.accounts.contains name) .account_exists
  .ok { s with accounts := s.accounts.insert name { owner, recovery_account } }

end State

inductive Call (K : Type) where
  | new_account (name : Protocol.AccountName) (owner : Authority K) (recovery_account : Protocol.AccountName)
  | account_update (o : AccountUpdate K)
  | request_account_recovery (o : RequestAccountRecovery K)
  | recover_account (o : RecoverAccount K)
  | change_recovery_account (o : ChangeRecoveryAccount)
  /-- The votes for witnesses change. -/
  | elect (top_witness : Protocol.AccountName)
  | end_block (timestamp : ℕ)
  | apply_hardfork_0_9 (compromised : List Protocol.AccountName) (auth : Authority K)

def State.perform [DecidableEq K] (s : State K) : Call K → Result (State K)
  | .new_account name owner recovery_account => s.new_account name owner recovery_account
  | .account_update o => s.account_update o
  | .request_account_recovery o => s.request_account_recovery o
  | .recover_account o => s.recover_account o
  | .change_recovery_account o => s.change_recovery_account o
  | .elect top_witness => .ok { s with top_witness }
  | .end_block timestamp => s.end_block timestamp
  | .apply_hardfork_0_9 compromised auth => .ok (s.apply_hardfork_0_9 compromised auth)

/-! ## What the steps do -/

section Steps

variable {s s' : State K}

variable {name : Protocol.AccountName}

theorem State.get_account_eq_ok {account : Account K} :
    s.get_account name = .ok account ↔ s.accounts.find? name = some account := by
  unfold State.get_account
  cases s.accounts.find? name <;> simp

theorem new_account_eq_ok {name recovery_account : Protocol.AccountName} {owner : Authority K}
    (h : s.new_account name owner recovery_account = .ok s') : s.accounts.find? name = none ∧
      s' = { s with accounts := s.accounts.insert name { owner, recovery_account } } := by
  obtain ⟨hnew, h⟩ := check_bind_ok.1 h
  cases h
  rw [Bool.not_eq_true', OrdMap.contains, Option.isSome_eq_false_iff, Option.isNone_iff_eq_none] at hnew
  exact ⟨hnew, rfl⟩

/-- The state after a recovery. -/
def State.recovered (s : State K) (name : Protocol.AccountName) (account : Account K)
    (new_owner_authority : Authority K) : State K :=
  State.update_owner_authority { s with recovery_requests := s.recovery_requests.erase name } name
    { account with last_account_recovery := s.head_block_time } new_owner_authority

theorem recover_account_eq_ok [DecidableEq K] {o : RecoverAccount K} : s.recover_account o = .ok s' ↔
    o.validate = .ok () ∧ ∃ account request,
      s.accounts.find? o.account_to_recover = some account ∧
      account.last_account_recovery + STEEMIT_OWNER_UPDATE_LIMIT < s.head_block_time ∧
      s.recovery_requests.find? o.account_to_recover = some request ∧
      request.new_owner_authority = o.new_owner_authority ∧
      s.inHistory o.account_to_recover o.recent_owner_authority = true ∧
      s' = s.recovered o.account_to_recover account o.new_owner_authority := by
  constructor
  · intro h
    obtain ⟨_, hvalid, h⟩ := bind_ok.1 h
    obtain ⟨account, haccount, h⟩ := bind_ok.1 h
    obtain ⟨hlimit, h⟩ := check_bind_ok.1 h
    split at h
    · cases h
    · next request hrequest =>
      obtain ⟨hnew, h⟩ := check_bind_ok.1 h
      obtain ⟨hhistory, h⟩ := check_bind_ok.1 h
      exact ⟨hvalid, account, request, State.get_account_eq_ok.1 haccount, of_decide_eq_true hlimit,
        hrequest, of_decide_eq_true hnew, hhistory, (Except.ok.inj h).symm⟩
  · rintro ⟨hvalid, account, request, haccount, hlimit, hrequest, hnew, hhistory, rfl⟩
    refine bind_ok.2 ⟨(), hvalid, ?_⟩
    refine bind_ok.2 ⟨account, State.get_account_eq_ok.2 haccount, ?_⟩
    refine check_bind_ok.2 ⟨decide_eq_true hlimit, ?_⟩
    rw [hrequest]
    exact check_bind_ok.2 ⟨decide_eq_true hnew, check_bind_ok.2 ⟨hhistory, rfl⟩⟩

theorem change_recovery_account_eq_ok {o : ChangeRecoveryAccount}
    (h : s.change_recovery_account o = .ok s') : ∃ change_requests, s' = { s with change_requests } := by
  replace h := ok_of_check h
  replace h := ok_of_check h
  obtain ⟨_, -, h⟩ := bind_ok.1 h
  obtain ⟨_, -, h⟩ := bind_ok.1 h
  dsimp only at h
  split at h
  · cases h
    exact ⟨_, rfl⟩
  · split at h
    · cases h
      exact ⟨_, rfl⟩
    · cases h
      exact ⟨_, rfl⟩

/-- When the account was recovered last. -/
def State.lastRecovery (s : State K) (a : Protocol.AccountName) : ℕ :=
  (s.accounts.find? a).elim 0 Account.last_account_recovery

structure SameAccounts (s s' : State K) : Prop where
  contains : ∀ a, s'.accounts.contains a = s.accounts.contains a
  lastRecovery : ∀ a, s'.lastRecovery a = s.lastRecovery a

theorem SameAccounts.of_eq (h : s'.accounts = s.accounts) : SameAccounts s s' :=
  ⟨fun a => by rw [h], fun a => by rw [State.lastRecovery, State.lastRecovery, h]⟩

theorem SameAccounts.trans {s1 s2 s3 : State K} (h : SameAccounts s1 s2) (h' : SameAccounts s2 s3) :
    SameAccounts s1 s3 :=
  ⟨fun a => (h'.contains a).trans (h.contains a), fun a => (h'.lastRecovery a).trans (h.lastRecovery a)⟩

theorem sameAccounts_insert {account account' : Account K}
    (haccount : s.accounts.find? name = some account)
    (hs' : s'.accounts = s.accounts.insert name account')
    (hrecovery : account'.last_account_recovery = account.last_account_recovery) :
    SameAccounts s s' := by
  constructor
  · rw [hs']
    exact OrdMap.keep_insert Option.isSome (haccount ▸ rfl)
  · unfold State.lastRecovery
    rw [hs']
    exact OrdMap.keep_insert (·.elim 0 _) (haccount ▸ hrecovery)

/-- What the end of a block keeps and what it removes. -/
structure EndOfBlock (s : State K) (timestamp : ℕ) (s' : State K) : Prop where
  later : s.head_block_time < timestamp
  bounded : timestamp < TIME_LIMIT
  head_block_num : s'.head_block_num = s.head_block_num + 1
  head_block_time : s'.head_block_time = timestamp
  owner_history : s'.owner_history = s.owner_history.dropWhile fun hist =>
    hist.last_valid_time + STEEMIT_OWNER_AUTH_RECOVERY_PERIOD < timestamp
  recovery_requests : ∀ a r, s'.recovery_requests.find? a = some r ↔
    s.recovery_requests.find? a = some r ∧ timestamp < r.expires
  next_request_id : s'.next_request_id = s.next_request_id
  accounts : SameAccounts s s'

theorem find?_unexpired {m : OrdMap Protocol.AccountName (RecoveryRequest K)} {now : ℕ} {a : Protocol.AccountName}
    {r : RecoveryRequest K} :
    (((m.rows.filter fun r => r.2.expires ≤ now).map Prod.fst).foldl OrdMap.erase m).find? a = some r ↔
      m.find? a = some r ∧ now < r.expires := by
  rw [OrdMap.find?_foldl_erase]
  constructor
  · intro h
    split at h
    · cases h
    · next hmem =>
      refine ⟨h, Nat.lt_of_not_le fun hle => hmem ?_⟩
      exact List.mem_map.2 ⟨(a, r), List.mem_filter.2 ⟨OrdMap.mem_rows.2 h, decide_eq_true hle⟩, rfl⟩
  · rintro ⟨h, hlt⟩
    rw [if_neg, h]
    intro hmem
    obtain ⟨⟨_, r'⟩, hr', rfl⟩ := List.mem_map.1 hmem
    obtain ⟨hrow, hle⟩ := List.mem_filter.1 hr'
    rw [OrdMap.mem_rows, h, Option.some.injEq] at hrow
    subst hrow
    exact absurd (of_decide_eq_true hle) (Nat.not_le.2 hlt)

theorem applyChange_same {change_req : Protocol.AccountName × ChangeRequest}
    (h : s.applyChange change_req = .ok s') :
    SameAccounts s s' ∧ s' = { s with accounts := s'.accounts, change_requests := s'.change_requests } := by
  obtain ⟨account, haccount, h⟩ := bind_ok.1 h
  cases h
  exact ⟨sameAccounts_insert (State.get_account_eq_ok.1 haccount) rfl rfl, rfl⟩

theorem end_block_eq_ok {timestamp : ℕ} (h : s.end_block timestamp = .ok s') :
    EndOfBlock s timestamp s' := by
  obtain ⟨hlater, h⟩ := check_decide_ok.1 h
  obtain ⟨hbounded, h⟩ := check_decide_ok.1 h
  refine foldlM_rule (P := EndOfBlock s timestamp) (fun hb hstep => ?_) ?_ h
  · obtain ⟨hsame, heq⟩ := applyChange_same hstep
    rw [heq]
    exact { hb with accounts := hb.accounts.trans ⟨hsame.contains, hsame.lastRecovery⟩ }
  · exact
      { later := hlater
        bounded := hbounded
        head_block_num := rfl
        head_block_time := rfl
        owner_history := rfl
        recovery_requests := fun a r => find?_unexpired
        next_request_id := rfl
        accounts := .of_eq rfl }

theorem sameAccounts_update {account : Account K} (haccount : s.accounts.find? name = some account)
    (owner : Authority K) :
    SameAccounts s (s.update_owner_authority name account owner) :=
  sameAccounts_insert haccount rfl rfl

theorem apply_hardfork_0_9_rule {compromised : List Protocol.AccountName} {auth : Authority K}
    {P : State K → Prop} (hstep : ∀ {s : State K} {name account}, P s →
      s.accounts.find? name = some account → P (s.update_owner_authority name account auth))
    (h : P s) : P (s.apply_hardfork_0_9 compromised auth) := by
  induction compromised generalizing s with
  | nil => exact h
  | cons acc rest ih =>
    rw [State.apply_hardfork_0_9, List.foldl_cons, ← State.apply_hardfork_0_9]
    split
    · exact ih h
    · next account haccount => exact ih (hstep h haccount)

/-- Below the first tracked block hardfork 9 leaves no trace in the history. -/
theorem apply_hardfork_0_9_same {compromised : List Protocol.AccountName} {auth : Authority K}
    (hlow : s.head_block_num < STEEMIT_OWNER_AUTH_HISTORY_TRACKING_START_BLOCK_NUM) :
    s.apply_hardfork_0_9 compromised auth =
      { s with accounts := (s.apply_hardfork_0_9 compromised auth).accounts } := by
  refine apply_hardfork_0_9_rule (P := fun t => t = { s with accounts := t.accounts })
    (fun {t name account} ht _ => ?_) rfl
  rw [ht, State.update_owner_authority, if_neg (Nat.not_le.2 hlow)]

end Steps

end Calibrd.Chain.Recovery
