import Calibrd.Lib.Check
import Calibrd.Lib.Runs
import Calibrd.Protocol.Transaction

/-!
# Account names in the database

The account table is unique in the storage of its names. Accounts are made by `account_create`,
`account_create_with_delegation`, `pow` and `pow2`, each with the name as it was unpacked, after
`validate` has looked at its string. `names_canonical`: in a run that only makes accounts with
canonical names, no two accounts have the same string, and transactions with canonical names are
those that a node reads back from its own packed blocks.
-/

namespace Calibrd.Chain.Accounts

open Calibrd.Lib Calibrd.Protocol

structure Account where
  balance : ℤ
deriving DecidableEq

structure State where
  accounts : OrdMap Protocol.AccountName Account
  /-- The fee of `median_props`. -/
  account_creation_fee : ℤ
deriving DecidableEq

inductive Error
  | invalidName | negativeFee | unknownAccount | insufficientBalance | insufficientFee | notUnique
  | ownerKey
  /-- An assertion on data that is not part of this state. -/
  | other
deriving DecidableEq

def CREATE_ACCOUNT_WITH_STEEM_MODIFIER : ℤ := 30

def MIN_ACCOUNT_CREATION_FEE : ℤ := 1

def validate_account_name (n : Protocol.AccountName) : Except Error Unit :=
  check (is_valid_account_name n.toString) .invalidName

variable (s : State)

def State.get_account (n : Protocol.AccountName) : Except Error Account :=
  match s.accounts.find? n with
  | some a => .ok a
  | none => .error .unknownAccount

/-- `create< account_object >`, with the uniqueness that the index enforces. -/
def State.create (n : Protocol.AccountName) (a : Account) : Except Error State := do
  check (!s.accounts.contains n) .notUnique
  return { s with accounts := s.accounts.insert n a }

def State.modify (n : Protocol.AccountName) (a : Account) : State :=
  { s with accounts := s.accounts.insert n a }

/-- What the two creating operations share: the fee, the creator, the new name and the account
names in the three authorities. -/
structure Creation where
  fee : ℤ
  creator : Protocol.AccountName
  new_account_name : Protocol.AccountName
  owner : List Protocol.AccountName
  active : List Protocol.AccountName
  posting : List Protocol.AccountName
deriving DecidableEq

/-- The creator pays and the account is made. The fee is converted to vesting shares, so the new
balance is zero. -/
def State.payAndCreate (o : Creation) (creator : Account) : Except Error State := do
  check ((o.owner ++ o.active ++ o.posting).all s.accounts.contains) .unknownAccount
  (s.modify o.creator { creator with balance := creator.balance - o.fee }).create
    o.new_account_name { balance := 0 }

def State.account_create (o : Creation) : Except Error State := do
  validate_account_name o.new_account_name
  check ((o.owner ++ o.active).all fun n => is_valid_account_name n.toString) .invalidName
  check (0 ≤ o.fee) .negativeFee
  let creator ← s.get_account o.creator
  check (o.fee ≤ creator.balance) .insufficientBalance
  check (s.account_creation_fee * CREATE_ACCOUNT_WITH_STEEM_MODIFIER ≤ o.fee) .insufficientFee
  s.payAndCreate o creator

/-- `vestingOk` stands for the assertions on vesting shares and the delegation. -/
def State.account_create_with_delegation (o : Creation) (vestingOk : Bool) :
    Except Error State := do
  validate_account_name o.new_account_name
  validate_account_name o.creator
  check ((o.owner ++ o.active ++ o.posting).all fun n => is_valid_account_name n.toString)
    .invalidName
  check (0 ≤ o.fee) .negativeFee
  let creator ← s.get_account o.creator
  check (o.fee ≤ creator.balance) .insufficientBalance
  check vestingOk .other
  check (s.account_creation_fee ≤ o.fee) .insufficientFee
  s.payAndCreate o creator

/-- `workOk` stands for the assertions on the work. -/
def State.pow (worker_account : Protocol.AccountName) (workOk : Bool) : Except Error State := do
  validate_account_name worker_account
  check workOk .other
  if s.accounts.contains worker_account then return s
  s.create worker_account { balance := 0 }

def State.pow2 (worker_account : Protocol.AccountName) (new_owner_key workOk : Bool) :
    Except Error State := do
  validate_account_name worker_account
  check workOk .other
  if s.accounts.contains worker_account then
    check (!new_owner_key) .ownerKey
    return s
  check new_owner_key .ownerKey
  s.create worker_account { balance := 0 }

inductive Call
  | account_create (o : Creation)
  | account_create_with_delegation (o : Creation) (vestingOk : Bool)
  | pow (worker_account : Protocol.AccountName) (workOk : Bool)
  | pow2 (worker_account : Protocol.AccountName) (new_owner_key workOk : Bool)
  /-- Any other change of an account. -/
  | modify (n : Protocol.AccountName) (a : Account)
  /-- The schedule takes over a new median. -/
  | median (fee : ℤ)

def Call.evaluate : Call → Except Error State
  | .account_create o => s.account_create o
  | .account_create_with_delegation o vestingOk => s.account_create_with_delegation o vestingOk
  | .pow worker workOk => s.pow worker workOk
  | .pow2 worker new_owner_key workOk => s.pow2 worker new_owner_key workOk
  | .modify n a => do
    let _ ← s.get_account n
    return s.modify n a
  | .median fee => .ok { s with account_creation_fee := fee }

def run (calls : List Call) : State := runCalls Call.evaluate s calls

/-- The accounts of `init_genesis`. -/
def genesis : State :=
  { accounts :=
      OrdMap.ofRows ((["miners", "null", "temp", "initminer"].map fun n =>
        (FixedString.ofString (ofAscii n), { balance := 0 })))
    account_creation_fee := MIN_ACCOUNT_CREATION_FEE }

/-! ## Distinct strings -/

/-- No two accounts have names that convert to the same string. -/
def State.NamesDistinct : Prop :=
  ∀ n ∈ s.accounts.keys, ∀ m ∈ s.accounts.keys, n.toString = m.toString → n = m

instance : Decidable s.NamesDistinct :=
  inferInstanceAs
    (Decidable (∀ n ∈ s.accounts.keys, ∀ m ∈ s.accounts.keys, n.toString = m.toString → n = m))

def State.NamesCanonical : Prop := ∀ n ∈ s.accounts.keys, n.Canonical

instance : Decidable s.NamesCanonical :=
  inferInstanceAs (Decidable (∀ n ∈ s.accounts.keys, n.Canonical))

variable {n : Protocol.AccountName} {a : Account} {s : State}

theorem State.NamesCanonical.distinct (h : s.NamesCanonical) : s.NamesDistinct :=
  fun n hn m hm he => (h n hn).toString_inj (h m hm) he

/-- The name of the account that a call may make. -/
def Call.newName : Call → Option Protocol.AccountName
  | .account_create o => some o.new_account_name
  | .account_create_with_delegation o _ => some o.new_account_name
  | .pow worker_account _ => some worker_account
  | .pow2 worker_account _ _ => some worker_account
  | .modify _ _ => none
  | .median _ => none

def Call.CreatesCanonical (c : Call) : Prop := ∀ n ∈ c.newName, n.Canonical

instance (c : Call) : Decidable c.CreatesCanonical :=
  inferInstanceAs (Decidable (∀ n ∈ c.newName, n.Canonical))

/-! ## What a call adds to the table -/

theorem State.get_account_ok (h : s.get_account n = .ok a) : n ∈ s.accounts.keys := by
  unfold get_account at h
  split at h
  · next v hv => exact OrdMap.mem_keys.2 ⟨v, hv⟩
  · cases h

theorem State.mem_keys_modify {k n : Protocol.AccountName} (hk : k ∈ s.accounts.keys)
    (h : n ∈ (s.modify k a).accounts.keys) : n ∈ s.accounts.keys := by
  rcases OrdMap.mem_keys_insert.1 h with rfl | h
  · exact hk
  · exact h

theorem State.create_ok {s s' : State} {k n : Protocol.AccountName} (h : s.create k a = .ok s')
    (hn : n ∈ s'.accounts.keys) : n ∈ s.accounts.keys ∨ n = k := by
  replace h := ok_of_check h
  rw [← Except.ok.inj h] at hn
  exact (OrdMap.mem_keys_insert.1 hn).symm

theorem State.payAndCreate_ok {s s' : State} {o : Creation} {creator : Account}
    (hcreator : o.creator ∈ s.accounts.keys) (h : s.payAndCreate o creator = .ok s')
    (hn : n ∈ s'.accounts.keys) :
    n ∈ s.accounts.keys ∨ n = o.new_account_name := by
  replace h := ok_of_check h
  exact (create_ok h hn).imp_left (mem_keys_modify hcreator)

theorem Call.mem_keys_evaluate {s s' : State} {c : Call} (h : c.evaluate s = .ok s')
    (hn : n ∈ s'.accounts.keys) : n ∈ s.accounts.keys ∨ c.newName = some n := by
  cases c with
  | account_create o =>
    obtain ⟨-, -, h⟩ := bind_ok.1 h
    replace h := ok_of_check h
    replace h := ok_of_check h
    obtain ⟨creator, hcreator, h⟩ := bind_ok.1 h
    replace h := ok_of_check h
    replace h := ok_of_check h
    have hadded := State.payAndCreate_ok (State.get_account_ok hcreator) h hn
    exact hadded.imp_right fun he => congrArg some he.symm
  | account_create_with_delegation o vestingOk =>
    obtain ⟨-, -, h⟩ := bind_ok.1 h
    obtain ⟨-, -, h⟩ := bind_ok.1 h
    replace h := ok_of_check h
    replace h := ok_of_check h
    obtain ⟨creator, hcreator, h⟩ := bind_ok.1 h
    replace h := ok_of_check h
    replace h := ok_of_check h
    replace h := ok_of_check h
    have hadded := State.payAndCreate_ok (State.get_account_ok hcreator) h hn
    exact hadded.imp_right fun he => congrArg some he.symm
  | pow worker_account workOk =>
    obtain ⟨-, -, h⟩ := bind_ok.1 h
    replace h := ok_of_check h
    split at h
    · rw [← Except.ok.inj h] at hn
      exact .inl hn
    · exact (State.create_ok h hn).imp_right fun he => congrArg some he.symm
  | pow2 worker_account new_owner_key workOk =>
    obtain ⟨-, -, h⟩ := bind_ok.1 h
    replace h := ok_of_check h
    split at h
    · replace h := ok_of_check h
      rw [← Except.ok.inj h] at hn
      exact .inl hn
    · replace h := ok_of_check h
      exact (State.create_ok h hn).imp_right fun he => congrArg some he.symm
  | modify k a =>
    obtain ⟨_, hk, h⟩ := bind_ok.1 h
    rw [← Except.ok.inj h] at hn
    exact .inl (State.mem_keys_modify (State.get_account_ok hk) hn)
  | median fee =>
    rw [← Except.ok.inj h] at hn
    exact .inl hn

theorem Call.namesCanonical_evaluate {s s' : State} {c : Call} (hs : s.NamesCanonical)
    (hc : c.CreatesCanonical) (h : c.evaluate s = .ok s') : s'.NamesCanonical := by
  intro n hn
  rcases Call.mem_keys_evaluate h hn with hold | hnew
  · exact hs n hold
  · exact hc n hnew

/-! ## The two views of a name -/

/-- A transaction is the same after packing and unpacking exactly if its names are canonical, and
in every run that makes accounts with canonical names only, the names of the accounts are distinct
as strings. -/
theorem names_canonical {D : DataType → Type} (data : ∀ t, Codec (D t)) :
    (∀ trx : Transaction D,
      (Transaction.format data).repack trx = some trx ↔ ∀ n ∈ trx.names, n.Canonical) ∧
    ∀ calls, Along Call.evaluate (fun _ c => c.CreatesCanonical) genesis calls →
      (run genesis calls).NamesDistinct := by
  constructor
  · intro trx
    rw [Format.repack_eq_self_iff, Transaction.norm_format_iff]
  · intro calls h
    have hcanonical : (run genesis calls).NamesCanonical :=
      runCalls_rule Call.namesCanonical_evaluate (by decide +kernel) h
    exact hcanonical.distinct

section Examples

def initminer : Protocol.AccountName := .ofString (ofAscii "initminer")

def bob : Protocol.AccountName := .ofString (ofAscii "bob")

/-- The storage of a string that goes on after a zero byte. -/
def bobAndMore : Protocol.AccountName := .ofString (ofAscii "bob" ++ [0] ++ ofAscii "x")

/-- A creation by the first witness, without account authorities. -/
def creationOf (n : Protocol.AccountName) : Creation :=
  { fee := 30, creator := initminer, new_account_name := n, owner := [], active := []
    posting := [] }

/-- Rewards, and then an account. -/
def bobCreated : List Call :=
  [.modify initminer { balance := 100 }, .account_create (creationOf bob)]

theorem names_canonical_bobCreated :
    (run genesis bobCreated).accounts.contains bob = true ∧ (run genesis bobCreated).NamesDistinct :=
  ⟨by decide +kernel,
    (names_canonical fun _ => Codec.varint).2 bobCreated (by decide +kernel)⟩

/-- The bytes of a transaction with one `account_witness_vote`, by `abc` for a witness whose name
goes on after a zero byte. This operation's `validate` asserts nothing about its other data, which
are numbers here. -/
def voteBytes : List Byte :=
  [0, 0, 0, 1, 12, 3] ++ ofAscii "abc" ++ [5] ++ ofAscii "bob" ++ [0] ++ ofAscii "x" ++ [1, 0, 0]

def vote : Transaction fun _ => ℕ :=
  { ref_block_num := 0, ref_block_prefix := 0, expiration := 0
    operations := [⟨.account_witness_vote, (.ofString (ofAscii "abc"), bobAndMore, (1 : ℕ), ())⟩]
    extensions := 0, signatures := 0 }

theorem unpack_voteBytes :
    (Transaction.format fun _ => Codec.varint).unpack voteBytes = some (vote, []) := by
  rfl

theorem vote_names : vote.names = [.ofString (ofAscii "abc"), bobAndMore] := by
  rfl

/-- A transaction that was read and passes `validate` is not read back from its packed form. With
the same name, a second account whose string is taken can be made; a node that gets the creation in
a block reads the shorter name and rejects it. -/
theorem bobAndMore_not_canonical :
    ((Transaction.format fun _ => Codec.varint).unpack voteBytes = some (vote, []) ∧
      vote.validate (fun _ => true) = true ∧
      (Transaction.format fun _ => Codec.varint).repack vote ≠ some vote) ∧
    accepts Call.evaluate (run genesis bobCreated) (.account_create (creationOf bobAndMore)) = true ∧
    accepts Call.evaluate (run genesis bobCreated)
      (.account_create (creationOf (.ofString bobAndMore.toString))) = false ∧
    ¬(run genesis (bobCreated ++ [.account_create (creationOf bobAndMore)])).NamesDistinct := by
  refine ⟨⟨unpack_voteBytes, by decide +kernel, ?_⟩, by decide +kernel, by decide +kernel,
    by decide +kernel⟩
  rw [Ne, Format.repack_eq_self_iff, Transaction.norm_format_iff, vote_names]
  decide +kernel

end Examples

end Calibrd.Chain.Accounts
