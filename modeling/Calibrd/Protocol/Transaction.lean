import Calibrd.Protocol.Operations

/-!
# Transactions: validation and packing

`validate` passes account names on as strings: `checkedNames` lists, per operation, the names that
go through `validate_account_name`, and `asserts` is the rest of an operation's `validate`. Digests,
ids and blocks are made from the packed transaction, which holds the strings as well.
`norm_format_iff` says which transactions are the same after packing and unpacking.
-/

namespace Calibrd.Protocol

open Calibrd.Lib

variable {D : DataType → Type}

/-- An operation in memory. -/
abbrev Operation (D : DataType → Type) := Σ k : OperationType, k.shape.Val D

namespace Operation

def names (op : Operation D) : List AccountName := op.1.shape.names op.2

def format (data : ∀ t, Codec (D t)) : Format (Operation D) :=
  .tagged OperationType.which fun k => k.shape.format data

/-- `validate_account_name` only if the name is not empty. -/
def nonempty (n : AccountName) : List AccountName := if n.size ≠ 0 then [n] else []

/-- The same for `account_name_type()`, compared by its storage. -/
def nondefault (n : AccountName) : List AccountName :=
  if n ≠ FixedString.ofString [] then [n] else []

/-- The names in `account_auths`, which `authority::validate` checks. -/
def auths (a : OperationType.authority.Val D) : List AccountName := OperationType.authority.names a

/-- The names that `validate` hands to `validate_account_name`. A virtual operation has none: its
`validate` fails. -/
def checkedNames : (k : OperationType) → k.shape.Val D → List AccountName
  | .vote, (voter, author, _) => [voter, author]
  | .comment, (parent_author, _, author, _) => nonempty parent_author ++ ([author] : List AccountName)
  | .transfer, (from_, to_, _) => [from_, to_]
  | .transfer_to_vesting, (from_, to_, _) => from_ :: nondefault to_
  | .withdraw_vesting, (account, _) => [account]
  | .limit_order_create, (owner, _) => [owner]
  | .limit_order_cancel, (owner, _) => [owner]
  | .feed_publish, (publisher, _) => [publisher]
  | .convert, (owner, _) => [owner]
  | .account_create, (_, _, new_account_name, owner, active, _) =>
    new_account_name :: (auths owner ++ auths active)
  | .account_update, (account, _) => [account]
  | .witness_update, (owner, _) => [owner]
  | .account_witness_vote, (account, witness, _) => [account, witness]
  | .account_witness_proxy, (account, proxy, _) => account :: nonempty proxy
  | .pow, (worker_account, _) => [worker_account]
  | .custom, _ => []
  | .report_over_production, (reporter, _) => [reporter]
  | .delete_comment, (author, _) => [author]
  | .custom_json, _ => []
  | .comment_options, (author, _, _, _, _, _, extensions, _) =>
    author :: OperationType.comment_options_extensions.names extensions
  | .set_withdraw_vesting_route, (from_account, to_account, _) => [from_account, to_account]
  | .limit_order_create2, (owner, _) => [owner]
  | .challenge_authority, (challenger, challenged, _) => [challenger, challenged]
  | .prove_authority, (challenged, _) => [challenged]
  | .request_account_recovery, (recovery_account, account_to_recover, new_owner_authority, _) =>
    recovery_account :: account_to_recover :: auths new_owner_authority
  | .recover_account, (account_to_recover, new_owner_authority, recent_owner_authority, _) =>
    account_to_recover :: (auths new_owner_authority ++ auths recent_owner_authority)
  | .change_recovery_account, (account_to_recover, new_recovery_account, _) =>
    [account_to_recover, new_recovery_account]
  | .escrow_transfer, (from_, to_, _, _, _, agent, _) => [from_, to_, agent]
  | .escrow_dispute, (from_, to_, agent, who, _) => [from_, to_, agent, who]
  | .escrow_release, (from_, to_, agent, who, receiver, _) => [from_, to_, agent, who, receiver]
  | .pow2, (work, _) => OperationType.pow2_work.names work
  | .escrow_approve, (from_, to_, agent, who, _) => [from_, to_, agent, who]
  | .transfer_to_savings, (from_, to_, _) => [from_, to_]
  | .transfer_from_savings, (from_, _, to_, _) => [from_, to_]
  | .cancel_transfer_from_savings, (from_, _) => [from_]
  | .custom_binary, (_, _, _, required_auths, _) => List.flatMap auths required_auths
  | .decline_voting_rights, (account, _) => [account]
  | .reset_account, (reset_account, account_to_reset, new_owner_authority, _) =>
    reset_account :: account_to_reset :: auths new_owner_authority
  | .set_reset_account, (account, current_reset_account, reset_account, _) =>
    account :: (nonempty current_reset_account ++ ([reset_account] : List AccountName))
  | .claim_reward_balance, (account, _) => [account]
  | .delegate_vesting_shares, (delegator, delegatee, _) => [delegator, delegatee]
  | .account_create_with_delegation, (_, _, creator, new_account_name, owner, active, posting, _) =>
    new_account_name :: creator :: (auths owner ++ auths active ++ auths posting)
  | _, _ => []

def validate (asserts : Operation D → Bool) (op : Operation D) : Bool :=
  !op.1.isVirtual && (checkedNames op.1 op.2).all (fun n => is_valid_account_name n.toString) &&
    asserts op

end Operation

/-- A signed transaction in memory. -/
structure Transaction (D : DataType → Type) where
  ref_block_num : D .uint16
  ref_block_prefix : D .uint32
  expiration : D .time_point_sec
  operations : List (Operation D)
  extensions : D .extensions_type
  signatures : D .signatures

namespace Transaction

def names (trx : Transaction D) : List AccountName := trx.operations.flatMap Operation.names

def validate (asserts : Operation D → Bool) (trx : Transaction D) : Bool :=
  0 < trx.operations.length && trx.operations.all (Operation.validate asserts)

/-- The reflected fields, in packing order. -/
abbrev Fields (D : DataType → Type) :=
  D .uint16 × D .uint32 × D .time_point_sec × List (Operation D) × D .extensions_type ×
    D .signatures

def toFields (trx : Transaction D) : Fields D :=
  (trx.ref_block_num, trx.ref_block_prefix, trx.expiration, trx.operations, trx.extensions,
    trx.signatures)

def ofFields (f : Fields D) : Transaction D :=
  ⟨f.1, f.2.1, f.2.2.1, f.2.2.2.1, f.2.2.2.2.1, f.2.2.2.2.2⟩

def operationsFormat (data : ∀ t, Codec (D t)) : Format (List (Operation D)) :=
  .list .varint (Operation.format data)

def format (data : ∀ t, Codec (D t)) : Format (Transaction D) :=
  ((data .uint16).toFormat.pair ((data .uint32).toFormat.pair ((data .time_point_sec).toFormat.pair
    ((operationsFormat data).pair ((data .extensions_type).toFormat.pair
      (data .signatures).toFormat))))).through toFields ofFields fun _ => rfl

variable (data : ∀ t, Codec (D t))

include data

theorem norm_format (trx : Transaction D) :
    (format data).norm trx =
      { trx with operations := (operationsFormat data).norm trx.operations } :=
  rfl

theorem norm_format_eq_self (trx : Transaction D) :
    (format data).norm trx = trx ↔ (operationsFormat data).norm trx.operations = trx.operations := by
  rw [norm_format]
  constructor
  · exact fun h => congrArg operations h
  · intro h
    rw [h]

/-- A transaction is the same after packing and unpacking exactly if its account names are
canonical. -/
theorem norm_format_iff (trx : Transaction D) :
    (format data).norm trx = trx ↔ ∀ n ∈ trx.names, n.Canonical := by
  rw [norm_format_eq_self, operationsFormat, Format.norm_list_iff, names, List.forall_mem_flatMap]
  refine forall₂_congr fun op _ => ?_
  exact (Format.norm_tagged_iff _ _ op).trans (Shape.norm_format_iff data _ op.2)

end Transaction

end Calibrd.Protocol
