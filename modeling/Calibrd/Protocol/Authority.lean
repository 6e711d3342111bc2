import Calibrd.Lib.WeightedRules
import Calibrd.Protocol.Asset
import Calibrd.Protocol.Transaction

/-!
# Authorities and the operations that require them

Every operation names accounts whose active, owner or posting authority it requires, and a few list
authorities of their own. `get_required_authorities` collects them over a transaction: the accounts in
sets, which are walked in the order of the names, the authorities in the order of the operations.
-/

namespace Calibrd.Protocol

open Calibrd.Lib

/-- `weight_threshold` of the weights of accounts and keys. No check depends on the order in which
the two maps are walked, so they are lists of entries in any order. -/
structure Authority (K : Type) where
  weight_threshold : ℕ
  account_auths : List (AccountName × ℕ)
  key_auths : List (K × ℕ)
deriving DecidableEq

namespace Authority

variable {K : Type}

def totalWeight (auth : Authority K) : ℕ :=
  (auth.key_auths.map Prod.snd).sum + (auth.account_auths.map Prod.snd).sum

/-- No signatures reach the threshold. The weights are added up in 64 bits. -/
def is_impossible (auth : Authority K) : Bool := auth.totalWeight % 2 ^ 64 < auth.weight_threshold

def validate (auth : Authority K) : Bool :=
  auth.account_auths.all fun e => is_valid_account_name e.1.toString

/-- The authority as a rule over signed keys and approved accounts. -/
def toRule (auth : Authority K) : Rule (K ⊕ List Byte) :=
  ⟨auth.weight_threshold, auth.key_auths.map (fun e => (.inl e.1, e.2)) ++
    auth.account_auths.map fun e => (.inr e.1.toString, e.2)⟩

theorem met_toRule {P : K ⊕ List Byte → Prop} {auth : Authority K} :
    auth.toRule.Met P ↔ auth.weight_threshold ≤
      weightOf (fun k => P (.inl k)) auth.key_auths +
        weightOf (fun a => P (.inr a.toString)) auth.account_auths := by
  rw [Rule.Met, toRule, weightOf_append, weightOf_map Sum.inl,
    weightOf_map fun a : AccountName => Sum.inr a.toString]

end Authority

/-- What the required authorities depend on in the fields that hold no account names. -/
structure FieldValues (D : DataType → Type) (K : Type) where
  bool : D .bool → Bool
  uint16 : D .uint16 → ℕ
  uint32 : D .uint32 → ℕ
  /-- The number that stands for the symbol of an asset. -/
  symbol : D .asset → ℕ
  public_key : D .public_key_type → K
  key_auths : D .key_authority_map → List (K × ℕ)

variable {D : DataType → Type} {K : Type} (v : FieldValues D K)

def FieldValues.authority (a : OperationType.authority.Val D) : Authority K :=
  ⟨v.uint32 a.1, OrdMap.rows a.2.1 |>.map fun r => (r.1, v.uint16 r.2), v.key_auths a.2.2.1⟩

namespace Operation

/-- The names in a `flat_set`. -/
def members (s : Shape.flat_set.Val D) : List AccountName := OrdMap.keys s

def pow2_worker_account (work : OperationType.pow2_work.Val D) : AccountName :=
  match work with
  | .inl ((worker_account, _), _) => worker_account
  | .inr ((worker_account, _), _) => worker_account

def get_required_active_authorities : (k : OperationType) → k.shape.Val D → List AccountName
  | .account_create, (_, creator, _) => [creator]
  | .account_create_with_delegation, (_, _, creator, _) => [creator]
  | .account_update, (account, owner, _) => if Option.isSome owner then [] else [account]
  | .challenge_authority, (challenger, _) => [challenger]
  | .prove_authority, (challenged, require_owner, _) =>
    if !v.bool require_owner then [challenged] else []
  | .transfer, (from_, _, amount, _) => if v.symbol amount ≠ Symbol.VESTS.code then [from_] else []
  | .escrow_transfer, (from_, _) => [from_]
  | .escrow_approve, (_, _, _, who, _) => [who]
  | .escrow_dispute, (_, _, _, who, _) => [who]
  | .escrow_release, (_, _, _, who, _) => [who]
  | .transfer_to_vesting, (from_, _) => [from_]
  | .withdraw_vesting, (account, _) => [account]
  | .set_withdraw_vesting_route, (from_account, _) => [from_account]
  | .witness_update, (owner, _) => [owner]
  | .account_witness_vote, (account, _) => [account]
  | .account_witness_proxy, (account, _) => [account]
  | .custom, (required_auths, _) => members (D := D) required_auths
  | .custom_json, (required_auths, _) => members (D := D) required_auths
  | .custom_binary, (_, required_active_auths, _) => members (D := D) required_active_auths
  | .feed_publish, (publisher, _) => [publisher]
  | .convert, (owner, _) => [owner]
  | .limit_order_create, (owner, _) => [owner]
  | .limit_order_create2, (owner, _) => [owner]
  | .limit_order_cancel, (owner, _) => [owner]
  | .pow2, (work, new_owner_key, _) =>
    if Option.isSome new_owner_key then [] else [pow2_worker_account work]
  | .request_account_recovery, (recovery_account, _) => [recovery_account]
  | .reset_account, (reset_account, _) => [reset_account]
  | .transfer_to_savings, (from_, _) => [from_]
  | .transfer_from_savings, (from_, _) => [from_]
  | .cancel_transfer_from_savings, (from_, _) => [from_]
  | .delegate_vesting_shares, (delegator, _) => [delegator]
  | _, _ => []

def get_required_owner_authorities : (k : OperationType) → k.shape.Val D → List AccountName
  | .account_update, (account, owner, _) => if Option.isSome owner then [account] else []
  | .prove_authority, (challenged, require_owner, _) =>
    if v.bool require_owner then [challenged] else []
  | .transfer, (from_, _, amount, _) => if v.symbol amount = Symbol.VESTS.code then [from_] else []
  | .custom_binary, (required_owner_auths, _) => members (D := D) required_owner_auths
  | .set_reset_account, (account, current_reset_account, _) =>
    if FixedString.size current_reset_account ≠ 0 then [account] else []
  | .change_recovery_account, (account_to_recover, _) => [account_to_recover]
  | .decline_voting_rights, (account, _) => [account]
  | _, _ => []

def get_required_posting_authorities : (k : OperationType) → k.shape.Val D → List AccountName
  | .comment, (_, _, author, _) => [author]
  | .comment_options, (author, _) => [author]
  | .delete_comment, (author, _) => [author]
  | .vote, (voter, _) => [voter]
  | .custom_json, (_, required_posting_auths, _) => members (D := D) required_posting_auths
  | .custom_binary, (_, _, required_posting_auths, _) => members (D := D) required_posting_auths
  | .set_reset_account, (account, current_reset_account, _) =>
    if FixedString.size current_reset_account = 0 then [account] else []
  | .claim_reward_balance, (account, _) => [account]
  | _, _ => []

/-- The authorities that an operation brings along. -/
def get_required_authorities : (k : OperationType) → k.shape.Val D → List (Authority K)
  | .custom_binary, (_, _, _, required_auths, _) => List.map v.authority required_auths
  | .pow2, (_, new_owner_key, _) =>
    (Option.toList new_owner_key).map fun k => ⟨1, [], [(v.public_key k, 1)]⟩
  | .recover_account, (_, new_owner_authority, recent_owner_authority, _) =>
    [v.authority new_owner_authority, v.authority recent_owner_authority]
  | _, _ => []

end Operation

/-- The accounts and authorities that a list of operations requires. -/
structure RequiredAuthorities (K : Type) where
  active : OrdMap AccountName Unit := .empty
  owner : OrdMap AccountName Unit := .empty
  posting : OrdMap AccountName Unit := .empty
  other : List (Authority K) := []

def insertNames (s : OrdMap AccountName Unit) (names : List AccountName) : OrdMap AccountName Unit :=
  names.foldl (fun s id => s.insert id ()) s

def operation_get_required_authorities (r : RequiredAuthorities K) (op : Operation D) :
    RequiredAuthorities K :=
  { active := insertNames r.active (Operation.get_required_active_authorities v op.1 op.2)
    owner := insertNames r.owner (Operation.get_required_owner_authorities v op.1 op.2)
    posting := insertNames r.posting (Operation.get_required_posting_authorities op.1 op.2)
    other := r.other ++ Operation.get_required_authorities v op.1 op.2 }

def get_required_authorities (ops : List (Operation D)) : RequiredAuthorities K :=
  ops.foldl (operation_get_required_authorities v) {}

/-! ## What the sets hold -/

theorem mem_insertNames {names : List AccountName} {n : AccountName} :
    ∀ {s : OrdMap AccountName Unit}, n ∈ (insertNames s names).keys ↔ n ∈ s.keys ∨ n ∈ names := by
  induction names with
  | nil => simp [insertNames]
  | cons id names ih =>
    intro s
    rw [insertNames, List.foldl_cons, ← insertNames, ih, OrdMap.mem_keys_insert, List.mem_cons]
    tauto

/-- Operations add to the sets one after the other. -/
theorem mem_foldl_required {α : Type} {n : α} (part : RequiredAuthorities K → List α)
    (own : Operation D → List α)
    (hpart : ∀ r op, n ∈ part (operation_get_required_authorities v r op) ↔ n ∈ part r ∨ n ∈ own op)
    (ops : List (Operation D)) : ∀ r,
    n ∈ part (ops.foldl (operation_get_required_authorities v) r) ↔
      n ∈ part r ∨ ∃ op ∈ ops, n ∈ own op := by
  induction ops with
  | nil => simp
  | cons op ops ih =>
    intro r
    rw [List.foldl_cons, ih, hpart, or_assoc, List.exists_mem_cons_iff]

variable {v} {ops : List (Operation D)} {id : AccountName}

theorem mem_required_active : id ∈ (get_required_authorities v ops).active.keys ↔
    ∃ op ∈ ops, id ∈ Operation.get_required_active_authorities v op.1 op.2 :=
  (mem_foldl_required v (fun r => r.active.keys) _ (fun _ _ => mem_insertNames) ops {}).trans
    (or_iff_right (List.not_mem_nil))

theorem mem_required_owner : id ∈ (get_required_authorities v ops).owner.keys ↔
    ∃ op ∈ ops, id ∈ Operation.get_required_owner_authorities v op.1 op.2 :=
  (mem_foldl_required v (fun r => r.owner.keys) _ (fun _ _ => mem_insertNames) ops {}).trans
    (or_iff_right (List.not_mem_nil))

theorem mem_required_posting : id ∈ (get_required_authorities v ops).posting.keys ↔
    ∃ op ∈ ops, id ∈ Operation.get_required_posting_authorities op.1 op.2 :=
  (mem_foldl_required v (fun r => r.posting.keys) _ (fun _ _ => mem_insertNames) ops {}).trans
    (or_iff_right (List.not_mem_nil))

theorem mem_required_other {auth : Authority K} : auth ∈ (get_required_authorities v ops).other ↔
    ∃ op ∈ ops, auth ∈ Operation.get_required_authorities v op.1 op.2 :=
  (mem_foldl_required v RequiredAuthorities.other _ (fun _ _ => List.mem_append) ops {}).trans
    (or_iff_right (List.not_mem_nil))

end Calibrd.Protocol
