import Calibrd.Protocol.FixedString

/-!
# Operations on the wire

The reflected fields of every operation, in packing order. A field is an account name, a container
of fields, or other data, whose in-memory types `D` and lossless formats are parameters: what
matters here is where account names stand. `flat_set` and `flat_map` are ordered by the storage of
the names in them.

`Shape.norm_format_iff`: packing a value and unpacking it again gives the value back exactly if
every account name in it is canonical; for whole transactions this is `norm_transaction_iff`.
-/

namespace Calibrd.Protocol

open Calibrd.Lib

/-- The types of the fields without account names. -/
inductive DataType
  | bool | int16 | uint16 | uint32 | uint64 | string | bytes | time_point_sec | asset | price
  | public_key_type | key_authority_map | block_id_type | pow | equihash_proof | chain_properties
  | signed_block_header | extensions_type | signatures
deriving DecidableEq

inductive Shape
  | unit
  | data (t : DataType)
  | account_name_type
  | pair (a b : Shape)
  | vector (a : Shape)
  | optional (a : Shape)
  | static_variant (a b : Shape)
  /-- A map from account names. -/
  | flat_map (a : Shape)
  /-- A set of values of a variant with one alternative, which are ordered by the alternative. -/
  | extension_set (a : Shape)

namespace Shape

/-- A set of account names. -/
def flat_set : Shape := .flat_map .unit

def struct (fields : List Shape) : Shape := fields.foldr .pair .unit

def Val (D : DataType → Type) : Shape → Type
  | .unit => Unit
  | .data t => D t
  | .account_name_type => AccountName
  | .pair a b => Val D a × Val D b
  | .vector a => List (Val D a)
  | .optional a => Option (Val D a)
  | .static_variant a b => Val D a ⊕ Val D b
  | .flat_map a => OrdMap AccountName (Val D a)
  | .extension_set a => OrdMap Unit (Val D a)

variable {D : DataType → Type}

def format (data : ∀ t, Codec (D t)) : (s : Shape) → Format (s.Val D)
  | .unit => Codec.unit.toFormat
  | .data t => (data t).toFormat
  | .account_name_type => FixedString.format 16
  | .pair a b => (format data a).pair (format data b)
  | .vector a => .list .varint (format data a)
  | .optional a => (format data a).option
  | .static_variant a b => (format data a).sum (format data b)
  | .flat_map a => .ordMap .varint ((FixedString.format 16).pair (format data a))
  | .extension_set a => .ordMap .varint (Codec.onlyTag.toFormat.pair (format data a))

/-- The account names in a value. -/
def names : (s : Shape) → s.Val D → List AccountName
  | .unit, _ => []
  | .data _, _ => []
  | .account_name_type, n => [n]
  | .pair a b, p => names a p.1 ++ names b p.2
  | .vector a, l => List.flatMap (names a) l
  | .optional _, none => []
  | .optional a, some v => names a v
  | .static_variant a _, .inl v => names a v
  | .static_variant _ b, .inr v => names b v
  | .flat_map a, m => m.rows.flatMap fun r => r.1 :: names a r.2
  | .extension_set a, m => m.rows.flatMap fun r => names a r.2

theorem norm_format_iff (data : ∀ t, Codec (D t)) (s : Shape) (v : s.Val D) :
    (s.format data).norm v = v ↔ ∀ n ∈ s.names v, n.Canonical := by
  induction s with
  | unit => exact ⟨fun _ => List.forall_mem_nil _, fun _ => rfl⟩
  | data t => exact ⟨fun _ => List.forall_mem_nil _, fun _ => rfl⟩
  | account_name_type =>
    exact (FixedString.norm_format_iff v).trans List.forall_mem_singleton.symm
  | pair a b iha ihb =>
    refine (Format.norm_pair_iff _ _ v).trans ?_
    rw [iha, ihb, names, List.forall_mem_append]
  | vector a ih =>
    refine (Format.norm_list_iff _ _ v).trans ?_
    exact (forall₂_congr fun w _ => ih w).trans List.forall_mem_flatMap.symm
  | optional a ih =>
    refine (Format.norm_option_iff _ v).trans ?_
    cases v with
    | none => simp [names]
    | some v => simpa [names] using ih v
  | static_variant a b iha ihb =>
    cases v with
    | inl v => exact Sum.inl_injective.eq_iff.trans (iha v)
    | inr v => exact Sum.inr_injective.eq_iff.trans (ihb v)
  | flat_map a ih =>
    refine (Format.norm_ordMap_iff _ _ v).trans ?_
    simp only [Format.norm_pair_iff, FixedString.norm_format_iff, ih, names, List.forall_mem_flatMap,
      List.forall_mem_cons]
  | extension_set a ih =>
    refine (Format.norm_ordMap_iff _ _ v).trans ?_
    simp only [Format.norm_pair_iff, ih, names, List.forall_mem_flatMap, true_and]

end Shape

/-! ## The operations -/

/-- The alternatives of `operation`, in their order; the virtual ones come last. -/
inductive OperationType
  | vote | comment | transfer | transfer_to_vesting | withdraw_vesting | limit_order_create
  | limit_order_cancel | feed_publish | convert | account_create | account_update | witness_update
  | account_witness_vote | account_witness_proxy | pow | custom | report_over_production
  | delete_comment | custom_json | comment_options | set_withdraw_vesting_route
  | limit_order_create2 | challenge_authority | prove_authority | request_account_recovery
  | recover_account | change_recovery_account | escrow_transfer | escrow_dispute | escrow_release
  | pow2 | escrow_approve | transfer_to_savings | transfer_from_savings
  | cancel_transfer_from_savings | custom_binary | decline_voting_rights | reset_account
  | set_reset_account | claim_reward_balance | delegate_vesting_shares
  | account_create_with_delegation
  | fill_convert_request | author_reward | curation_reward | comment_reward | liquidity_reward
  | interest | fill_vesting_withdraw | fill_order | shutdown_witness | fill_transfer_from_savings
  | hardfork | comment_payout_update | return_vesting_delegation | comment_benefactor_reward
  | producer_reward
deriving DecidableEq

namespace OperationType

def all : List OperationType :=
  [.vote, .comment, .transfer, .transfer_to_vesting, .withdraw_vesting, .limit_order_create,
   .limit_order_cancel, .feed_publish, .convert, .account_create, .account_update,
   .witness_update, .account_witness_vote, .account_witness_proxy, .pow, .custom,
   .report_over_production, .delete_comment, .custom_json, .comment_options,
   .set_withdraw_vesting_route, .limit_order_create2, .challenge_authority, .prove_authority,
   .request_account_recovery, .recover_account, .change_recovery_account, .escrow_transfer,
   .escrow_dispute, .escrow_release, .pow2, .escrow_approve, .transfer_to_savings,
   .transfer_from_savings, .cancel_transfer_from_savings, .custom_binary, .decline_voting_rights,
   .reset_account, .set_reset_account, .claim_reward_balance, .delegate_vesting_shares,
   .account_create_with_delegation, .fill_convert_request, .author_reward, .curation_reward,
   .comment_reward, .liquidity_reward, .interest, .fill_vesting_withdraw, .fill_order,
   .shutdown_witness, .fill_transfer_from_savings, .hardfork, .comment_payout_update,
   .return_vesting_delegation, .comment_benefactor_reward, .producer_reward]

def authority : Shape :=
  .struct [.data .uint32, .flat_map (.data .uint16), .data .key_authority_map]

def beneficiary_route_type : Shape := .struct [.account_name_type, .data .uint16]

def comment_options_extensions : Shape :=
  .extension_set (.struct [.vector beneficiary_route_type])

def pow2_input : Shape := .struct [.account_name_type, .data .block_id_type, .data .uint64]

def pow2_work : Shape :=
  .static_variant (.struct [pow2_input, .data .uint32])
    (.struct [pow2_input, .data .equihash_proof, .data .block_id_type, .data .uint32])

def fields : OperationType → List Shape
  | .vote => [.account_name_type, .account_name_type, .data .string, .data .int16]
  | .comment =>
    [.account_name_type, .data .string, .account_name_type, .data .string, .data .string,
     .data .string, .data .string]
  | .transfer => [.account_name_type, .account_name_type, .data .asset, .data .string]
  | .transfer_to_vesting => [.account_name_type, .account_name_type, .data .asset]
  | .withdraw_vesting => [.account_name_type, .data .asset]
  | .limit_order_create =>
    [.account_name_type, .data .uint32, .data .asset, .data .asset, .data .bool,
     .data .time_point_sec]
  | .limit_order_cancel => [.account_name_type, .data .uint32]
  | .feed_publish => [.account_name_type, .data .price]
  | .convert => [.account_name_type, .data .uint32, .data .asset]
  | .account_create =>
    [.data .asset, .account_name_type, .account_name_type, authority, authority, authority,
     .data .public_key_type, .data .string]
  | .account_update =>
    [.account_name_type, .optional authority, .optional authority, .optional authority,
     .data .public_key_type, .data .string]
  | .witness_update =>
    [.account_name_type, .data .string, .data .public_key_type, .data .chain_properties,
     .data .asset]
  | .account_witness_vote => [.account_name_type, .account_name_type, .data .bool]
  | .account_witness_proxy => [.account_name_type, .account_name_type]
  | .pow =>
    [.account_name_type, .data .block_id_type, .data .uint64, .data .pow, .data .chain_properties]
  | .custom => [.flat_set, .data .uint16, .data .bytes]
  | .report_over_production =>
    [.account_name_type, .data .signed_block_header, .data .signed_block_header]
  | .delete_comment => [.account_name_type, .data .string]
  | .custom_json => [.flat_set, .flat_set, .data .string, .data .string]
  | .comment_options =>
    [.account_name_type, .data .string, .data .asset, .data .uint16, .data .bool, .data .bool,
     comment_options_extensions]
  | .set_withdraw_vesting_route =>
    [.account_name_type, .account_name_type, .data .uint16, .data .bool]
  | .limit_order_create2 =>
    [.account_name_type, .data .uint32, .data .asset, .data .price, .data .bool,
     .data .time_point_sec]
  | .challenge_authority => [.account_name_type, .account_name_type, .data .bool]
  | .prove_authority => [.account_name_type, .data .bool]
  | .request_account_recovery =>
    [.account_name_type, .account_name_type, authority, .data .extensions_type]
  | .recover_account => [.account_name_type, authority, authority, .data .extensions_type]
  | .change_recovery_account => [.account_name_type, .account_name_type, .data .extensions_type]
  | .escrow_transfer =>
    [.account_name_type, .account_name_type, .data .asset, .data .asset, .data .uint32,
     .account_name_type, .data .asset, .data .string, .data .time_point_sec,
     .data .time_point_sec]
  | .escrow_dispute =>
    [.account_name_type, .account_name_type, .account_name_type, .account_name_type,
     .data .uint32]
  | .escrow_release =>
    [.account_name_type, .account_name_type, .account_name_type, .account_name_type,
     .account_name_type, .data .uint32, .data .asset, .data .asset]
  | .pow2 => [pow2_work, .optional (.data .public_key_type), .data .chain_properties]
  | .escrow_approve =>
    [.account_name_type, .account_name_type, .account_name_type, .account_name_type,
     .data .uint32, .data .bool]
  | .transfer_to_savings => [.account_name_type, .account_name_type, .data .asset, .data .string]
  | .transfer_from_savings =>
    [.account_name_type, .data .uint32, .account_name_type, .data .asset, .data .string]
  | .cancel_transfer_from_savings => [.account_name_type, .data .uint32]
  | .custom_binary =>
    [.flat_set, .flat_set, .flat_set, .vector authority, .data .string, .data .bytes]
  | .decline_voting_rights => [.account_name_type, .data .bool]
  | .reset_account => [.account_name_type, .account_name_type, authority]
  | .set_reset_account => [.account_name_type, .account_name_type, .account_name_type]
  | .claim_reward_balance => [.account_name_type, .data .asset, .data .asset, .data .asset]
  | .delegate_vesting_shares => [.account_name_type, .account_name_type, .data .asset]
  | .account_create_with_delegation =>
    [.data .asset, .data .asset, .account_name_type, .account_name_type, authority, authority,
     authority, .data .public_key_type, .data .string, .data .extensions_type]
  | .fill_convert_request => [.account_name_type, .data .uint32, .data .asset, .data .asset]
  | .author_reward => [.account_name_type, .data .string, .data .asset, .data .asset, .data .asset]
  | .curation_reward => [.account_name_type, .data .asset, .account_name_type, .data .string]
  | .comment_reward => [.account_name_type, .data .string, .data .asset]
  | .liquidity_reward => [.account_name_type, .data .asset]
  | .interest => [.account_name_type, .data .asset]
  | .fill_vesting_withdraw => [.account_name_type, .account_name_type, .data .asset, .data .asset]
  | .fill_order =>
    [.account_name_type, .data .uint32, .data .asset, .account_name_type, .data .uint32,
     .data .asset]
  | .shutdown_witness => [.account_name_type]
  | .fill_transfer_from_savings =>
    [.account_name_type, .account_name_type, .data .asset, .data .uint32, .data .string]
  | .hardfork => [.data .uint32]
  | .comment_payout_update => [.account_name_type, .data .string]
  | .return_vesting_delegation => [.account_name_type, .data .asset]
  | .comment_benefactor_reward =>
    [.account_name_type, .account_name_type, .data .string, .data .asset]
  | .producer_reward => [.account_name_type, .data .asset]

def shape (k : OperationType) : Shape := .struct k.fields

def isVirtual : OperationType → Bool
  | .fill_convert_request | .author_reward | .curation_reward | .comment_reward
  | .liquidity_reward | .interest | .fill_vesting_withdraw | .fill_order | .shutdown_witness
  | .fill_transfer_from_savings | .hardfork | .comment_payout_update
  | .return_vesting_delegation | .comment_benefactor_reward | .producer_reward => true
  | _ => false

def unpackWhich (l : List Byte) : Option (OperationType × List Byte) :=
  (Codec.varint.unpack l).bind fun r => all[r.1]?.map fun k => (k, r.2)

theorem all_idxOf (k : OperationType) : all[all.idxOf k]? = some k := by
  cases k <;> rfl

def which : Codec OperationType :=
  { pack := fun k => Codec.varint.pack (all.idxOf k)
    unpack := unpackWhich
    unpack_pack := fun k rest => by
      rw [unpackWhich, Codec.varint.unpack_pack, Option.bind_some, all_idxOf]
      rfl }

end OperationType

end Calibrd.Protocol
