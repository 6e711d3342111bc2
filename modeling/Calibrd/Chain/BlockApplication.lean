import Calibrd.Chain.Config
import Calibrd.Chain.Outcome
import Calibrd.Lib.Check

/-!
# `_apply_block` and `_apply_transaction`

Every check that a skip flag can switch off, in the order of the source, around the parts that read
no flag. Those parts are programs of the protocol over its tables (`Protocol`). The table of known
transactions, `transaction_index`, is kept apart from them: only `_apply_transaction`,
`is_known_transaction` and `clear_expired_transactions` use it.
-/

namespace Calibrd.Chain

open Calibrd.Lib Calibrd.Chainbase

/-- The assertions of block application itself. -/
inductive BlockCheck where
  | merkle_check
  | head_block_id
  | head_block_time
  | unknown_witness
  | validate_signee
  | slot_num
  | scheduled_witness
  | block_size
  | running_version
  | undo_history
  | duplicate_transaction
  | block_summary
  | tapos
  | expiration_too_far
  | expired
deriving DecidableEq, Repr

def STEEMIT_MAX_TIME_UNTIL_EXPIRATION : ℕ := 60 * 60

/-- What blocks and transactions are made of, and the parts of block application that read no skip
flag. The tables `S` are all but `transaction_index`. -/
structure Protocol (B : BlockSpec) where
  S : Schema
  E : Type
  fail : BlockCheck → E
  -- transactions
  Tx : Type
  TxId : Type
  decTxId : DecidableEq TxId
  trx_id : Tx → TxId
  expiration : Tx → ℕ
  ref_block_num : Tx → ℕ
  ref_block_prefix : Tx → ℕ
  Op : Type
  operations : Tx → List Op
  validate : Tx → Except E Unit
  verify_authority : View S → Tx → Except E Unit
  tx_missing_active_auth : E → Bool
  -- blocks
  Merkle : Type
  decMerkle : DecidableEq Merkle
  Witness : Type
  decWitness : DecidableEq Witness
  Key : Type
  timestamp : B.Block → ℕ
  witness : B.Block → Witness
  transactions : B.Block → List Tx
  transaction_merkle_root : B.Block → Merkle
  calculate_merkle_root : B.Block → Merkle
  shared_db_merkle : ℕ → Option Merkle
  block_size : B.Block → ℕ
  validate_signee : B.Block → Key → Bool
  -- what is read of the tables
  head_block_id : View S → B.Id
  head_block_num : View S → ℕ
  head_block_time : View S → ℕ
  last_irreversible_block_num : View S → ℕ
  maximum_block_size : View S → ℕ
  has_hardfork : View S → ℕ → Bool
  signing_key : View S → Witness → Option Key
  /-- The witness runs at least the current hardfork version. -/
  runs_current_version : View S → Witness → Bool
  get_slot_at_time : View S → ℕ → ℕ
  get_scheduled_witness : View S → ℕ → Witness
  /-- The word `_hash[1]` of the id in `block_summary_object`. -/
  tapos_prefix : View S → ℕ → Option ℕ
  -- the parts that read no skip flag
  setCurrentWitness : B.Block → Prog S E Unit
  process_header_extensions : B.Block → Prog S E Unit
  apply_operation : Op → Prog S E Unit
  update_global_dynamic_data : B.Block → Prog S E Unit
  update_signing_witness : B.Block → Prog S E Unit
  updateIrreversible : Prog S E Unit
  create_block_summary : B.Block → Prog S E Unit
  /-- `_apply_block` from `clear_expired_orders` to `process_hardforks`. -/
  maintain : B.Block → Prog S E Unit
  -- block production
  GenArgs : Type
  mayGenerate : SkipFlags → View S → GenArgs → Except E Unit
  trx_size : Tx → ℕ
  isExpired : GenArgs → Tx → Bool
  max_block_header_size : ℕ
  assemble : SkipFlags → View S → GenArgs → List Tx → B.Block
  fits : B.Block → Bool

namespace Protocol

variable {B : BlockSpec} (P : Protocol B)

instance : DecidableEq P.TxId := P.decTxId

instance : DecidableEq P.Merkle := P.decMerkle

instance : DecidableEq P.Witness := P.decWitness

/-- `transaction_object`. -/
structure TransactionObject where
  trx_id : P.TxId
  expiration : ℕ
  packed_trx : P.Tx

/-- `by_trx_id`. -/
def transactionKeys : List (UniqueKey P.TransactionObject) :=
  [⟨P.TxId, P.decTxId, fun _ o => o.trx_id⟩]

/-- All tables. -/
abbrev tables : Schema := P.S.extend P.transactionKeys

variable {P} in
theorem bind_eq_ok {x y : Except P.E Unit} :
    (x >>= fun _ => y) = .ok () ↔ x = .ok () ∧ y = .ok () := by
  cases x with
  | ok u => exact ⟨fun h => ⟨rfl, h⟩, fun h => h.2⟩
  | error e => exact ⟨fun h => (by cases h), fun h => (by cases h.1)⟩

/-- A check of the tables of the protocol. -/
def checked (f : View P.S → Except P.E Unit) : Prog P.tables P.E Unit :=
  .read fun v =>
    match f (View.base v) with
    | .ok _ => .pure ()
    | .error e => .throw e

/-- A part that does not use the table of transactions. -/
abbrev part (p : Prog P.S P.E Unit) : Prog P.tables P.E Unit := p.lift P.transactionKeys

/-- A loop over programs; the first exception ends it. -/
def forAll {S : Schema} {E α : Type} (f : α → Prog S E Unit) : List α → Prog S E Unit
  | [] => .pure ()
  | a :: rest => (f a).bind fun _ => forAll f rest

/-! ## The checks -/

variable (skip : SkipFlags)

/-- The merkle check, with the exceptions of `get_shared_db_merkle`. -/
def checkMerkle (b : B.Block) : Except P.E Unit :=
  check (skip.skip_merkle_check ||
    decide (P.transaction_merkle_root b = P.calculate_merkle_root b) ||
    decide (P.shared_db_merkle (B.block_num b) = some (P.calculate_merkle_root b)))
    (P.fail .merkle_check)

/-- The part of `validate_block_header` on the witness that signed the block. -/
def checkSigner (b : B.Block) (v : View P.S) : Except P.E Unit :=
  match P.signing_key v (P.witness b) with
  | none => .error (P.fail .unknown_witness)
  | some key =>
    check (skip.skip_witness_signature || P.validate_signee b key) (P.fail .validate_signee)

/-- The part of `validate_block_header` on the schedule. -/
def checkSchedule (b : B.Block) (v : View P.S) : Except P.E Unit := do
  let slot_num := P.get_slot_at_time v (P.timestamp b)
  check (skip.skip_witness_schedule_check || decide (0 < slot_num)) (P.fail .slot_num)
  check (skip.skip_witness_schedule_check ||
    decide (P.witness b = P.get_scheduled_witness v slot_num)) (P.fail .scheduled_witness)

def validate_block_header (b : B.Block) (v : View P.S) : Except P.E Unit := do
  check (decide (P.head_block_id v = B.previous b)) (P.fail .head_block_id)
  check (decide (P.head_block_time v < P.timestamp b)) (P.fail .head_block_time)
  P.checkSigner skip b v
  P.checkSchedule skip b v

def checkSize (b : B.Block) (v : View P.S) : Except P.E Unit :=
  check (!P.has_hardfork v 12 || decide (P.block_size b ≤ P.maximum_block_size v))
    (P.fail .block_size)

def checkVersion (b : B.Block) (v : View P.S) : Except P.E Unit :=
  check (!P.has_hardfork v 5 || P.runs_current_version v (P.witness b)) (P.fail .running_version)

def checkUndoHistory (v : View P.S) : Except P.E Unit :=
  check (skip.skip_undo_history_check ||
    decide (P.head_block_num v - P.last_irreversible_block_num v < STEEMIT_MAX_UNDO_HISTORY))
    (P.fail .undo_history)

def checkValid (trx : P.Tx) : Except P.E Unit :=
  if skip.skip_validate then .ok () else P.validate trx

/-- A missing active authority is let through in the blocks of `get_shared_db_merkle`. -/
def checkAuthority (trx : P.Tx) (v : View P.S) : Except P.E Unit :=
  if skip.skip_transaction_signatures || skip.skip_authority_check then .ok ()
  else
    match P.verify_authority v trx with
    | .ok _ => .ok ()
    | .error e =>
      if P.tx_missing_active_auth e && (P.shared_db_merkle (P.head_block_num v + 1)).isSome then
        .ok ()
      else .error e

def checkTapos (trx : P.Tx) (v : View P.S) : Except P.E Unit :=
  if skip.skip_tapos_check then .ok ()
  else
    match P.tapos_prefix v (P.ref_block_num trx) with
    | none => .error (P.fail .block_summary)
    | some p => check (decide (P.ref_block_prefix trx = p)) (P.fail .tapos)

def checkExpiration (trx : P.Tx) (v : View P.S) : Except P.E Unit := do
  let now := P.head_block_time v
  check (decide (P.expiration trx ≤ now + STEEMIT_MAX_TIME_UNTIL_EXPIRATION))
    (P.fail .expiration_too_far)
  check (!P.has_hardfork v 9 || decide (now < P.expiration trx)) (P.fail .expired)
  check (decide (now ≤ P.expiration trx)) (P.fail .expired)

/-- TaPoS and expiration, from the second block on. -/
def checkReference (trx : P.Tx) (v : View P.S) : Except P.E Unit :=
  if 0 < P.head_block_num v then do
    P.checkTapos skip trx v
    P.checkExpiration trx v
  else .ok ()

/-! ## Transactions -/

def isKnown (rows : OrdMap ℕ P.TransactionObject) (trx : P.Tx) : Bool :=
  rows.rows.any fun r => decide (r.2.trx_id = P.trx_id trx)

def is_known_transaction (v : View P.tables) (trx : P.Tx) : Bool := P.isKnown (View.added v) trx

def transactionObject (trx : P.Tx) : P.TransactionObject := ⟨P.trx_id trx, P.expiration trx, trx⟩

/-- The duplicate check. -/
def checkDuplicate (trx : P.Tx) : Prog P.tables P.E Unit :=
  .read fun v =>
    if skip.skip_transaction_dupe_check || !P.is_known_transaction v trx then .pure ()
    else .throw (P.fail .duplicate_transaction)

/-- The transaction goes into the table of known ones. -/
def noteTransaction (trx : P.Tx) : Prog P.tables P.E Unit :=
  if skip.skip_transaction_dupe_check then .pure ()
  else .create none (P.transactionObject trx) fun _ => .pure ()

/-- `_apply_transaction`. -/
def apply_transaction (trx : P.Tx) : Prog P.tables P.E Unit := do
  P.checked fun _ => P.checkValid skip trx
  P.checkDuplicate skip trx
  P.checked (P.checkAuthority skip trx)
  P.checked (P.checkReference skip trx)
  P.noteTransaction skip trx
  P.part (forAll P.apply_operation (P.operations trx))

/-- The transaction that expires first. -/
def earliest : List (ℕ × P.TransactionObject) → Option (ℕ × P.TransactionObject)
  | [] => none
  | r :: rest =>
    match earliest rest with
    | none => some r
    | some r' => if r.2.expiration ≤ r'.2.expiration then some r else some r'

/-- The loop of `clear_expired_transactions`; every round removes an object. -/
def clearExpired : ℕ → Prog P.tables P.E Unit
  | 0 => .pure ()
  | rounds + 1 => .read fun v =>
    match P.earliest (View.added v).rows with
    | none => .pure ()
    | some (i, o) =>
      if P.head_block_time (View.base v) > o.expiration then .remove none i (clearExpired rounds)
      else .pure ()

def clear_expired_transactions : Prog P.tables P.E Unit :=
  .read fun v => P.clearExpired (View.added v).rows.length

/-! ## Blocks -/

/-- `_apply_block` up to `update_signing_witness`. -/
def applyBefore (b : B.Block) : Prog P.tables P.E Unit := do
  P.checked fun _ => P.checkMerkle skip b
  P.checked (P.validate_block_header skip b)
  P.checked (P.checkSize b)
  P.part (P.setCurrentWitness b)
  P.part (P.process_header_extensions b)
  P.checked (P.checkVersion b)
  forAll (P.apply_transaction skip) (P.transactions b)
  P.part (P.update_global_dynamic_data b)
  P.checked (P.checkUndoHistory skip)
  P.part (P.update_signing_witness b)

/-- `_apply_block` from `create_block_summary` on. -/
def applyAfter (b : B.Block) : Prog P.tables P.E Unit := do
  P.part (P.create_block_summary b)
  P.clear_expired_transactions
  P.part (P.maintain b)

/-- The chain that a node of the protocol runs. -/
def chain : ChainSpec B P.tables where
  E := P.E
  Tx := P.Tx
  GenArgs := P.GenArgs
  head_block_id v := P.head_block_id (View.base v)
  head_block_num v := P.head_block_num (View.base v)
  last_irreversible_block_num v := P.last_irreversible_block_num (View.base v)
  transactions := P.transactions
  applyBefore := P.applyBefore
  updateIrreversible := P.part P.updateIrreversible
  applyAfter _ := P.applyAfter
  applyTransaction := P.apply_transaction
  is_known_transaction := P.is_known_transaction
  mayGenerate skip v := P.mayGenerate skip (View.base v)
  pack_size := P.trx_size
  expired := P.isExpired
  max_block_header_size := P.max_block_header_size
  maximum_block_size v := P.maximum_block_size (View.base v)
  assemble skip v := P.assemble skip (View.base v)
  fits := P.fits

end Protocol

end Calibrd.Chain
