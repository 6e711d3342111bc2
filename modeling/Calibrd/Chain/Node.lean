import Calibrd.Chain.ForkDatabase
import Calibrd.Chainbase.Database
import Calibrd.Lib.Runs

/-!
# The node: blocks, forks and pending transactions

`database::push_block`, `pop_block`, `push_transaction`, `clear_pending` and `generate_block` over the
object database, the fork database and the block log. What a block or a transaction does to the
tables is a program of the chain (`ChainSpec`); the node decides when it runs, in which session, and
what happens when it throws.

`_apply_block` is cut at `update_last_irreversible_block`, as that function reaches outside the
tables: it commits the undo stacks, writes the block log and prunes the fork database.
-/

namespace Calibrd.Chain

open Calibrd.Lib Calibrd.Chainbase Stateful

/-- `database::validation_steps`. -/
structure SkipFlags where
  skip_witness_signature : Bool := false
  skip_transaction_signatures : Bool := false
  skip_transaction_dupe_check : Bool := false
  skip_fork_db : Bool := false
  skip_block_size_check : Bool := false
  skip_tapos_check : Bool := false
  skip_authority_check : Bool := false
  skip_merkle_check : Bool := false
  skip_undo_history_check : Bool := false
  skip_witness_schedule_check : Bool := false
  skip_validate : Bool := false
  skip_validate_invariants : Bool := false
  skip_undo_block : Bool := false
  skip_block_log : Bool := false
deriving DecidableEq, Repr

def skip_nothing : SkipFlags := {}

/-- The chain that a node runs: what blocks and transactions do to the tables. -/
structure ChainSpec (B : BlockSpec) (S : Schema) where
  E : Type
  Tx : Type
  GenArgs : Type
  head_block_id : View S → B.Id
  head_block_num : View S → ℕ
  last_irreversible_block_num : View S → ℕ
  transactions : B.Block → List Tx
  /-- `_apply_block` up to `update_signing_witness`. -/
  applyBefore : SkipFlags → B.Block → Prog S E Unit
  /-- The part of `update_last_irreversible_block` that writes the property object. -/
  updateIrreversible : Prog S E Unit
  /-- `_apply_block` from `create_block_summary` on. -/
  applyAfter : SkipFlags → B.Block → Prog S E Unit
  /-- `_apply_transaction`. -/
  applyTransaction : SkipFlags → Tx → Prog S E Unit
  is_known_transaction : View S → Tx → Bool
  /-- The assertions of `_generate_block` before it touches the database. -/
  mayGenerate : SkipFlags → View S → GenArgs → Except E Unit
  pack_size : Tx → ℕ
  expired : GenArgs → Tx → Bool
  max_block_header_size : ℕ
  maximum_block_size : View S → ℕ
  /-- The signed block of `_generate_block`. -/
  assemble : SkipFlags → View S → GenArgs → List Tx → B.Block
  fits : B.Block → Bool

variable {B : BlockSpec} {S : Schema}

/-- The state of a node. The last two fields are not in the source and no function reads them: the
largest revision that was committed so far, and the number of every block that was reverted, with
the last irreversible block number at that moment. -/
structure Node (C : ChainSpec B S) where
  db : Database S
  fork : ForkDatabase B
  pending_tx : List C.Tx
  pending_tx_session : Bool
  popped_tx : List C.Tx
  block_log : List B.Block
  committed : ℕ
  reverted : List (ℕ × ℕ)

inductive NodeError (E : Type) where
  | fork (e : ForkError)
  | chain (e : Failure E)
  | undo_failed (e : IndexError)
  | pop_empty_chain
  | no_main_branch_block
  | transaction_too_big
  | block_too_big
  | empty_block_log
  | out_of_steps
deriving DecidableEq

section

variable {C : ChainSpec B S}

abbrev NodeM (C : ChainSpec B S) := Stateful (Node C) (NodeError C.E)

namespace Node

def head_block_id (n : Node C) : B.Id := C.head_block_id n.db.view

def head_block_num (n : Node C) : ℕ := C.head_block_num n.db.view

def last_irreversible_block_num (n : Node C) : ℕ := C.last_irreversible_block_num n.db.view

/-- The number of the last block in the log. -/
def log_head_num (n : Node C) : ℕ := (n.block_log.getLast?.map B.block_num).getD 0

def fetch_block_by_id (n : Node C) (id : B.Id) : Option B.Block :=
  match (n.fork.fetch_block id).bind n.fork.item? with
  | some item => some item.data
  | none =>
    (n.block_log.find? fun b => B.block_num b = B.num_from_id id).filter fun b => B.id b = id

end Node

/-! ## Sessions -/

def liftProg {α : Type} (p : Prog S C.E α) : NodeM C α := fun n =>
  match p.exec n.db with
  | (.ok a, db) => (.ok a, { n with db })
  | (.error e, db) => (.error (.chain e), { n with db })

def liftFork {α : Type} (f : ForkDatabase B → Except ForkError α) : NodeM C α := fun n =>
  match f n.fork with
  | .ok a => (.ok a, n)
  | .error e => (.error (.fork e), n)

def setFork (f : ForkDatabase B → ForkDatabase B) : NodeM C Unit :=
  update fun n => { n with fork := f n.fork }

def startSession : NodeM C Unit := update fun n => { n with db := n.db.start_undo_session }

def undo : NodeM C Unit := fun n =>
  match n.db.undo with
  | .ok db => (.ok (), { n with db })
  | .error e => (.error (.undo_failed e), n)

/-- A session around `body`: its destructor undoes it if `body` throws. What `body` does last
(`session.push()`, `session.squash()`) decides what becomes of it otherwise. -/
def inSession (body : NodeM C Unit) : NodeM C Unit := do
  startSession
  attempt body fun e => do undo; raise e

/-- `_pending_tx_session.reset()`. -/
def resetPendingSession : NodeM C Unit := do
  let n ← get
  if n.pending_tx_session then
    undo
    update fun n => { n with pending_tx_session := false }

/-! ## Blocks -/

/-- The loop that copies the blocks from number `num` on from the fork database to the log. -/
def appendLog (held : List Ptr) (num : ℕ) : ℕ → NodeM C Unit
  | 0 => pure ()
  | count + 1 => do
    let n ← get
    match n.fork.fetch_block_on_main_branch_by_number held num with
    | none => raise .no_main_branch_block
    | some item =>
      update fun n => { n with block_log := n.block_log ++ [item.data] }
      appendLog held (num + 1) count

/-- `commit( dpo.last_irreversible_block_num )`. -/
def commitIrreversible : NodeM C Unit := update fun n =>
  { n with
    db := n.db.commit n.last_irreversible_block_num
    committed := max n.committed n.last_irreversible_block_num }

variable (skip : SkipFlags)

/-- The blocks that became irreversible go to the block log. -/
def logIrreversible (held : List Ptr) : NodeM C Unit := do
  let n ← get
  if skip.skip_block_log then pure ()
  else appendLog held (n.log_head_num + 1) (n.last_irreversible_block_num - n.log_head_num)

/-- The blocks below the last irreversible one leave the fork database. -/
def pruneFork : NodeM C Unit := update fun n =>
  { n with fork := n.fork.set_max_size (n.head_block_num - n.last_irreversible_block_num + 1) }

/-- `update_last_irreversible_block`. -/
def update_last_irreversible_block (held : List Ptr) : NodeM C Unit := do
  liftProg C.updateIrreversible
  commitIrreversible
  logIrreversible skip held
  pruneFork

/-- `apply_block`. -/
def apply_block (held : List Ptr) (b : B.Block) : NodeM C Unit := do
  liftProg (C.applyBefore skip b)
  update_last_irreversible_block skip held
  liftProg (C.applyAfter skip b)

/-- The head block `num` is about to be taken back. -/
def noteReverted (num : ℕ) : NodeM C Unit :=
  update fun n => { n with reverted := (num, n.last_irreversible_block_num) :: n.reverted }

/-- A block that throws is taken back if it is the head already. -/
def noteFailed (b : B.Block) : NodeM C Unit := do
  let n ← get
  if n.head_block_id = B.id b then noteReverted (B.block_num b) else pure ()

/-- A block applied in a session of its own, as everywhere in `_push_block`. -/
def applyInSession (held : List Ptr) (b : B.Block) : NodeM C Unit :=
  inSession (attempt (apply_block skip held b) fun e => do
    noteFailed b
    raise e)

/-- `pop_block`. -/
def pop_block (held : List Ptr) : NodeM C Unit := do
  resetPendingSession
  let n ← get
  match n.fetch_block_by_id n.head_block_id with
  | none => raise .pop_empty_chain
  | some b =>
    let f ← liftFork (ForkDatabase.pop_block held)
    setFork fun _ => f
    noteReverted n.head_block_num
    undo
    update fun n => { n with popped_tx := C.transactions b ++ n.popped_tx }

/-- `while( head_block_id() != target ) pop_block();` -/
def popUntil (held : List Ptr) (target : B.Id) : ℕ → NodeM C Unit
  | 0 => raise .out_of_steps
  | steps + 1 => do
    let n ← get
    if n.head_block_id = target then pure ()
    else do
      pop_block held
      popUntil held target steps

/-- A bound for the rounds of `popUntil`: each moves the head of the fork database to a block with a
smaller number. -/
def popSteps (n : Node C) : ℕ := (n.fork.headItem.map (·.num)).getD 0 + 1

def popTo (held : List Ptr) (target : B.Id) : NodeM C Unit := do
  let n ← get
  popUntil held target (popSteps n)

/-- The block of an item, applied in a session of its own. -/
def applyItem (held : List Ptr) (p : Ptr) : NodeM C Unit := do
  let n ← get
  match n.fork.item? p with
  | none => raise (.fork .null_head)
  | some item => applyInSession skip held item.data

def removeItem (p : Ptr) : NodeM C Unit := do
  let n ← get
  match n.fork.item? p with
  | none => raise (.fork .null_head)
  | some item => setFork fun f => f.remove item.id

/-- What a fork switch does when a block of the new branch fails: the block and those above it leave
the fork database, and the old branch `second` is put back. -/
def restoreBranch (held second : List Ptr) (target : B.Id)
    (failed : List Ptr) (e : NodeError C.E) : NodeM C Unit := do
  forEach failed removeItem
  match second with
  | [] => raise (.fork .null_head)
  | front :: _ => setFork fun f => f.set_head front
  popTo held target
  forEach second.reverse (applyItem skip held)
  raise e

/-- The loop over the new branch, oldest block first. -/
def pushBranch (skip : SkipFlags) (held second : List Ptr) (target : B.Id) : List Ptr → NodeM C Unit
  | [] => pure ()
  | p :: rest => do
    attempt (applyItem skip held p) (restoreBranch skip held second target (p :: rest))
    pushBranch skip held second target rest

/-- The fork switch to the head of the fork database. -/
def switchForks (head : Ptr) (newHead : ForkItem B) : NodeM C Unit := do
  let n ← get
  let branches ← liftFork fun f => f.fetch_branch_from newHead.id n.head_block_id
  let held := head :: branches.1 ++ branches.2
  match branches.2.getLast?.bind n.fork.item? with
  | none => raise (.fork .null_head)
  | some last => do
    popTo held last.previous_id
    pushBranch skip held branches.2 last.previous_id branches.1.reverse

/-- The last part of `_push_block`: the block goes on top of the head. -/
def extendHead (b : B.Block) : NodeM C Bool := do
  attempt (applyInSession skip [] b) fun e => do
    setFork fun f => f.remove (B.id b)
    raise e
  pure false

/-- What `_push_block` does after the fork database took the block: a head that does not build on the
head of the tables is switched to if it is higher. -/
def followHead (b : B.Block) (p : Ptr) (newHead : ForkItem B) : NodeM C Bool := do
  let n ← get
  if newHead.previous_id = n.head_block_id then extendHead skip b
  else if newHead.num > n.head_block_num then do
    switchForks skip p newHead
    pure true
  else pure false

/-- `_push_block`. -/
def _push_block (b : B.Block) : NodeM C Bool :=
  if skip.skip_fork_db then extendHead skip b
  else do
    let f ← liftFork fun f => f.push_block b
    setFork fun _ => f
    match f.head.bind f.entry? with
    | some (p, newHead) => followHead skip b p newHead
    | none => raise (.fork .null_head)

/-! ## Transactions -/

/-- The pending session is opened with the first pending transaction. -/
def openPendingSession : NodeM C Unit := do
  let n ← get
  if n.pending_tx_session then pure ()
  else do
    startSession
    update fun n => { n with pending_tx_session := true }

def squashSession : NodeM C Unit := update fun n => { n with db := n.db.squash }

/-- A transaction in a temporary session that is squashed at the end; `note` is what becomes of the
list of pending transactions. -/
def temporarySession (trx : C.Tx) (note : List C.Tx → List C.Tx) : NodeM C Unit :=
  inSession do
    liftProg (C.applyTransaction skip trx)
    update fun n => { n with pending_tx := note n.pending_tx }
    squashSession

/-- `_push_transaction`. -/
def _push_transaction (trx : C.Tx) : NodeM C Unit := do
  openPendingSession
  temporarySession skip trx (· ++ [trx])

/-- `push_transaction`. -/
def push_transaction (trx : C.Tx) : NodeM C Unit := do
  let n ← get
  assert (decide (C.pack_size trx + 256 ≤ C.maximum_block_size n.db.view)) .transaction_too_big
  _push_transaction skip trx

/-- `clear_pending`. -/
def clear_pending : NodeM C Unit := do
  update fun n => { n with pending_tx := [] }
  resetPendingSession

/-- A transaction that comes back to the pending ones, unless it is known or fails. -/
def repush (trx : C.Tx) : NodeM C Unit := do
  let n ← get
  if !C.is_known_transaction n.db.view trx then
    attempt (_push_transaction skip trx) fun _ => pure ()

/-- The destructor of `pending_transactions_restorer`. -/
def restorePending (pending : List C.Tx) : NodeM C Unit := do
  let n ← get
  forEach n.popped_tx (repush skip)
  update fun n => { n with popped_tx := [] }
  forEach pending (repush skip)

/-- `without_pending_transactions`. -/
def without_pending_transactions {α : Type} (skip : SkipFlags) (body : NodeM C α) : NodeM C α := do
  let n ← get
  update fun n => { n with pending_tx := [] }
  clear_pending
  withDestructor body (restorePending skip n.pending_tx)

/-- `push_block`. -/
def push_block (b : B.Block) : NodeM C Bool :=
  without_pending_transactions skip (_push_block skip b)

/-! ## Block production -/

/-- A pending transaction applied again, where an exception is ignored. -/
def tryTransaction (trx : C.Tx) : NodeM C Bool :=
  attempt (do
    temporarySession skip trx id
    pure true) fun _ => pure false

/-- The loop of `_generate_block` that applies the pending transactions again, and picks those that
go into the block. -/
def pickTransactions (skip : SkipFlags) (args : C.GenArgs) (maximum : ℕ) :
    List C.Tx → ℕ → List C.Tx → NodeM C (List C.Tx)
  | [], _, picked => pure picked
  | trx :: rest, size, picked =>
    if C.expired args trx then pickTransactions skip args maximum rest size picked
    else if size + C.pack_size trx ≥ maximum then
      pickTransactions skip args maximum rest size picked
    else do
      let ok ← tryTransaction skip trx
      if ok then
        pickTransactions skip args maximum rest (size + C.pack_size trx) (picked ++ [trx])
      else pickTransactions skip args maximum rest size picked

/-- The pending session is rebuilt to find the transactions of the block, and dropped. -/
def collectTransactions (args : C.GenArgs) : NodeM C (List C.Tx) := do
  let n ← get
  resetPendingSession
  openPendingSession
  let picked ← pickTransactions skip args (C.maximum_block_size n.db.view) n.pending_tx
    C.max_block_header_size []
  resetPendingSession
  pure picked

/-- The block of the picked transactions is checked for its size and pushed. -/
def sealBlock (args : C.GenArgs) (picked : List C.Tx) : NodeM C B.Block := do
  let n ← get
  let b := C.assemble skip n.db.view args picked
  assert (skip.skip_block_size_check || C.fits b) .block_too_big
  let _ ← push_block skip b
  pure b

/-- `_generate_block`. -/
def generate_block (args : C.GenArgs) : NodeM C B.Block := do
  let n ← get
  match C.mayGenerate skip n.db.view args with
  | .error e => raise (.chain (.thrown e))
  | .ok _ => do
    let picked ← collectTransactions skip args
    sealBlock skip args picked

/-! ## Runs -/

/-- The calls from outside. -/
inductive Call (C : ChainSpec B S) where
  | push_block (skip : SkipFlags) (b : B.Block)
  | generate_block (skip : SkipFlags) (args : C.GenArgs)
  | push_transaction (skip : SkipFlags) (trx : C.Tx)
  | pop_block
  | clear_pending

/-- A call, without what it returns. -/
def Call.perform : Call C → NodeM C Unit
  | .push_block skip b => do let _ ← Chain.push_block skip b
  | .generate_block skip args => do let _ ← Chain.generate_block skip args
  | .push_transaction skip trx => Chain.push_transaction skip trx
  | .pop_block => Chain.pop_block []
  | .clear_pending => Chain.clear_pending

/-- A run of calls, whether they return or throw. -/
def Node.run (n : Node C) (calls : List (Call C)) : Node C :=
  calls.foldl (fun n call => (call.perform n).2) n

/-- Every call of the run meets the condition on the node before it. -/
abbrev Node.Along (allowed : Node C → Call C → Prop) : Node C → List (Call C) → Prop :=
  Always (fun n call => (call.perform n).2) allowed

end

end Calibrd.Chain
