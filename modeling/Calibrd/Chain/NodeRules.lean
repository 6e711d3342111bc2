import Calibrd.Chain.Outcome

/-!
# Rules for the programs of a node

A predicate is carried through the programs of a node from the steps that they consist of, whether
they return or throw. What does not read the tables survives everything that works on them alone
(`TablesFree`), what does not read the transactions either survives these (`TransactionsFree`), and
what survives the steps of a fork switch survives the push of a block (`Switching`).
-/

namespace Calibrd.Chain

open Calibrd.Lib Calibrd.Chainbase Stateful

variable {B : BlockSpec} {S : Schema} {C : ChainSpec B S} {P : Node C → Prop}
  {skip : SkipFlags} {b : B.Block}

theorem preserves_liftFork_bind {α β : Type} {g : ForkDatabase B → Except ForkError α}
    {k : α → NodeM C β} (hk : ∀ n a, P n → g n.fork = .ok a → P (k a n).2) :
    Preserves P (liftFork g >>= k) := by
  intro n h
  cases hg : g n.fork with
  | ok a =>
    rw [bind_of_ok (liftFork_of_ok hg)]
    exact hk n a h hg
  | error e =>
    rw [bind_of_error (liftFork_of_error hg)]
    exact h

theorem preserves_pickTransactions (h : ∀ trx, Preserves P (tryTransaction skip trx))
    (args : C.GenArgs) (maximum : ℕ) (txs : List C.Tx) (size : ℕ) (picked : List C.Tx) :
    Preserves P (pickTransactions skip args maximum txs size picked) := by
  induction txs generalizing size picked with
  | nil => exact .pure _
  | cons trx rest ih =>
    unfold pickTransactions
    split
    · exact ih size picked
    · split
      · exact ih size picked
      · refine .bind (h trx) fun ok => ?_
        split
        · exact ih _ _
        · exact ih size picked

/-! ## Tables and transactions -/

/-- The predicate reads neither the tables nor whether the pending session is open. -/
def TablesFree (P : Node C → Prop) : Prop :=
  ∀ ⦃n⦄ db session, P n → P { n with db := db, pending_tx_session := session }

namespace TablesFree

variable (h : TablesFree P)

include h

theorem liftProg {α : Type} (p : Prog S C.E α) : Preserves P (liftProg p) := by
  intro n hn
  unfold Chain.liftProg
  cases p.exec n.db with
  | mk r db => cases r <;> exact h db n.pending_tx_session hn

theorem undo : Preserves P undo := by
  intro n hn
  unfold Chain.undo
  cases n.db.undo with
  | ok db => exact h db n.pending_tx_session hn
  | error e => exact hn

theorem inSession {body : NodeM C Unit} (hbody : Preserves P body) : Preserves P (inSession body) :=
  .bind (.update fun n hn => h _ n.pending_tx_session hn) fun _ =>
    .attempt hbody fun _ => .bind h.undo fun _ => .raise _

theorem resetPendingSession : Preserves P resetPendingSession := by
  refine .bind .get fun n => ?_
  split
  · exact .bind h.undo fun _ => .update fun n hn => h n.db _ hn
  · exact .pure _

theorem openPendingSession : Preserves P openPendingSession := by
  refine .bind .get fun n => ?_
  split
  · exact .pure _
  · exact .bind (.update fun n hn => h _ n.pending_tx_session hn) fun _ =>
      .update fun n hn => h n.db _ hn

theorem tryTransaction (trx : C.Tx) : Preserves P (tryTransaction skip trx) := by
  refine .attempt (.bind (h.inSession ?_) fun _ => .pure _) fun _ => .pure _
  exact .bind (h.liftProg _) fun _ => .bind (.update fun _ hn => hn) fun _ =>
    .update fun n hn => h _ n.pending_tx_session hn

theorem collectTransactions (skip : SkipFlags) (args : C.GenArgs) :
    Preserves P (collectTransactions skip args) :=
  .bind .get fun _ => .bind h.resetPendingSession fun _ => .bind h.openPendingSession fun _ =>
    .bind (preserves_pickTransactions h.tryTransaction args _ _ _ _) fun _ =>
      .bind h.resetPendingSession fun _ => .pure _

end TablesFree

/-- The predicate reads nothing that transactions change. -/
structure TransactionsFree (P : Node C → Prop) : Prop where
  tables : TablesFree P
  lists : ∀ ⦃n⦄ pending popped, P n → P { n with pending_tx := pending, popped_tx := popped }

namespace TransactionsFree

variable (h : TransactionsFree P)

include h

theorem _push_transaction (trx : C.Tx) : Preserves P (_push_transaction skip trx) := by
  refine .bind h.tables.openPendingSession fun _ => h.tables.inSession ?_
  exact .bind (h.tables.liftProg _) fun _ => .bind (.update fun n hn => h.lists _ n.popped_tx hn)
    fun _ => .update fun n hn => h.tables _ n.pending_tx_session hn

theorem push_transaction (trx : C.Tx) : Preserves P (push_transaction skip trx) :=
  .bind .get fun _ => .bind (.assert _ _) fun _ => h._push_transaction trx

theorem repush (trx : C.Tx) : Preserves P (repush skip trx) := by
  refine .bind .get fun n => ?_
  split
  · exact .attempt (h._push_transaction trx) fun _ => .pure _
  · exact .pure _

theorem restorePending (pending : List C.Tx) : Preserves P (restorePending skip pending) :=
  .bind .get fun _ => .bind (.forEach fun trx _ => h.repush trx) fun _ =>
    .bind (.update fun n hn => h.lists n.pending_tx _ hn) fun _ => .forEach fun trx _ => h.repush trx

theorem clear_pending : Preserves P clear_pending :=
  .bind (.update fun n hn => h.lists [] n.popped_tx hn) fun _ => h.tables.resetPendingSession

theorem push_block (hpush : Preserves P (_push_block skip b)) : Preserves P (push_block skip b) :=
  .bind .get fun n => .bind (.update fun n hn => h.lists [] n.popped_tx hn) fun _ =>
    .bind h.clear_pending fun _ => .withDestructor hpush (h.restorePending n.pending_tx)

end TransactionsFree

/-! ## Blocks -/

/-- The predicate survives the steps of a fork switch. -/
structure Switching (P : Node C → Prop) (skip : SkipFlags) : Prop where
  pop_block : ∀ held, Preserves P (pop_block held)
  applyItem : ∀ held p, Preserves P (applyItem skip held p)
  remove : ∀ id, Preserves P (setFork fun f => f.remove id)
  set_head : ∀ p, Preserves P (setFork fun f => f.set_head p)

namespace Switching

variable {held second : List Ptr} {target : B.Id} (h : Switching P skip)

include h

theorem popTo : Preserves P (popTo held target) := by
  have hloop : ∀ steps, Preserves P (popUntil held target steps) := by
    intro steps
    induction steps with
    | zero => exact .raise _
    | succ steps ih =>
      refine .bind .get fun n => ?_
      split
      · exact .pure _
      · exact .bind (h.pop_block held) fun _ => ih
  exact .bind .get fun _ => hloop _

theorem restoreBranch (failed : List Ptr) (e : NodeError C.E) :
    Preserves P (restoreBranch skip held second target failed e) := by
  refine .bind (.forEach fun p _ => .bind .get fun n => ?_) fun _ => ?_
  · split
    · exact .raise _
    · exact h.remove _
  · cases second with
    | nil => exact .raise _
    | cons front rest =>
      exact .bind (h.set_head front) fun _ => .bind h.popTo fun _ =>
        .bind (.forEach fun p _ => h.applyItem held p) fun _ => .raise _

theorem pushBranch (first : List Ptr) : Preserves P (pushBranch skip held second target first) := by
  induction first with
  | nil => exact .pure _
  | cons p rest ih =>
    exact .bind (.attempt (h.applyItem held p) fun e => h.restoreBranch _ e) fun _ => ih

theorem switchForks (head : Ptr) (newHead : ForkItem B) :
    Preserves P (switchForks skip head newHead) := by
  refine .bind .get fun n => preserves_liftFork_bind fun n' branches hn _ => ?_
  cases branches.2.getLast?.bind n.fork.item? with
  | none => exact hn
  | some last => exact (Preserves.bind h.popTo fun _ => h.pushBranch _) n' hn

variable (hb : Preserves P (applyInSession skip [] b))

include hb

theorem extendHead : Preserves P (extendHead skip b) :=
  .bind (.attempt hb fun _ => .bind (h.remove _) fun _ => .raise _) fun _ => .pure _

theorem followHead (p : Ptr) (newHead : ForkItem B) :
    Preserves P (followHead skip b p newHead) := by
  refine .bind .get fun n => ?_
  split
  · exact h.extendHead hb
  · split
    · exact .bind (h.switchForks p newHead) fun _ => .pure _
    · exact .pure _

theorem _push_block (hpush : ∀ n f, P n → n.fork.push_block b = .ok f → P { n with fork := f }) :
    Preserves P (_push_block skip b) := by
  unfold Chain._push_block
  split
  · exact h.extendHead hb
  · refine preserves_liftFork_bind fun n f hn hf => ?_
    rw [bind_of_ok (setFork_apply _ n)]
    cases f.head.bind f.entry? with
    | none => exact hpush n f hn hf
    | some entry => exact h.followHead hb entry.1 entry.2 _ (hpush n f hn hf)

end Switching

/-- The predicate survives what blocks do outside the tables. -/
structure BlocksFree (P : Node C → Prop) : Prop where
  tables : TablesFree P
  notes : ∀ ⦃n⦄ popped log committed reverted, P n →
    P { n with popped_tx := popped, block_log := log, committed := committed, reverted := reverted }
  set_max_size : ∀ ⦃n⦄ k, P n → P { n with fork := n.fork.set_max_size k }
  remove : ∀ ⦃n⦄ id, P n → P { n with fork := n.fork.remove id }
  set_head : ∀ ⦃n⦄ p, P n → P { n with fork := n.fork.set_head p }

namespace BlocksFree

variable {held : List Ptr} (h : BlocksFree P)

include h

theorem applyInSession : Preserves P (applyInSession skip held b) := by
  have hupdate : Preserves P (update_last_irreversible_block skip held) := by
    refine .bind (h.tables.liftProg _) fun _ => .bind (.update fun n hn => ?_) fun _ => ?_
    · exact h.notes n.popped_tx n.block_log _ n.reverted (h.tables _ n.pending_tx_session hn)
    refine .bind ?_ fun _ => .update fun n hn => h.set_max_size _ hn
    intro n hn
    obtain ⟨r, blocks, heq, -⟩ := logIrreversible_spec skip held n
    rw [heq]
    exact h.notes n.popped_tx _ n.committed n.reverted hn
  refine h.tables.inSession (.attempt ?_ fun e => .bind ?_ fun _ => .raise _)
  · exact .bind (h.tables.liftProg _) fun _ => .bind hupdate fun _ => h.tables.liftProg _
  · intro n hn
    rw [noteFailed_apply]
    exact h.notes n.popped_tx n.block_log n.committed _ hn

theorem pop_block : Preserves P (pop_block held) := by
  have hrest : ∀ num b, Preserves P (do
      noteReverted num
      undo
      update fun n => { n with popped_tx := C.transactions b ++ n.popped_tx }) := fun _ _ =>
    .bind (.update fun n hn => h.notes n.popped_tx n.block_log n.committed _ hn) fun _ =>
      .bind h.tables.undo fun _ => .update fun n hn => h.notes _ n.block_log n.committed n.reverted hn
  refine .bind h.tables.resetPendingSession fun _ => .bind .get fun n => ?_
  split
  · exact .raise _
  · refine preserves_liftFork_bind fun n' f hn hf => ?_
    obtain ⟨item, p, prev, -, -, rfl⟩ := ForkDatabase.pop_block_ok hf
    rw [bind_of_ok (setFork_apply _ n')]
    exact hrest _ _ _ (h.set_head p hn)

theorem switching : Switching P skip where
  pop_block _ := h.pop_block
  applyItem held p := by
    refine .bind .get fun n => ?_
    split
    · exact .raise _
    · exact h.applyInSession
  remove id := .update fun _ hn => h.remove id hn
  set_head p := .update fun _ hn => h.set_head p hn

end BlocksFree

end Calibrd.Chain
