import Calibrd.Chain.ForkHead

/-!
# What the node does to the fork database

Between pushes the node prunes the index of the fork database, removes items from it and moves its
head. A property that survives these three (`ForkDatabase.Stable`) survives every function of the
node, whether it returns or throws, and with pushes every call.
-/

namespace Calibrd.Chain

open Calibrd.Lib Calibrd.Chainbase Stateful

variable {B : BlockSpec} {S : Schema} {C : ChainSpec B S}

/-- The property survives what the node does to the fork database besides pushes. -/
structure ForkDatabase.Stable (P : ForkDatabase B → Prop) : Prop where
  set_max_size : ∀ {f} s, P f → P (f.set_max_size s)
  remove : ∀ {f} id, P f → P (f.remove id)
  set_head : ∀ {f} p, P f → P (f.set_head p)

namespace ForkDatabase.Stable

variable {P : ForkDatabase B → Prop} {skip : SkipFlags} {b : B.Block}

theorem transactionsFree : TransactionsFree fun n : Node C => P n.fork :=
  ⟨fun _ _ _ hn => hn, fun _ _ _ hn => hn⟩

variable (h : Stable P)

include h

theorem blocksFree : BlocksFree fun n : Node C => P n.fork :=
  ⟨fun _ _ _ hn => hn, fun _ _ _ _ _ hn => hn, fun _ k hn => h.set_max_size k hn,
    fun _ id hn => h.remove id hn, fun _ p hn => h.set_head p hn⟩

/-! ## Pushes and calls -/

variable (hpush : ∀ {f f' : ForkDatabase B} {b}, P f → f.push_block b = .ok f' → P f')
include hpush

theorem push_block : Preserves (fun n => P n.fork) (Chain.push_block (C := C) skip b) :=
  transactionsFree.push_block <| h.blocksFree.switching._push_block h.blocksFree.applyInSession
    fun _ _ hn hf => hpush hn hf

theorem perform (call : Call C) :
    Preserves (fun n => P n.fork) call.perform := by
  cases call with
  | push_block skip b => exact .bind (h.push_block hpush) fun _ => .pure _
  | generate_block skip args =>
    refine .bind (.bind .get fun n => ?_) fun _ => .pure _
    split
    · exact .raise _
    · refine .bind (transactionsFree.tables.collectTransactions skip args) fun picked => ?_
      exact .bind .get fun n => .bind (.assert _ _) fun _ => .bind (h.push_block hpush) fun _ => .pure _
  | push_transaction skip trx => exact transactionsFree.push_transaction trx
  | pop_block => exact h.blocksFree.pop_block
  | clear_pending => exact transactionsFree.clear_pending

theorem run {n : Node C} (hn : P n.fork) (calls : List (Call C)) :
    P (n.run calls).fork := by
  induction calls generalizing n with
  | nil => exact hn
  | cons call rest ih => exact ih (h.perform hpush call n hn)

end ForkDatabase.Stable

end Calibrd.Chain
