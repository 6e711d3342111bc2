import Calibrd.Chain.PushOutcome

/-!
# The head of the fork database

The fork database and the object database each have a head. They agree as long as blocks extend the
head, are refused by the fork database, wait on a branch that is not higher, or are popped with a
session to undo. They part in three ways. A switch pops as many blocks from the fork database as from
the tables, but along the new branch, and never moves its head forward again. A block that fails on top
of the head is removed from the index, but stays the head. And a pop without a session moves one head
only.
-/

namespace Calibrd.Chain

open Calibrd.Lib Calibrd.Chainbase Stateful SnapshotStack

variable {B : BlockSpec} {S : Schema} {C : ChainSpec B S} {L : ChainLaws C}

/-! ## What transactions leave alone -/

/-- The part of a node that transactions do not change. -/
def Node.blockPart (n : Node C) : ForkDatabase B × List B.Block × ℕ × List (ℕ × ℕ) :=
  (n.fork, n.block_log, n.committed, n.reverted)

theorem Node.blockPart_eq {n n' : Node C} (h : n'.blockPart = n.blockPart) :
    n'.fork = n.fork ∧ n'.block_log = n.block_log ∧ n'.committed = n.committed := by
  simp only [blockPart, Prod.mk.injEq] at h
  exact ⟨h.1, h.2.1, h.2.2.1⟩

/-- The program keeps the blocks of the node. -/
def KeepsBlocks {α : Type} (m : NodeM C α) : Prop := ∀ x, Preserves (fun n => n.blockPart = x) m

namespace KeepsBlocks

theorem free (x : ForkDatabase B × List B.Block × ℕ × List (ℕ × ℕ)) :
    TransactionsFree fun n : Node C => n.blockPart = x :=
  ⟨fun _ _ _ hn => hn, fun _ _ _ hn => hn⟩

theorem push_transaction (skip : SkipFlags) (trx : C.Tx) : KeepsBlocks (push_transaction skip trx) :=
  fun x => (free x).push_transaction trx

theorem restorePending (skip : SkipFlags) (pending : List C.Tx) :
    KeepsBlocks (restorePending skip pending) :=
  fun x => (free x).restorePending pending

theorem fork_eq {α : Type} {m : NodeM C α} (h : KeepsBlocks m) (n : Node C) :
    (m n).2.fork = n.fork :=
  congrArg Prod.fst (h n.blockPart n rfl)

end KeepsBlocks

/-! ## Agreement of the heads -/

/-- The head of the fork database is the head block of the tables; at genesis there is none. -/
def Node.ForkAgrees (n : Node C) : Prop :=
  match n.fork.head with
  | none => n.head_block_id = B.zero
  | some p => ∃ item, n.fork.item? p = some item ∧ item.id = n.head_block_id

theorem Node.ForkAgrees.congr {n n' : Node C} (h : n.ForkAgrees) (hfork : n'.fork = n.fork)
    (hid : n'.head_block_id = n.head_block_id) : n'.ForkAgrees := by
  unfold ForkAgrees at h ⊢
  rw [hfork, hid]
  exact h

theorem Node.ForkAgrees.of_item {n : Node C} {p : Ptr} {item : ForkItem B} (hhead : n.fork.head = some p)
    (hitem : n.fork.item? p = some item) (hid : item.id = n.head_block_id) : n.ForkAgrees := by
  unfold ForkAgrees
  rw [hhead]
  exact ⟨item, hitem, hid⟩

section Agreement

variable {s : SnapshotStack (Contents S)} {n : Node C} {skip : SkipFlags} {b : B.Block}

variable {T : Tracked L}

/-- With agreeing heads, the item of the fork database's head has the number of the head block. -/
theorem Node.ForkAgrees.num_eq (ha : n.ForkAgrees) (h : NodeInvAt T s n) {item : ForkItem B}
    (hitem : n.fork.headItem = some item) : item.id = n.head_block_id ∧
      item.num = n.head_block_num := by
  have hid : item.id = n.head_block_id := by
    unfold ForkAgrees at ha
    unfold ForkDatabase.headItem at hitem
    cases hhead : n.fork.head with
    | none => rw [hhead] at hitem; cases hitem
    | some p =>
      rw [hhead] at ha hitem
      obtain ⟨item', hitem', hid⟩ := ha
      obtain rfl : item' = item := Option.some.inj (hitem'.symm.trans hitem)
      exact hid
  refine ⟨hid, ?_⟩
  rw [h.num_head_block_id, ← hid]
  exact (B.num_id item.data).symm

/-- Without a head in the fork database, the tables are at genesis. -/
theorem Node.ForkAgrees.num_of_none (ha : n.ForkAgrees) (h : NodeInvAt T s n)
    (hnone : n.fork.headItem = none) : n.head_block_num = 0 := by
  have hid : n.head_block_id = B.zero := by
    unfold ForkAgrees at ha
    unfold ForkDatabase.headItem at hnone
    cases hhead : n.fork.head with
    | none =>
      rw [hhead] at ha
      exact ha
    | some p =>
      rw [hhead] at ha hnone
      obtain ⟨item, hitem, -⟩ := ha
      rw [Option.bind_some, hitem] at hnone
      cases hnone
  rw [h.num_head_block_id, hid, B.num_zero]

/-- The heads agree once the block at the head of the fork database is applied. -/
theorem Node.ForkAgrees.extended {n' : Node C} {f : ForkDatabase B} {p : Ptr} {prev : Option Ptr}
    (hhead : f.head = some p) (hitem : f.item? p = some ⟨b, prev, false⟩)
    (hheap' : n'.fork.heap = f.heap) (hhead' : n'.fork.head = f.head)
    (hid : n'.head_block_id = B.id b) : n'.ForkAgrees := by
  have hitem' : n'.fork.item? p = some ⟨b, prev, false⟩ := by
    rw [ForkDatabase.item?_of_heap hheap']
    exact hitem
  exact .of_item (hhead'.trans hhead) hitem' hid.symm

theorem extendHead_returns {n' : Node C} {x : Bool} (h : CleanAt (Tracked.trivial L) s n)
    (hres : extendHead skip b n = (.ok x, n')) :
    ∃ s', CleanAt (Tracked.trivial L) s' n' ∧ Applied C skip s.cur b s'.cur ∧
      n'.fork.heap = n.fork.heap ∧ n'.fork.head = n.fork.head ∧ n'.head_block_id = B.id b := by
  obtain ⟨hp, hbase, href⟩ := h
  obtain ⟨_, n1, happ, hrest⟩ := bind_eq_ok hres
  obtain ⟨-, rfl⟩ := Prod.mk.inj hrest
  have hspec := applyInSession_spec skip [] b href
  rw [eq_ok_of_attempt (fun e m => not_returns_bind_raise _ e m) happ] at hspec
  cases hspec with
  | @applied c2 c' db blocks hb hrun href' =>
    have hat := Applied.atBlock (L := L) hbase.stack.inv_cur ⟨c2, hb, hrun⟩
    refine ⟨_, ⟨hp, hbase.applied True.intro True.intro hb hrun rfl rfl (n.fork.set_max_size_heap _),
      href'⟩, ⟨c2, hb, hrun⟩, n.fork.set_max_size_heap _, n.fork.set_max_size_head _, ?_⟩
    rw [Node.head_block_id, href'.view_eq]
    exact hat.id

/-- A block built on the head that the fork database takes goes on top. -/
theorem _push_block_on_head (hskip : skip.skip_fork_db = false)
    (h : CleanAt (Tracked.trivial L) s n) (ha : n.ForkAgrees) (hb : B.previous b = n.head_block_id)
    {f : ForkDatabase B} (hpush : n.fork.push_block b = .ok f) :
    ∃ prev, f.head = some n.fork.heap.length ∧
      f.item? n.fork.heap.length = some ⟨b, prev, false⟩ ∧
      _push_block skip b n = extendHead skip b { n with fork := f } := by
  -- the new block is higher than the head of the fork database
  obtain ⟨prev, hhead, hitem⟩ : ∃ prev, f.head = some n.fork.heap.length ∧
      f.item? n.fork.heap.length = some ⟨b, prev, false⟩ := by
    rcases ForkDatabase.push_block_head hpush with ⟨-, hnew⟩ | ⟨item, hold, hle, -⟩
    · exact hnew
    · exfalso
      obtain ⟨hitem, -⟩ := ha.num_eq h.nodeInvAt hold
      have hnum : B.block_num b = item.num + 1 := by
        rw [BlockSpec.block_num, hb, ← hitem]
        exact congrArg (· + 1) (B.num_id item.data)
      omega
  have hprev : (⟨b, prev, false⟩ : ForkItem B).previous_id =
      Node.head_block_id { n with fork := f } := hb
  exact ⟨prev, hhead, hitem,
    (_push_block_of_ok hskip hpush hhead hitem).trans (followHead_of_extend hprev)⟩

theorem Node.ForkAgrees.pending {n' : Node C} (ha : n.ForkAgrees) (h : NodeInvAt T s n)
    (h' : NodeInvAt T s n') (hfork : n'.fork = n.fork) : n'.ForkAgrees :=
  ha.congr hfork (h'.head_block_id.trans h.head_block_id.symm)

/-- A push of a block built on the head, if it returns, applies it. -/
theorem push_block_applied (hskip : skip.skip_fork_db = false)
    (h : NodeInvAt (Tracked.trivial L) s n) (ha : n.ForkAgrees)
    (hb : B.previous b = n.head_block_id) {x : Bool} {n' : Node C}
    (hres : push_block skip b n = (.ok x, n')) :
    n'.ForkAgrees ∧ n'.head_block_id = B.id b ∧
      ∃ s', NodeInvAt (Tracked.trivial L) s' n' ∧ Applied C skip s.cur b s'.cur := by
  obtain ⟨db, hclean, heq⟩ := without_pending_transactions_spec skip (_push_block skip b) h
  have ha1 := ha.pending h hclean.nodeInvAt rfl
  have hid := hclean.nodeInvAt.head_block_id.trans h.head_block_id.symm
  rw [push_block, heq, withDestructor] at hres
  obtain ⟨hfirst, hsecond⟩ := Prod.mk.inj hres
  cases hpush : n.fork.push_block b with
  | error e =>
    rw [_push_block_of_error
      (n := { n with db := db, pending_tx := [], pending_tx_session := false }) hskip hpush] at hfirst
    cases hfirst
  | ok f =>
    obtain ⟨prev, hhead, hitem, hbody⟩ := _push_block_on_head hskip hclean ha1 (hb.trans hid.symm) hpush
    rw [hbody] at hfirst hsecond
    obtain ⟨s', h', happ, hheap', hhead', hid'⟩ := extendHead_returns
      (hclean.pushFork (b := b) True.intro hpush) (Prod.ext hfirst rfl)
    have hfinal := restorePending_nodeInv skip n.pending_tx _ h'.nodeInvAt
    have hfork := (KeepsBlocks.restorePending skip n.pending_tx).fork_eq
      (extendHead skip b { n with
        db := db, fork := f, pending_tx := [], pending_tx_session := false }).2
    rw [hsecond] at hfinal hfork
    have hagrees := Node.ForkAgrees.extended hhead hitem hheap' hhead' hid'
    exact ⟨hagrees.pending h'.nodeInvAt hfinal hfork,
      (hfinal.head_block_id.trans h'.nodeInvAt.head_block_id.symm).trans hid', s', hfinal, happ⟩

/-! ## Conditions on the node before a push -/

/-- The block, which the fork database `f` took, is accepted on top of the head, and the blocks that it
makes irreversible are found. -/
def Node.Extends (n : Node C) (skip : SkipFlags) (b : B.Block) (f : ForkDatabase B) : Prop :=
  B.previous b = n.head_block_id ∧
    ((C.applyBlock skip b).exec (n.tablesBelow 0)).1.isOk = true ∧
    Node.CanLog { n with fork := f } skip []
      (C.last_irreversible_block_num ((C.applyBlock skip b).exec (n.tablesBelow 0)).2.view)

/-- The block is refused by the fork database, waits on a branch that is not higher, or goes on top of
the head. -/
def Node.PushKeepsHeads (n : Node C) (skip : SkipFlags) (b : B.Block) : Prop :=
  ∀ f ∈ (n.fork.push_block b).toOption,
    B.block_num b ≤ n.head_block_num ∨ n.Extends skip b f

theorem Node.PushKeepsHeads.pending {n' : Node C} (hb : n.PushKeepsHeads skip b)
    (h : NodeInvAt T s n) (h' : NodeInvAt T s n') (hpart : n'.blockPart = n.blockPart) :
    n'.PushKeepsHeads skip b := by
  obtain ⟨hfork, hlog, -⟩ := blockPart_eq hpart
  have hid := h'.head_block_id.trans h.head_block_id.symm
  have hnum := h'.head_block_num.trans h.head_block_num.symm
  simp only [PushKeepsHeads, Extends, CanLog, log_head_num, h.exec_below, h.view_below] at hb
  simpa only [PushKeepsHeads, Extends, CanLog, log_head_num, h'.exec_below, h'.view_below, hfork, hlog,
    hid, hnum] using hb

theorem _push_block_agrees (hskip : skip.skip_fork_db = false)
    (h : CleanAt (Tracked.trivial L) s n) (ha : n.ForkAgrees) (hb : n.PushKeepsHeads skip b) :
    (_push_block skip b n).2.ForkAgrees := by
  cases hpush : n.fork.push_block b with
  | error e =>
    rw [_push_block_of_error hskip hpush]
    exact ha
  | ok f =>
    have hinv := h.nodeInvAt
    have hpushed : CleanAt (Tracked.trivial L) s { n with fork := f } := h.pushFork True.intro hpush
    rcases hb f (by rw [hpush]; rfl) with hlow | ⟨hprev, hok, hcan⟩
    · -- the old head stays
      rcases ForkDatabase.push_block_head hpush with ⟨hhigh, -⟩ | ⟨item, hold, -, hhead⟩
      · exfalso
        cases hold : n.fork.headItem with
        | some item =>
          have hlt := hhigh item hold
          rw [(ha.num_eq hinv hold).2] at hlt
          omega
        | none =>
          rw [ha.num_of_none hinv hold] at hlow
          exact absurd hlow (Nat.not_succ_le_zero _)
      · obtain ⟨hid, hnum⟩ := ha.num_eq hinv hold
        obtain ⟨p, hp, hitem⟩ := Option.bind_eq_some_iff.1 hold
        have hitem' : f.item? p = some item := ForkDatabase.push_block_item hpush hitem
        have hother : item.previous_id ≠ n.head_block_id := by
          rw [← hid]
          exact (B.id_ne_previous item.data).symm
        rw [_push_block_of_ok hskip hpush (hhead.trans hp) hitem',
          followHead_of_stay (n := { n with fork := f }) item hother hnum.le]
        exact .of_item (hhead.trans hp) hitem' hid
    · -- the block goes on top
      obtain ⟨c', hrun, hview⟩ := hinv.run_below hok
      rw [hview] at hcan
      obtain ⟨prev, hhead, hitem, hbody⟩ := _push_block_on_head hskip h ha hprev hpush
      obtain ⟨n', s', happ, h', rfl, hfork', -⟩ :=
        applyInSession_of_applied hpushed (applied_iff.2 hrun) hcan
      have hext : extendHead skip b { n with fork := f } = (.ok false, n') :=
        bind_of_ok (attempt_of_ok happ)
      rw [hbody, hext]
      refine .extended hhead hitem (by rw [hfork', ForkDatabase.set_max_size_heap])
        (by rw [hfork', ForkDatabase.set_max_size_head]) ?_
      rw [h'.nodeInvAt.head_block_id]
      exact ((applied_iff.2 hrun).atBlock h.2.1.stack.inv_cur).id

/-- There is no block to pop, or no block below it in the fork database. -/
def Node.CannotPop (n : Node C) : Prop :=
  (n.fetch_block_by_id n.head_block_id).isNone = true ∨ (n.fork.pop_block []).isOk = false

/-- A pop throws if it cannot find what it needs, and then leaves blocks and tables. -/
theorem pop_block_cannot (h : NodeInvAt T s n) (hn : n.CannotPop) :
    ∃ n' e, pop_block [] n = (.error e, n') ∧ NodeInvAt T s n' ∧ n'.blockPart = n.blockPart := by
  obtain ⟨db, hreset, hclean⟩ := resetPendingSession_clean h
  have hid := hclean.nodeInvAt.head_block_id.trans h.head_block_id.symm
  rw [pop_block_reset [] hreset hclean.1]
  have hspec := pop_block_spec [] hclean.1 hclean.2.2
  cases hres : pop_block [] { n with db := db, pending_tx_session := false } with
  | mk r n' =>
    rw [hres] at hspec
    cases hspec with
    | failed => exact ⟨_, _, rfl, hclean.nodeInvAt, rfl⟩
    | popped hb hf =>
      exfalso
      rcases hn with hnone | hpop
      · rw [hid] at hb
        rw [show n.fetch_block_by_id n.head_block_id = _ from hb] at hnone
        cases hnone
      · rw [show n.fork.pop_block [] = _ from hf] at hpop
        cases hpop

/-- A pop keeps the agreement if there is a session to undo, or if it throws. -/
theorem pop_block_agrees (h : NodeInvAt (Tracked.trivial L) s n) (ha : n.ForkAgrees)
    (hn : n.committed < n.head_block_num ∨ n.CannotPop) :
    (pop_block [] n).2.ForkAgrees := by
  rcases hn with hhigh | hn
  swap
  · obtain ⟨n', e, heq, h', hpart⟩ := pop_block_cannot h hn
    rw [heq]
    exact ha.pending h h' (congrArg Prod.fst hpart)
  obtain ⟨db, hreset, hclean⟩ := resetPendingSession_clean h
  rw [pop_block_reset [] hreset hclean.1]
  rcases pop_block_cleanAt [] hclean with ⟨-, e, heq⟩ | ⟨f, n', hpop, heq, hfork, h'⟩
  · rw [heq]
    exact ha.pending h hclean.nodeInvAt rfl
  · rw [heq]
    rw [h.head_block_num] at hhigh
    obtain ⟨item, p, prev, hitem, hlock, hf⟩ := ForkDatabase.pop_block_ok hpop
    obtain ⟨hid, -⟩ := ha.num_eq h hitem
    obtain ⟨q, -, hq⟩ := Option.bind_eq_some_iff.1 hitem
    have hprev : prev.id = item.previous_id := h.1.heap.lock_id hq hlock
    -- the session below the top belongs to the previous block
    cases hl : s.saved with
    | nil =>
      rw [h.1.stack.height, hl] at hhigh
      exact absurd hhigh (lt_irrefl _)
    | cons q' l =>
      obtain ⟨-, b', hb'⟩ := h.1.stack.top_linked hl
      have hsame : B.id item.data = B.id b' := by
        rw [← hb'.id, ← h.head_block_id]
        exact hid
      have hhead' : n'.fork.head = some p := by rw [hfork, hf]
      have hitem' : n'.fork.item? p = some prev := by
        rw [hfork, hf]
        exact (ForkDatabase.lock_spec hlock).2.2
      refine .of_item hhead' hitem' ?_
      rw [hprev, h'.nodeInvAt.head_block_id, hb'.previous]
      exact B.previous_of_id _ _ hsame

theorem sealBlock_apply {args : C.GenArgs} {picked : List C.Tx}
    (hb : C.assemble skip n.db.view args picked = b) :
    sealBlock skip args picked n =
      if skip.skip_block_size_check || C.fits b then (push_block skip b >>= fun _ => pure b) n
      else (.error .block_too_big, n) := by
  unfold sealBlock
  rw [get_bind_apply, hb, bind_apply, assert_apply]
  cases skip.skip_block_size_check || C.fits b <;> rfl

/-- The block of the pending transactions, before its size is checked. -/
def Node.assembled (n : Node C) (skip : SkipFlags) (args : C.GenArgs) : Option B.Block :=
  match C.mayGenerate skip n.db.view args, collectTransactions skip args n with
  | .ok _, (.ok picked, n') => some (C.assemble skip n'.db.view args picked)
  | _, _ => none

/-- The block is pushed if it is not too big. -/
def Node.generated (n : Node C) (skip : SkipFlags) (args : C.GenArgs) : Option B.Block :=
  (n.assembled skip args).filter fun b => skip.skip_block_size_check || C.fits b

/-- Block production throws with blocks and tables as they were, or pushes a block on the head. -/
theorem generate_block_cases (skip : SkipFlags) (args : C.GenArgs)
    (h : NodeInvAt (Tracked.trivial L) s n) :
    ∃ n1, NodeInvAt (Tracked.trivial L) s n1 ∧ n1.blockPart = n.blockPart ∧
      ((∃ e, generate_block skip args n = (.error e, n1)) ∨
        ∃ b, n.generated skip args = some b ∧
          generate_block skip args n = (push_block skip b >>= fun _ => pure b) n1) := by
  unfold generate_block Node.generated Node.assembled
  rw [get_bind_apply]
  cases hmay : C.mayGenerate skip n.db.view args with
  | error e => exact ⟨n, h, rfl, .inl ⟨_, rfl⟩⟩
  | ok u =>
    have hcollect := collectTransactions_nodeInv skip args n h
    have hpart := (KeepsBlocks.free n.blockPart).tables.collectTransactions skip args n rfl
    cases hres : collectTransactions skip args n with
    | mk r n1 =>
      rw [hres] at hcollect hpart
      refine ⟨n1, hcollect, hpart, ?_⟩
      cases r with
      | error e => exact .inl ⟨e, bind_of_error hres⟩
      | ok picked =>
        dsimp only
        rw [bind_of_ok hres, sealBlock_apply rfl]
        split
        · next hfits => exact .inr ⟨_, Option.filter_eq_some_iff.2 ⟨rfl, hfits⟩, rfl⟩
        · exact .inl ⟨_, rfl⟩

end Agreement

/-! ## Runs -/

/-- The step meets a condition on the node before it: on the block that it pushes, also one that it
produces, or on the pop. -/
def Call.Keeps (push : Node C → SkipFlags → B.Block → Prop) (pop : Node C → Prop) (n : Node C) :
    Call C → Prop
  | .push_block skip b => push n skip b
  | .generate_block skip args => ∀ b ∈ n.generated skip args, push n skip b
  | .push_transaction _ _ => True
  | .pop_block => pop n
  | .clear_pending => True

section Rule

variable {P : Node C → Prop} {push : Node C → SkipFlags → B.Block → Prop} {pop : Node C → Prop}
  {n : Node C}

instance [∀ n skip b, Decidable (push n skip b)] [∀ n, Decidable (pop n)] :
    (call : Call C) → Decidable (call.Keeps push pop n)
  | .push_block _ _ => inferInstanceAs (Decidable (push _ _ _))
  | .generate_block _ _ => inferInstanceAs (Decidable (∀ b ∈ _, push _ _ _))
  | .push_transaction _ _ => isTrue True.intro
  | .pop_block => inferInstanceAs (Decidable (pop _))
  | .clear_pending => isTrue True.intro

variable (hsame : ∀ {s n n'}, NodeInvAt (Tracked.trivial L) s n → NodeInvAt (Tracked.trivial L) s n' →
    n'.blockPart = n.blockPart → (P n → P n') ∧ ∀ skip b, push n skip b → push n' skip b)
  (hpush : ∀ {s n skip b}, CleanAt (Tracked.trivial L) s n → P n → push n skip b →
    P (_push_block skip b n).2)
  (hpop : ∀ {s n}, NodeInvAt (Tracked.trivial L) s n → P n → pop n → P (pop_block [] n).2)

include hsame hpush

theorem push_block_keeps {s : SnapshotStack (Contents S)} {skip : SkipFlags} {b : B.Block}
    (h : NodeInvAt (Tracked.trivial L) s n) (hn : P n) (hb : push n skip b) :
    P (push_block skip b n).2 := by
  obtain ⟨db, hclean, heq⟩ := without_pending_transactions_spec skip (_push_block skip b) h
  obtain ⟨hstart, hcond⟩ := hsame h hclean.nodeInvAt rfl
  have hpushed := hpush hclean (hstart hn) (hcond skip b hb)
  obtain ⟨s', h'⟩ : Clean (Tracked.trivial L) (_push_block skip b _).2 :=
    _push_block_clean True.intro True.intro _ ⟨s, hclean⟩
  rw [push_block, heq, withDestructor]
  exact (hsame h'.nodeInvAt (restorePending_nodeInv skip n.pending_tx _ h'.nodeInvAt)
    (KeepsBlocks.restorePending skip n.pending_tx _ _ rfl)).1 hpushed

include hpop

theorem perform_keeps (h : NodeInv (Tracked.trivial L) n) (hn : P n) {call : Call C}
    (hcall : call.Keeps push pop n) : P (call.perform n).2 := by
  obtain ⟨s, h⟩ := h
  cases call with
  | push_block skip b =>
    rw [Call.perform, bind_pure_snd]
    exact push_block_keeps hsame hpush h hn hcall
  | generate_block skip args =>
    rw [Call.perform, bind_pure_snd]
    obtain ⟨n1, h1, hpart, hend⟩ := generate_block_cases skip args h
    obtain ⟨hstart, hcond⟩ := hsame h h1 hpart
    rcases hend with ⟨e, heq⟩ | ⟨b, hb, heq⟩ <;> rw [heq]
    · exact hstart hn
    · rw [bind_pure_snd _ fun _ => b]
      exact push_block_keeps hsame hpush h1 (hstart hn) (hcond skip b (hcall b hb))
  | push_transaction skip trx =>
    exact (hsame h (push_transaction_nodeInv skip trx n h)
      (KeepsBlocks.push_transaction skip trx _ n rfl)).1 hn
  | pop_block => exact hpop h hn hcall
  | clear_pending =>
    obtain ⟨db, heq, hclean⟩ := clear_pending_clean h
    rw [Call.perform, heq]
    exact (hsame h hclean.nodeInvAt rfl).1 hn

/-- What pushes and pops under the conditions keep, and what does not depend on pending transactions,
holds after a run. -/
theorem run_keeps (h : NodeInv (Tracked.trivial L) n) (hn : P n) {calls : List (Call C)}
    (hcalls : Node.Along (Call.Keeps push pop) n calls) : P (n.run calls) := by
  have hrun : NodeInv (Tracked.trivial L) (n.run calls) ∧ P (n.run calls) :=
    hcalls.rule (P := fun n => NodeInv (Tracked.trivial L) n ∧ P n)
      (fun {n call} h hcall => ⟨perform_nodeInv (Tracked.trivial_admits L call) n h.1,
        perform_keeps hsame hpush hpop h.1 h.2 hcall⟩) ⟨h, hn⟩
  exact hrun.2

end Rule

/-- The step keeps the heads together: a push uses the fork database and is one of those above, and a
pop has a session to undo or throws. -/
def Call.KeepsHeads : Node C → Call C → Prop :=
  Call.Keeps (fun n skip b => skip.skip_fork_db = false ∧ n.PushKeepsHeads skip b)
    fun n => n.committed < n.head_block_num ∨ n.CannotPop

instance (n : Node C) (skip : SkipFlags) (b : B.Block) : Decidable (n.PushKeepsHeads skip b) :=
  inferInstanceAs (Decidable (∀ f ∈ _, _ ∨ _ ∧ _ ∧ _))

instance (n : Node C) : Decidable n.CannotPop := inferInstanceAs (Decidable (_ ∨ _))

instance (n : Node C) (call : Call C) : Decidable (call.KeepsHeads n) :=
  inferInstanceAs (Decidable (call.Keeps _ _ n))

/-- In every run from an opened node whose steps all keep the heads together, the head of the fork
database is the head block of the tables. -/
theorem run_forkAgrees (L : ChainLaws C) {n₀ : Node C} {c₀ : Contents S} (h₀ : Opened L n₀ c₀)
    (ha : n₀.ForkAgrees) (calls : List (Call C)) (hcalls : Node.Along Call.KeepsHeads n₀ calls) :
    (n₀.run calls).ForkAgrees := by
  refine run_keeps (P := Node.ForkAgrees) (fun h h' hpart => ⟨fun ha => ?_, fun skip b hb => ?_⟩)
    (fun h ha hb => _push_block_agrees hb.1 h ha hb.2) pop_block_agrees (h₀.run_nodeInv []) ha hcalls
  · exact ha.pending h h' (congrArg Prod.fst hpart)
  · exact ⟨hb.1, hb.2.pending h h' hpart⟩

namespace HeaderChain

/-- A block, its sibling, and a block on the sibling: the third push returns `true` for the switch, and
the head of the fork database is the first block of the new branch, not the second. -/
theorem switch_leaves_fork_head :
    (push_block skip_nothing (⟨.block .zero 1 1, 2, 0⟩ : Header)
        (genesisNode.run (pushes [⟨.zero, 1, 0⟩, ⟨.zero, 1, 1⟩]))).1 = .ok true ∧
      (genesisNode.run switchCalls).head_block_id = .block (.block .zero 1 1) 2 0 ∧
      (genesisNode.run switchCalls).fork.headItem.map (·.id) = some (.block .zero 1 1) := by
  decide +kernel

/-- Three blocks, of which the third is a sibling of the second, and a pop. -/
def steadyCalls : List (Call chain) :=
  pushes [⟨.zero, 1, 0⟩, ⟨.block .zero 1 0, 2, 0⟩, ⟨.block .zero 1 0, 2, 1⟩] ++ [.pop_block]

theorem run_forkAgrees_steady :
    Node.Along Call.KeepsHeads genesisNode steadyCalls ∧ (genesisNode.run steadyCalls).ForkAgrees := by
  -- with variable calls, so that the elaborator does not run the fixed ones
  have hrun : ∀ calls, Node.Along Call.KeepsHeads genesisNode calls →
      Node.Along Call.KeepsHeads genesisNode calls ∧ (genesisNode.run calls).ForkAgrees :=
    fun calls hcalls => ⟨hcalls, run_forkAgrees laws opened_genesis rfl calls hcalls⟩
  exact hrun steadyCalls (by decide +kernel)

end HeaderChain

end Calibrd.Chain
