import Calibrd.Chain.NodeRules

/-!
# What holds of a node in every run

The stack of snapshots without the pending session has one save per block above the largest
committed number, and each of its contents came from the one below by a block (`BlockStack`). A
property of contents that applied blocks keep is carried through every function of the node
(`Tracked`, `NodeInv`): through fork switches, failed pushes and pending transactions.
-/

namespace Calibrd.Chain

open Calibrd.Lib Calibrd.Chainbase Stateful

variable {B : BlockSpec} {S : Schema} {C : ChainSpec B S}

/-! ## The stack of applied blocks -/

/-- The stack of a node without pending session whose largest committed block number is
`committed`. -/
structure BlockStack (L : ChainLaws C) (committed : ℕ) (s : SnapshotStack (Contents S)) : Prop where
  revision : s.revision = C.head_block_num s.cur.view
  consecutive : SnapshotStack.Consecutive s.revision s.saved
  height : C.head_block_num s.cur.view = committed + s.saved.length
  linked : s.values.IsChain fun above below => ∃ b, AtBlock L below b above
  inv : ∀ c ∈ s.values, L.Inv c
  lib_le : ∀ c ∈ s.values, C.last_irreversible_block_num c.view ≤ committed

variable {skip : SkipFlags} {b : B.Block} {n' : Node C}

namespace BlockStack

variable {L : ChainLaws C} {committed : ℕ} {s : SnapshotStack (Contents S)}

theorem inv_cur (h : BlockStack L committed s) : L.Inv s.cur := h.inv _ s.cur_mem_values

theorem opened {c : Contents S} (hc : L.Inv c) :
    BlockStack L (C.head_block_num c.view) ⟨c, [], C.head_block_num c.view⟩ where
  revision := rfl
  consecutive := trivial
  height := rfl
  linked := by simp [SnapshotStack.values]
  inv := by simp [SnapshotStack.values, hc]
  lib_le := by simp [SnapshotStack.values, L.lib_le hc]

theorem undo (h : BlockStack L committed s) : BlockStack L committed s.undo := by
  have hpart := s.values_undo_suffix.isInfix
  have hlinked : s.undo.values.IsChain _ := List.IsChain.infix h.linked hpart
  have hmem : ∀ c ∈ s.undo.values, c ∈ s.values := fun c hc => hpart.subset hc
  have hconsecutive := h.consecutive.undo
  obtain ⟨cur, saved, revision⟩ := s
  cases saved with
  | nil => exact h
  | cons p l =>
    obtain ⟨r, c⟩ := p
    obtain ⟨⟨b, hb⟩, -⟩ := List.isChain_cons_cons.1 h.linked
    have hinv := h.inv c (List.mem_cons_of_mem _ List.mem_cons_self)
    -- the block on top has the next number
    have hnum : C.head_block_num cur.view = C.head_block_num c.view + 1 := by
      rw [hb.num, L.head_num hinv, hb.previous]
      rfl
    have hrev := h.revision
    have hheight := h.height
    simp only [List.length_cons] at hheight hrev
    refine ⟨?_, hconsecutive, ?_, hlinked, fun c hc => h.inv c (hmem c hc),
      fun c hc => h.lib_le c (hmem c hc)⟩
    · simp only [SnapshotStack.undo]
      omega
    · simp only [SnapshotStack.undo]
      omega

/-- A block on top, up to the commit of what it made irreversible. -/
theorem push (h : BlockStack L committed s) {c : Contents S} (hb : AtBlock L s.cur b c) :
    BlockStack L (max committed (C.last_irreversible_block_num c.view))
      ((s.start.setCur c).commit (C.last_irreversible_block_num c.view)) := by
  have hpart := (s.start.setCur c).values_commit_part (C.last_irreversible_block_num c.view)
  have hconsecutive : SnapshotStack.Consecutive (s.start.setCur c).revision
      (s.start.setCur c).saved := h.consecutive.start
  have hnum : C.head_block_num c.view = C.head_block_num s.cur.view + 1 := by
    rw [hb.num, L.head_num h.inv_cur, hb.previous]
    rfl
  have hrev : (s.start.setCur c).revision = C.head_block_num c.view := by
    have hr := h.revision
    simp only [SnapshotStack.start, SnapshotStack.setCur_revision]
    omega
  refine ⟨hrev, hconsecutive.commit _, ?_, ?_, ?_, ?_⟩
  · -- what was above the last irreversible block stays
    have hlib := L.lib_le hb.inv
    have hheight := h.height
    have hlen : (s.start.setCur c).saved.length = s.saved.length + 1 := rfl
    simp only [SnapshotStack.commit]
    rw [SnapshotStack.saved_commit_eq hconsecutive, List.length_take, hlen, hrev]
    simp only [SnapshotStack.setCur_cur]
    omega
  · refine List.IsChain.infix ?_ hpart
    exact List.isChain_cons_cons.2 ⟨⟨b, hb⟩, h.linked⟩
  · intro c' hc'
    rcases List.mem_cons.1 (hpart.subset hc') with rfl | hmem
    · exact hb.inv
    · exact h.inv c' hmem
  · intro c' hc'
    rcases List.mem_cons.1 (hpart.subset hc') with rfl | hmem
    · exact le_max_right _ _
    · exact (h.lib_le c' hmem).trans (le_max_left _ _)

end BlockStack

/-! ## Properties carried along a run -/

/-- A property `R` of contents that is carried along a run whose blocks satisfy `Ok` and whose flags
satisfy `Flags`. A block that makes itself irreversible and then throws stays half applied; `stuck`
covers these contents, under the condition `guard` on the reverted blocks. -/
structure Tracked (L : ChainLaws C) where
  Flags : SkipFlags → Prop
  Ok : B.Block → Prop
  R : Contents S → Prop
  guard : List (ℕ × ℕ) → Prop
  guard_tail : ∀ {p l}, guard (p :: l) → guard l
  applied : ∀ {skip b c c'}, Flags skip → Ok b → L.Inv c → R c → Applied C skip c b c' → R c'
  stuck : ∀ {skip b c c2 c3 l}, Flags skip → Ok b → L.Inv c → R c → Began C skip c b c2 →
    LeftAt C skip c2 b c3 → C.last_irreversible_block_num c3.view = B.block_num b →
    guard ((B.block_num b, C.last_irreversible_block_num c3.view) :: l) → R c3

variable {L : ChainLaws C}

/-- The part of the invariant that is about the stack without the pending session. -/
structure Base (T : Tracked L) (n : Node C) (s : SnapshotStack (Contents S)) : Prop where
  stack : BlockStack L n.committed s
  tracked : T.guard n.reverted → ∀ c ∈ s.values, T.R c
  heap : ForkDatabase.HeapOk T.Ok n.fork.heap

/-- The contents with the pending transactions applied have the same head. -/
structure SameHead (L : ChainLaws C) (c d : Contents S) : Prop where
  inv : L.Inv d
  id : C.head_block_id d.view = C.head_block_id c.view
  lib : C.last_irreversible_block_num d.view = C.last_irreversible_block_num c.view

/-- The invariant of a node with the stack `s` of applied blocks: its tables refine `s`, with the
pending session on top if there is one. -/
def NodeInvAt (T : Tracked L) (s : SnapshotStack (Contents S)) (n : Node C) : Prop :=
  Base T n s ∧
    if n.pending_tx_session then ∃ d, SameHead L s.cur d ∧ Refinement n.db (s.start.setCur d)
    else Refinement n.db s

/-- The invariant without pending session. -/
def CleanAt (T : Tracked L) (s : SnapshotStack (Contents S)) (n : Node C) : Prop :=
  n.pending_tx_session = false ∧ Base T n s ∧ Refinement n.db s

def NodeInv (T : Tracked L) (n : Node C) : Prop := ∃ s, NodeInvAt T s n

def Clean (T : Tracked L) (n : Node C) : Prop := ∃ s, CleanAt T s n

theorem CleanAt.nodeInvAt {T : Tracked L} {s : SnapshotStack (Contents S)} {n : Node C}
    (h : CleanAt T s n) : NodeInvAt T s n := by
  obtain ⟨hp, hbase, href⟩ := h
  refine ⟨hbase, ?_⟩
  rw [hp]
  exact href

namespace Base

variable {T : Tracked L} {n : Node C} {s : SnapshotStack (Contents S)}

theorem applied (h : Base T n s) {c2 c' : Contents S} (hflags : T.Flags skip) (hok : T.Ok b)
    (hb : Began C skip s.cur b c2) (hrun : (C.applyAfter skip b).run c2 = (.ok (), c'))
    (hcommitted : n'.committed = max n.committed (C.last_irreversible_block_num c2.view))
    (hreverted : n'.reverted = n.reverted) (hheap : n'.fork.heap = n.fork.heap) :
    Base T n' ((s.start.setCur c').commit (C.last_irreversible_block_num c2.view)) := by
  have hl : LeftAt C skip c2 b c' := Or.inr (by rw [hrun])
  obtain ⟨hat, hlib⟩ := hl.atBlock (hb.atBlock h.stack.inv_cur)
  refine ⟨?_, ?_, by rw [hheap]; exact h.heap⟩
  · rw [hcommitted, ← hlib]
    exact h.stack.push hat
  · intro hg c hc
    rw [hreverted] at hg
    have hmem := ((s.start.setCur c').values_commit_part _).subset hc
    rcases List.mem_cons.1 hmem with rfl | hmem
    · exact T.applied hflags hok h.stack.inv_cur (h.tracked hg _ s.cur_mem_values) ⟨c2, hb, hrun⟩
    · exact h.tracked hg c hmem

/-- A block that threw after the commit: its session is undone if it is still there. -/
theorem late (h : Base T n s) {c2 c3 : Contents S} (hflags : T.Flags skip) (hok : T.Ok b)
    (hb : Began C skip s.cur b c2) (hl : LeftAt C skip c2 b c3)
    (hcommitted : n'.committed = max n.committed (C.last_irreversible_block_num c2.view))
    (hreverted : n'.reverted =
      (B.block_num b, C.last_irreversible_block_num c3.view) :: n.reverted)
    (hheap : n'.fork.heap = n.fork.heap) :
    Base T n' ((s.start.setCur c3).commit (C.last_irreversible_block_num c2.view)).undo := by
  obtain ⟨hat, hlib⟩ := hl.atBlock (hb.atBlock h.stack.inv_cur)
  rw [← hlib] at hcommitted ⊢
  have hpush := h.stack.push hat
  refine ⟨by rw [hcommitted]; exact hpush.undo, ?_, by rw [hheap]; exact h.heap⟩
  intro hg c hc
  rw [hreverted] at hg
  have hold : ∀ c ∈ s.values, T.R c := h.tracked (T.guard_tail hg)
  have hpart := (s.start.setCur c3).values_commit_part
    (C.last_irreversible_block_num c3.view)
  have hheight := hpush.height
  cases hsaved : ((s.start.setCur c3).commit
      (C.last_irreversible_block_num c3.view)).saved with
  | nil =>
    -- nothing is left to undo: the block made itself irreversible
    rw [hsaved] at hheight
    have hcommit : n.committed ≤ C.head_block_num s.cur.view := by
      rw [h.stack.height]
      exact Nat.le_add_right _ _
    have hself : C.last_irreversible_block_num c3.view = B.block_num b := by
      have hnum := hat.num
      have hprev : B.block_num b = C.head_block_num s.cur.view + 1 := by
        rw [L.head_num h.stack.inv_cur, hat.previous]
        rfl
      simp only [SnapshotStack.commit_cur, SnapshotStack.setCur_cur, List.length_nil] at hheight
      omega
    have hmem := hpart.subset (((s.start.setCur c3).commit _).values_undo_suffix.subset hc)
    rcases List.mem_cons.1 hmem with rfl | hmem
    · exact T.stuck hflags hok h.stack.inv_cur (hold _ s.cur_mem_values) hb hl hself hg
    · exact hold c hmem
  | cons p rest =>
    have hpre : p :: rest <+: s.start.saved := by
      rw [← hsaved]
      exact List.rdropWhile_prefix _ _
    have hvalues : ((s.start.setCur c3).commit
        (C.last_irreversible_block_num c3.view)).undo.values = (p :: rest).map Prod.snd := by
      simp [SnapshotStack.undo, hsaved, SnapshotStack.values]
    rw [hvalues] at hc
    exact hold c ((hpre.map Prod.snd).subset hc)

theorem popped (h : Base T n s) {p : ℕ × ℕ} (hcommitted : n'.committed = n.committed)
    (hreverted : n'.reverted = p :: n.reverted) (hheap : n'.fork.heap = n.fork.heap) :
    Base T n' s.undo := by
  refine ⟨by rw [hcommitted]; exact h.stack.undo, ?_, by rw [hheap]; exact h.heap⟩
  intro hg c hc
  rw [hreverted] at hg
  exact h.tracked (T.guard_tail hg) c (s.values_undo_suffix.subset hc)

end Base

/-! ## Blocks keep the invariant -/

section Blocks

variable {T : Tracked L}

theorem Pruned.heap {f f' : ForkDatabase B} (h : Pruned f f') : f'.heap = f.heap := by
  rcases h with rfl | ⟨k, rfl⟩
  · rfl
  · exact f.set_max_size_heap k

theorem applyInSession_clean (held : List Ptr) (hflags : T.Flags skip) (hok : T.Ok b) :
    Preserves (Clean T) (applyInSession skip held b) := by
  rintro n ⟨s, hp, hbase, href⟩
  have hspec := applyInSession_spec skip held b href
  cases hres : applyInSession skip held b n with
  | mk r n' =>
    rw [hres] at hspec
    cases hspec with
    | applied hb hrun href' _ =>
      exact ⟨_, hp, hbase.applied hflags hok hb hrun rfl rfl (n.fork.set_max_size_heap _), href'⟩
    | early _ href' hr =>
      refine ⟨s, hp, ⟨hbase.stack, fun hg => hbase.tracked ?_, hbase.heap⟩, href'⟩
      rcases hr with rfl | ⟨p, rfl⟩
      · exact hg
      · exact T.guard_tail hg
    | late hb hleft hprune href' hr _ =>
      have hid := (hleft.atBlock (hb.atBlock hbase.stack.inv_cur)).1.id
      exact ⟨_, hp, hbase.late hflags hok hb hleft rfl (hr hid) hprune.heap, href'⟩

variable {s : SnapshotStack (Contents S)} {n : Node C}

/-- A pop that returns undoes the stack, one that throws leaves the node. -/
theorem pop_block_cleanAt (held : List Ptr) (h : CleanAt T s n) :
    ((n.fetch_block_by_id n.head_block_id = none ∨ ∃ e, n.fork.pop_block held = .error e) ∧
        ∃ e, pop_block held n = (.error e, n)) ∨
      ∃ f n', n.fork.pop_block held = .ok f ∧ pop_block held n = (.ok (), n') ∧ n'.fork = f ∧
        CleanAt T s.undo n' := by
  obtain ⟨hp, hbase, href⟩ := h
  have hspec := pop_block_spec held hp href
  cases hres : pop_block held n with
  | mk r n' =>
    rw [hres] at hspec
    cases hspec with
    | @failed e hwhy => exact Or.inl ⟨hwhy, e, rfl⟩
    | popped hb hf href' =>
      refine Or.inr ⟨_, _, hf, rfl, rfl, hp, ?_, href'⟩
      obtain ⟨item, p, prev, -, -, rfl⟩ := ForkDatabase.pop_block_ok hf
      exact hbase.popped rfl rfl rfl

theorem pop_block_clean (held : List Ptr) : Preserves (Clean T) (pop_block held) := by
  rintro n ⟨s, h⟩
  rcases pop_block_cleanAt held h with ⟨-, e, heq⟩ | ⟨f, n', -, heq, -, h'⟩
  · rw [heq]
    exact ⟨s, h⟩
  · rw [heq]
    exact ⟨_, h'⟩

theorem CleanAt.setFork (h : CleanAt T s n) {f : ForkDatabase B}
    (hf : ForkDatabase.HeapOk T.Ok f.heap) : CleanAt T s { n with fork := f } := by
  obtain ⟨hp, hbase, href⟩ := h
  exact ⟨hp, ⟨hbase.stack, hbase.tracked, hf⟩, href⟩

theorem setFork_clean {f : ForkDatabase B → ForkDatabase B} (hf : ∀ g, (f g).heap = g.heap) :
    Preserves (Clean T) (setFork f) := by
  rintro n ⟨s, h⟩
  refine ⟨s, h.setFork ?_⟩
  rw [hf]
  exact h.2.1.heap

theorem applyItem_clean (hflags : T.Flags skip) (held : List Ptr) (p : Ptr) :
    Preserves (Clean T) (applyItem skip held p) := by
  refine .get_bind fun n h => ?_
  cases hitem : n.fork.item? p with
  | none => exact h
  | some item =>
    obtain ⟨s, hs⟩ := h
    have hok : T.Ok item.data := hs.2.1.heap.blocks item (List.mem_of_getElem? hitem)
    exact applyInSession_clean held hflags hok n ⟨s, hs⟩

theorem clean_switching (hflags : T.Flags skip) : Switching (Clean T) skip :=
  ⟨pop_block_clean, applyItem_clean hflags, fun _ => setFork_clean fun g => g.remove_heap _,
    fun _ => setFork_clean fun g => g.set_head_heap _⟩

theorem CleanAt.pushFork (h : CleanAt T s n) (hok : T.Ok b) {f : ForkDatabase B}
    (hf : n.fork.push_block b = .ok f) :
    CleanAt T s { n with fork := f } :=
  h.setFork (h.2.1.heap.push hok hf)

theorem _push_block_clean (hflags : T.Flags skip) (hok : T.Ok b) :
    Preserves (Clean T) (_push_block skip b) :=
  (clean_switching hflags)._push_block (applyInSession_clean [] hflags hok)
    fun _ _ ⟨s, h⟩ hf => ⟨s, h.pushFork hok hf⟩

end Blocks

/-! ## Pending transactions keep the invariant -/

section Transactions

variable {T : Tracked L}

variable {n : Node C} {s : SnapshotStack (Contents S)}

/-- `_pending_tx_session.reset()` leaves the stack of applied blocks. -/
theorem resetPendingSession_clean (h : NodeInvAt T s n) :
    ∃ db, resetPendingSession n = (.ok (), { n with db := db, pending_tx_session := false }) ∧
      CleanAt T s { n with db := db, pending_tx_session := false } := by
  obtain ⟨hbase, hdb⟩ := h
  have hbase' : ∀ db, Base T { n with db := db, pending_tx_session := false } s :=
    fun _ => ⟨hbase.stack, hbase.tracked, hbase.heap⟩
  cases hp : n.pending_tx_session with
  | false =>
    rw [hp] at hdb
    obtain ⟨db, href, heq⟩ := resetPendingSession_spec hdb
    rw [hp] at href
    exact ⟨db, heq, rfl, hbase' db, href⟩
  | true =>
    rw [hp] at hdb
    obtain ⟨d, -, href⟩ := hdb
    obtain ⟨db, href', heq⟩ := resetPendingSession_spec href
    rw [hp, if_pos rfl, SnapshotStack.undo_setCur_start] at href'
    exact ⟨db, heq, rfl, hbase' db, href'⟩

theorem temporarySession_nodeInv {trx : C.Tx}
    {note : List C.Tx → List C.Tx} (hp : n.pending_tx_session = true) (h : NodeInvAt T s n) :
    NodeInvAt T s (temporarySession skip trx note n).2 ∧
      (temporarySession skip trx note n).2.pending_tx_session = true := by
  obtain ⟨hbase, hdb⟩ := h
  rw [hp] at hdb
  obtain ⟨d, hd, href⟩ := hdb
  have hspec := temporarySession_spec skip trx note href
  cases hres : temporarySession skip trx note n with
  | mk r n' =>
    rw [hres] at hspec
    cases hspec with
    | squashed hrun href' =>
      refine ⟨⟨⟨hbase.stack, hbase.tracked, hbase.heap⟩, ?_⟩, hp⟩
      rw [SnapshotStack.squash_setCur_start_start] at href'
      dsimp only
      rw [if_pos hp]
      exact ⟨_, ⟨L.transaction_inv hd.inv hrun, (L.transaction_id hd.inv hrun).trans hd.id,
        (L.transaction_lib hd.inv hrun).trans hd.lib⟩, href'⟩
    | undone href' =>
      refine ⟨⟨⟨hbase.stack, hbase.tracked, hbase.heap⟩, ?_⟩, hp⟩
      dsimp only
      rw [if_pos hp]
      exact ⟨d, hd, href'⟩

theorem openPendingSession_nodeInv (h : NodeInvAt T s n) :
    ∃ n', openPendingSession n = (.ok (), n') ∧ n'.pending_tx_session = true ∧
      NodeInvAt T s n' := by
  obtain ⟨hbase, hdb⟩ := h
  cases hp : n.pending_tx_session with
  | true =>
    rw [hp] at hdb
    obtain ⟨d, hd, href⟩ := hdb
    obtain ⟨db, href', heq⟩ := openPendingSession_spec href
    rw [withPending, if_pos hp] at href'
    exact ⟨_, heq, rfl, ⟨hbase.stack, hbase.tracked, hbase.heap⟩, d, hd, href'⟩
  | false =>
    rw [hp] at hdb
    obtain ⟨db, href', heq⟩ := openPendingSession_spec hdb
    rw [withPending, hp] at href'
    exact ⟨_, heq, rfl, ⟨hbase.stack, hbase.tracked, hbase.heap⟩, s.cur,
      ⟨hbase.stack.inv_cur, rfl, rfl⟩, href'⟩

variable {s : SnapshotStack (Contents S)}

theorem _push_transaction_nodeInv (skip : SkipFlags) (trx : C.Tx) :
    Preserves (NodeInvAt T s) (_push_transaction skip trx) := by
  intro n h
  obtain ⟨n', heq, hp, h'⟩ := openPendingSession_nodeInv h
  unfold _push_transaction
  rw [bind_of_ok heq]
  exact (temporarySession_nodeInv hp h').1

theorem NodeInvAt.setLists (h : NodeInvAt T s n) (pending popped : List C.Tx) :
    NodeInvAt T s { n with pending_tx := pending, popped_tx := popped } := by
  obtain ⟨hbase, hdb⟩ := h
  exact ⟨⟨hbase.stack, hbase.tracked, hbase.heap⟩, hdb⟩

theorem repush_nodeInv (skip : SkipFlags) (trx : C.Tx) :
    Preserves (NodeInvAt T s) (repush skip trx) := by
  refine .bind .get fun n => ?_
  split
  · exact .attempt (_push_transaction_nodeInv skip trx) fun _ => .pure _
  · exact .pure _

/-- The pending transactions come back on the stack that the blocks left. -/
theorem restorePending_nodeInv (skip : SkipFlags) (pending : List C.Tx) :
    Preserves (NodeInvAt T s) (restorePending skip pending) := by
  refine .bind .get fun n => ?_
  refine .bind (.forEach fun trx _ => repush_nodeInv skip trx) fun _ => ?_
  refine .bind (.update fun n h => h.setLists n.pending_tx []) fun _ => ?_
  exact .forEach fun trx _ => repush_nodeInv skip trx

end Transactions

/-! ## Calls and runs keep the invariant -/

section Runs

variable {T : Tracked L}

variable {n : Node C}

theorem clear_pending_clean {s : SnapshotStack (Contents S)} (h : NodeInvAt T s n) :
    ∃ db, clear_pending n =
        (.ok (), { n with db := db, pending_tx := [], pending_tx_session := false }) ∧
      CleanAt T s { n with db := db, pending_tx := [], pending_tx_session := false } :=
  resetPendingSession_clean (h.setLists [] n.popped_tx)

/-- What a program does inside `without_pending_transactions`: it starts on the node without pending
transactions, and what it leaves is what the pending transactions are put on. -/
theorem without_pending_transactions_spec {α : Type} (skip : SkipFlags) (body : NodeM C α)
    {s : SnapshotStack (Contents S)} (h : NodeInvAt T s n) :
    ∃ db, CleanAt T s { n with db := db, pending_tx := [], pending_tx_session := false } ∧
      without_pending_transactions skip body n =
        withDestructor body (restorePending skip n.pending_tx)
          { n with db := db, pending_tx := [], pending_tx_session := false } := by
  obtain ⟨db, hclear, hclean⟩ := clear_pending_clean (h.setLists [] n.popped_tx)
  refine ⟨db, hclean, ?_⟩
  unfold without_pending_transactions
  rw [get_bind_apply, bind_of_ok (update_apply _ n), bind_of_ok hclear]

theorem without_pending_transactions_nodeInv {α : Type} (skip : SkipFlags) {body : NodeM C α}
    (hbody : Preserves (Clean T) body) :
    Preserves (NodeInv T) (without_pending_transactions skip body) := by
  rintro n ⟨s, h⟩
  obtain ⟨db, hclean, heq⟩ := without_pending_transactions_spec skip body h
  obtain ⟨s', hs'⟩ := hbody _ ⟨s, hclean⟩
  rw [heq]
  exact ⟨s', restorePending_nodeInv skip n.pending_tx _ hs'.nodeInvAt⟩

theorem push_block_nodeInv (hflags : T.Flags skip) (hok : T.Ok b) :
    Preserves (NodeInv T) (push_block skip b) :=
  without_pending_transactions_nodeInv skip (_push_block_clean hflags hok)

theorem push_transaction_nodeInv (skip : SkipFlags) (trx : C.Tx) :
    Preserves (NodeInvAt T s) (push_transaction skip trx) :=
  .bind .get fun _ => .bind (.assert _ _) fun _ => _push_transaction_nodeInv skip trx

/-- A pop starts with the reset of the pending session. -/
theorem pop_block_reset (held : List Ptr) (h : resetPendingSession n = (.ok (), n'))
    (hp : n'.pending_tx_session = false) : pop_block held n = pop_block held n' := by
  unfold pop_block
  rw [bind_of_ok h, bind_of_ok (resetPendingSession_of_not hp)]

theorem pop_block_nodeInv (held : List Ptr) : Preserves (NodeInv T) (pop_block held) := by
  rintro n ⟨s, h⟩
  obtain ⟨db, heq, hclean⟩ := resetPendingSession_clean h
  rw [pop_block_reset held heq hclean.1]
  obtain ⟨s', hs'⟩ := pop_block_clean held _ ⟨s, hclean⟩
  exact ⟨s', hs'.nodeInvAt⟩

/-- The invariant with the pending session open, as in the loop of `_generate_block`. -/
def OpenAt (T : Tracked L) (s : SnapshotStack (Contents S)) (n : Node C) : Prop :=
  n.pending_tx_session = true ∧ NodeInvAt T s n

variable {s : SnapshotStack (Contents S)}

theorem tryTransaction_open (skip : SkipFlags) (trx : C.Tx) :
    Preserves (OpenAt T s) (tryTransaction skip trx) := by
  refine .attempt (.bind ?_ fun _ => .pure _) fun _ => .pure _
  rintro n ⟨hp, h⟩
  exact (temporarySession_nodeInv hp h).symm

/-- The transactions of a block are found without a trace in the stack of applied blocks. -/
theorem collectTransactions_nodeInv (skip : SkipFlags) (args : C.GenArgs) :
    Preserves (NodeInvAt T s) (collectTransactions skip args) := by
  intro n h
  obtain ⟨db1, hreset, hclean⟩ := resetPendingSession_clean h
  obtain ⟨n2, hopen, hp, h2⟩ := openPendingSession_nodeInv hclean.nodeInvAt
  unfold collectTransactions
  rw [get_bind_apply, bind_of_ok hreset, bind_of_ok hopen]
  have hpick := preserves_pickTransactions (tryTransaction_open (T := T) skip) args
    (C.maximum_block_size n.db.view) n.pending_tx C.max_block_header_size [] n2 ⟨hp, h2⟩
  cases hres : pickTransactions skip args (C.maximum_block_size n.db.view)
      n.pending_tx C.max_block_header_size [] n2 with
  | mk r n3 =>
    rw [hres] at hpick
    cases r with
    | error e =>
      rw [bind_of_error hres]
      exact hpick.2
    | ok picked =>
      obtain ⟨db4, hreset', hclean'⟩ := resetPendingSession_clean hpick.2
      rw [bind_of_ok hres, bind_of_ok hreset']
      exact hclean'.nodeInvAt

theorem generate_block_nodeInv {args : C.GenArgs} (hflags : T.Flags skip)
    (hok : ∀ v txs, T.Ok (C.assemble skip v args txs)) :
    Preserves (NodeInv T) (generate_block skip args) := by
  refine .bind .get fun n => ?_
  split
  · exact .raise _
  · refine .bind ?_ fun picked => ?_
    · rintro n ⟨s, h⟩
      exact ⟨s, collectTransactions_nodeInv skip args n h⟩
    refine .bind .get fun n => .bind (.assert _ _) fun _ => ?_
    exact .bind (push_block_nodeInv hflags (hok _ _)) fun _ => .pure _

/-- The blocks and flags of a call are those of the run. -/
def Tracked.Admits (T : Tracked L) : Call C → Prop
  | .push_block skip b => T.Flags skip ∧ T.Ok b
  | .generate_block skip args => T.Flags skip ∧ ∀ v txs, T.Ok (C.assemble skip v args txs)
  | .push_transaction _ _ => True
  | .pop_block => True
  | .clear_pending => True

theorem Tracked.admits_of_all (hflags : ∀ skip, T.Flags skip) (hok : ∀ b, T.Ok b) (call : Call C) :
    T.Admits call := by
  cases call with
  | push_block => exact ⟨hflags _, hok _⟩
  | generate_block => exact ⟨hflags _, fun _ _ => hok _⟩
  | push_transaction => exact True.intro
  | pop_block => exact True.intro
  | clear_pending => exact True.intro

/-- Every call keeps the invariant, whether it returns or throws. -/
theorem perform_nodeInv {call : Call C} (h : T.Admits call) : Preserves (NodeInv T) call.perform := by
  cases call with
  | push_block skip b => exact .bind (push_block_nodeInv h.1 h.2) fun _ => .pure _
  | generate_block skip args => exact .bind (generate_block_nodeInv h.1 h.2) fun _ => .pure _
  | push_transaction skip trx =>
    exact fun n ⟨s, hn⟩ => ⟨s, push_transaction_nodeInv skip trx n hn⟩
  | pop_block => exact pop_block_nodeInv []
  | clear_pending =>
    rintro n ⟨s, hn⟩
    obtain ⟨db, heq, hclean⟩ := clear_pending_clean hn
    rw [Call.perform, heq]
    exact ⟨s, hclean.nodeInvAt⟩

theorem run_nodeInv {calls : List (Call C)} (hcalls : ∀ call ∈ calls, T.Admits call)
    (h : NodeInv T n) : NodeInv T (n.run calls) := by
  induction calls generalizing n with
  | nil => exact h
  | cons call rest ih =>
    have hcall := perform_nodeInv (hcalls call List.mem_cons_self) n h
    exact ih (fun c hc => hcalls c (List.mem_cons_of_mem _ hc)) hcall

end Runs

end Calibrd.Chain
