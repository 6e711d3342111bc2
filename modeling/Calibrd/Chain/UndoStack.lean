import Calibrd.Chain.HeaderChain

/-!
# The undo stack and the reversible blocks

The undo stacks of all tables have the same depth and revisions in every run. Without pending
session they hold one session per block above the largest number that was ever committed. That is
the last irreversible block number as long as no block is reverted that moved it: `pop_block` brings
the old number back into the property object, but not the sessions that the commit dropped.
-/

namespace Calibrd.Chain

open Calibrd.Lib Calibrd.Chainbase Stateful SnapshotStack

variable {B : BlockSpec} {S : Schema} {C : ChainSpec B S}

/-- A node that was just opened on the contents `c`: no table has a session, and the revision is the
number of the head block. -/
structure Opened (L : ChainLaws C) (n : Node C) (c : Contents S) : Prop where
  inv : L.Inv c
  db : Refinement n.db ⟨c, [], C.head_block_num c.view⟩
  committed : n.committed = C.head_block_num c.view
  no_pending : n.pending_tx_session = false
  heap : ForkDatabase.HeapOk (fun _ => True) n.fork.heap

variable {s : SnapshotStack (Contents S)} {L : ChainLaws C} {n : Node C}

theorem Opened.nodeInvAt {T : Tracked L} {c : Contents S} (h : Opened L n c) (hc : T.R c)
    (hheap : ForkDatabase.HeapOk T.Ok n.fork.heap) :
    NodeInvAt T ⟨c, [], C.head_block_num c.view⟩ n := by
  refine ⟨⟨?_, ?_, hheap⟩, ?_⟩
  · rw [h.committed]
    exact .opened h.inv
  · intro _ c' hc'
    rw [values, List.map_nil, List.mem_singleton] at hc'
    exact hc' ▸ hc
  · rw [h.no_pending]
    exact h.db

/-- Nothing is asked of the blocks, and nothing is known of the contents but what the laws say. -/
def Tracked.trivial (L : ChainLaws C) : Tracked L where
  Flags _ := True
  Ok _ := True
  R _ := True
  guard _ := True
  guard_tail := id
  applied _ _ _ _ _ := True.intro
  stuck _ _ _ _ _ _ _ _ := True.intro

theorem Tracked.trivial_admits (L : ChainLaws C) (call : Call C) :
    (Tracked.trivial L).Admits call :=
  Tracked.admits_of_all (fun _ => True.intro) (fun _ => True.intro) call

/-- The undo stacks of a node: the same in every table, one session per uncommitted block when there
is no pending session, and undone together down to the last committed block. -/
structure MirrorsBlocks (n : Node C) : Prop where
  revision_eq : ∀ t t', (n.db t).revision = (n.db t').revision
  depth_eq : ∀ t t', (n.db t).stack.length = (n.db t').stack.length
  consecutive : ∀ t, (n.db t).stack.map UndoState.revision =
    countDown (n.db t).revision (n.db t).stack.length
  revision : n.pending_tx_session = false → ∀ t, (n.db t).revision = n.head_block_num
  depth : n.pending_tx_session = false →
    ∀ t, n.head_block_num = n.committed + (n.db t).stack.length
  lib_le : n.last_irreversible_block_num ≤ n.committed
  undo_all : ∃ db, n.db.undo_all = .ok db ∧ C.head_block_num db.view = n.committed ∧
    ∀ t, (db t).stack = []

theorem BlockStack.undoAll {committed : ℕ} (h : BlockStack L committed s) :
    BlockStack L committed s.undoAll := by
  induction hl : s.saved generalizing s with
  | nil =>
    rw [undoAll_of_nil hl]
    exact h
  | cons p l ih =>
    rw [undoAll_of_cons hl]
    exact ih h.undo (by simp only [SnapshotStack.undo, hl])

theorem Refinement.stack_revisions {db : Database S} (h : Refinement db s) (t : S.T) :
    (db t).stack.map UndoState.revision = s.saved.map Prod.fst := by
  have hrev := (h t).layers.revisions
  rw [hrev, SnapshotStack.map, List.map_map]
  rfl

theorem Refinement.depth {db : Database S} (h : Refinement db s) (t : S.T) :
    (db t).stack.length = s.saved.length := by
  simpa using congrArg List.length (stack_revisions h t)

/-- The parts that hold of any stack with consecutive revisions. -/
private theorem refined_consecutive (href : Refinement n.db s) (hs : Consecutive s.revision s.saved)
    (t : S.T) :
    (n.db t).stack.map UndoState.revision =
      countDown (n.db t).revision (n.db t).stack.length := by
  rw [Refinement.stack_revisions href t, hs.revisions, Refinement.depth href t]
  exact congrArg₂ countDown (href t).revision.symm rfl

theorem NodeInv.mirrorsBlocks {T : Tracked L} (h : NodeInv T n) :
    MirrorsBlocks n := by
  obtain ⟨s0, hbase, hdb⟩ := h
  -- the stack with the pending session, if there is one
  obtain ⟨s, href, hcons, hlib, hall, hclean⟩ : ∃ s, Refinement n.db s ∧
      Consecutive s.revision s.saved ∧
      C.last_irreversible_block_num s.cur.view = C.last_irreversible_block_num s0.cur.view ∧
      s.undoAll = s0.undoAll ∧ (n.pending_tx_session = false → s = s0) := by
    cases hp : n.pending_tx_session with
    | false =>
      rw [hp] at hdb
      exact ⟨s0, hdb, hbase.stack.consecutive, rfl, rfl, fun _ => rfl⟩
    | true =>
      rw [hp] at hdb
      obtain ⟨d, hd, href⟩ := hdb
      refine ⟨s0.start.setCur d, href, hbase.stack.consecutive.start, hd.lib, ?_, nofun⟩
      rw [undoAll_of_cons (s := s0.start.setCur d) rfl, undo_setCur_start]
  have hview : n.db.view = s.cur.view := href.view_eq
  refine ⟨?_, ?_, refined_consecutive href hcons, ?_, ?_, ?_, ?_⟩
  · intro t t'
    rw [(href t).revision, (href t').revision]
    rfl
  · intro t t'
    rw [Refinement.depth href t, Refinement.depth href t']
  · intro hp t
    rw [Node.head_block_num, hview, (href t).revision, hclean hp]
    exact hbase.stack.revision
  · intro hp t
    rw [Node.head_block_num, hview, Refinement.depth href t, hclean hp]
    exact hbase.stack.height
  · rw [Node.last_irreversible_block_num, hview, hlib]
    exact hbase.stack.lib_le _ s0.cur_mem_values
  · obtain ⟨db, hdb', href'⟩ := href.undo_all
    rw [hall] at href'
    have hstack := hbase.stack.undoAll
    have hnil := s0.undoAll_saved
    refine ⟨db, hdb', ?_, fun t => ?_⟩
    · have hheight := hstack.height
      rw [hnil] at hheight
      rw [href'.view_eq]
      exact hheight
    · refine List.length_eq_zero_iff.1 ?_
      rw [Refinement.depth href' t, hnil]
      rfl

theorem Opened.run_nodeInv {n₀ : Node C} {c₀ : Contents S} (h₀ : Opened L n₀ c₀)
    (calls : List (Call C)) : NodeInv (Tracked.trivial L) (n₀.run calls) :=
  Chain.run_nodeInv (fun call _ => Tracked.trivial_admits L call)
    ⟨_, h₀.nodeInvAt True.intro h₀.heap⟩

/-- In every run from an opened node, the undo stacks mirror the blocks above the largest committed
number, whatever the calls did and whether they returned or threw; and after `clear_pending` there is
no pending session. -/
theorem run_mirrorsBlocks (L : ChainLaws C) {n₀ : Node C} {c₀ : Contents S} (h₀ : Opened L n₀ c₀)
    (calls : List (Call C)) :
    MirrorsBlocks (n₀.run calls) ∧
      (n₀.run (calls ++ [.clear_pending])).pending_tx_session = false := by
  obtain ⟨s, hinv⟩ := h₀.run_nodeInv calls
  refine ⟨NodeInv.mirrorsBlocks ⟨s, hinv⟩, ?_⟩
  obtain ⟨db, hclear, -⟩ := clear_pending_clean hinv
  have hrun : n₀.run (calls ++ [.clear_pending]) = (clear_pending (n₀.run calls)).2 := by
    simp only [Node.run, List.foldl_append, List.foldl_cons, List.foldl_nil, Call.perform]
  rw [hrun, hclear]

namespace HeaderChain

theorem opened_genesis : Opened laws genesisNode genesis :=
  ⟨inv_genesis, refinement_genesis, rfl, rfl, .nil _⟩

theorem run_mirrorsBlocks_genesis :
    MirrorsBlocks (genesisNode.run (pushes (headers .zero 1 0 22) ++ [.pop_block])) ∧
      (genesisNode.run (pushes (headers .zero 1 0 22) ++ [.pop_block] ++
        [.clear_pending])).pending_tx_session = false :=
  run_mirrorsBlocks laws opened_genesis _

/-- After 22 blocks and one pop the head is block 21 and no block is irreversible, but the session of
block 1 is gone: it was committed with block 22. A restart goes back to block 1, not to block 0. -/
theorem pop_leaves_commit :
    let n := genesisNode.run (pushes (headers .zero 1 0 22) ++ [.pop_block])
    n.pending_tx_session = false ∧ n.head_block_num = 21 ∧ n.last_irreversible_block_num = 0 ∧
      (n.db ()).stack.length = 20 ∧
      n.db.undo_all.map (fun db => chain.head_block_num db.view) = .ok 1 := by
  decide +kernel

end HeaderChain

end Calibrd.Chain
