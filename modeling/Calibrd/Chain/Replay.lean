import Calibrd.Chain.UndoStack

/-!
# The state of a node is a replay of its main chain

Whatever was pushed, popped and switched to on the way, the contents of the tables without the
pending transactions are those that the blocks from genesis to the head produce, applied in order.
The only exception is a block that becomes irreversible while it is applied and then throws: it can
no longer be undone.
-/

namespace Calibrd.Chain

open Calibrd.Lib Calibrd.Chainbase Stateful

variable {B : BlockSpec} {S : Schema} {C : ChainSpec B S}

/-- What `_apply_block` does to the tables. -/
def ChainSpec.applyBlock (C : ChainSpec B S) (skip : SkipFlags) (b : B.Block) : Prog S C.E Unit :=
  (C.applyBefore skip b).bind fun _ => C.updateIrreversible.bind fun _ => C.applyAfter skip b

/-- The blocks, each with its flags, applied in order to contents without any session. -/
def replay (C : ChainSpec B S) (c : Contents S) :
    List (SkipFlags × B.Block) → Except (Failure C.E) (Contents S)
  | [] => .ok c
  | (skip, b) :: rest =>
    match (C.applyBlock skip b).run c with
    | (.ok _, c') => replay C c' rest
    | (.error e, _) => .error e

/-- The blocks lead from one head to another, each built on the one before. -/
def Linked (B : BlockSpec) : B.Id → List B.Block → B.Id → Prop
  | first, [], last => first = last
  | first, b :: rest, last => B.previous b = first ∧ Linked B (B.id b) rest last

variable {calls : List (Call C)} {b : B.Block} {skip : SkipFlags}

theorem Applied.run_applyBlock {c c' : Contents S} (h : Applied C skip c b c') :
    (C.applyBlock skip b).run c = (.ok (), c') := by
  obtain ⟨c2, ⟨c1, hbefore, hupdate⟩, hafter⟩ := h
  simp only [ChainSpec.applyBlock, Prog.run_bind, hbefore, hupdate, hafter]

theorem replay_snoc {c c1 c2 : Contents S} {l : List (SkipFlags × B.Block)}
    (h : replay C c l = .ok c1) (hb : (C.applyBlock skip b).run c1 = (.ok (), c2)) :
    replay C c (l ++ [(skip, b)]) = .ok c2 := by
  induction l generalizing c with
  | nil =>
    cases h
    simp only [List.nil_append, replay, hb]
  | cons p rest ih =>
    obtain ⟨skip', b'⟩ := p
    simp only [replay, List.cons_append] at h ⊢
    cases hrun : (C.applyBlock skip' b').run c with
    | mk r c' =>
      rw [hrun] at h
      cases r with
      | ok u => exact ih h
      | error e => cases h

theorem Linked.snoc {first last : B.Id} {l : List B.Block} (h : Linked B first l last)
    (hb : B.previous b = last) :
    Linked B first (l ++ [b]) (B.id b) := by
  induction l generalizing first with
  | nil => exact ⟨hb.trans (Eq.symm h), rfl⟩
  | cons a rest ih => exact ⟨h.1, ih h.2⟩

/-- The block comes into the node with this call. -/
def Call.Brings : Call C → B.Block → Prop
  | .push_block _ b, b' => b' = b
  | .generate_block skip args, b' => ∃ v txs, b' = C.assemble skip v args txs
  | .push_transaction _ _, _ => False
  | .pop_block, _ => False
  | .clear_pending, _ => False

/-- Blocks are applied in this call under these flags. -/
def Call.Uses : Call C → SkipFlags → Prop
  | .push_block skip _, skip' => skip' = skip
  | .generate_block skip _, skip' => skip' = skip
  | .push_transaction _ _, _ => False
  | .pop_block, _ => False
  | .clear_pending, _ => False

/-- Blocks that came in with the calls, under flags of the calls, lead from `g` to `c`. -/
def Reached (C : ChainSpec B S) (calls : List (Call C)) (g c : Contents S) : Prop :=
  ∃ l : List (SkipFlags × B.Block),
    (∀ p ∈ l, (∃ call ∈ calls, call.Uses p.1) ∧ ∃ call ∈ calls, call.Brings p.2) ∧
    Linked B (C.head_block_id g.view) (l.map Prod.snd) (C.head_block_id c.view) ∧
    replay C g l = .ok c

theorem Reached.applied {L : ChainLaws C} {g c c' : Contents S} (h : Reached C calls g c)
    (hc : L.Inv c) (huses : ∃ call ∈ calls, call.Uses skip)
    (hbrings : ∃ call ∈ calls, call.Brings b) (hb : Applied C skip c b c') :
    Reached C calls g c' := by
  obtain ⟨l, hl, hlinked, hreplay⟩ := h
  have hat := hb.atBlock hc
  refine ⟨l ++ [(skip, b)], ?_, ?_, replay_snoc hreplay hb.run_applyBlock⟩
  · intro p hp
    rcases List.mem_append.1 hp with hp | hp
    · exact hl p hp
    · obtain rfl := List.mem_singleton.1 hp
      exact ⟨huses, hbrings⟩
  · rw [List.map_append, hat.id]
    exact hlinked.snoc hat.previous.symm

/-- Replayed contents, as long as no block is reverted that was at or below the last irreversible
block when it was reverted. -/
def Tracked.reached (L : ChainLaws C) (calls : List (Call C)) (g : Contents S) : Tracked L where
  Flags skip := ∃ call ∈ calls, call.Uses skip
  Ok b := ∃ call ∈ calls, call.Brings b
  R c := Reached C calls g c
  guard reverted := ∀ p ∈ reverted, p.2 < p.1
  guard_tail h p hp := h p (List.mem_cons_of_mem _ hp)
  applied hflags hok hc hr hb := hr.applied hc hflags hok hb
  stuck {_ b _ _ c3 _} _ _ _ _ _ _ hself hg := by
    have hlt : C.last_irreversible_block_num c3.view < B.block_num b :=
      hg _ List.mem_cons_self
    exact absurd hself hlt.ne

/-- Where the flags and the blocks of the calls are those of `T`, the calls are admitted. -/
theorem Tracked.admits_of_mem {L : ChainLaws C} {T : Tracked L}
    (hflags : ∀ skip, (∃ call ∈ calls, call.Uses skip) → T.Flags skip)
    (hok : ∀ b, (∃ call ∈ calls, call.Brings b) → T.Ok b) {call : Call C} (h : call ∈ calls) :
    T.Admits call := by
  cases call with
  | push_block skip b => exact ⟨hflags _ ⟨_, h, rfl⟩, hok _ ⟨_, h, rfl⟩⟩
  | generate_block skip args =>
    exact ⟨hflags _ ⟨_, h, rfl⟩, fun v txs => hok _ ⟨_, h, v, txs, rfl⟩⟩
  | push_transaction => exact True.intro
  | pop_block => exact True.intro
  | clear_pending => exact True.intro

/-- The tables of the node hold the contents `c`, next ids included. -/
def Node.Holds (n : Node C) (c : Contents S) : Prop :=
  ∀ t, (n.db t).indices = (c t).rows ∧ (n.db t).next_id = (c t).next_id

/-- In every run from genesis in which no block is reverted that is at or below the last irreversible
block, the tables without the pending transactions hold what the blocks from genesis to the head
produce. -/
theorem run_reached (L : ChainLaws C) {n₀ : Node C} {g : Contents S} (h₀ : Opened L n₀ g)
    (hfork : n₀.fork = .init) (calls : List (Call C))
    (hreverted : ∀ p ∈ (n₀.run calls).reverted, p.2 < p.1) :
    ∃ n' c, clear_pending (n₀.run calls) = (.ok (), n') ∧ n'.Holds c ∧ Reached C calls g c := by
  have hgenesis : Reached C calls g g := ⟨[], by simp, rfl, rfl⟩
  have hinv : NodeInv (Tracked.reached L calls g) (n₀.run calls) := by
    refine run_nodeInv (fun call hcall => Tracked.admits_of_mem (fun _ => id) (fun _ => id) hcall) ?_
    refine ⟨_, h₀.nodeInvAt hgenesis ?_⟩
    rw [hfork]
    exact .nil _
  obtain ⟨s, hs⟩ := hinv
  obtain ⟨db, hclear, -, hbase, href⟩ := clear_pending_clean hs
  exact ⟨_, s.cur, hclear, fun t => ⟨(href t).rows, (href t).next_id⟩,
    hbase.tracked hreverted _ s.cur_mem_values⟩

namespace HeaderChain

/-- A block, its sibling, and a block on the sibling: the third push switches forks. -/
def switchCalls : List (Call chain) :=
  pushes [⟨.zero, 1, 0⟩, ⟨.zero, 1, 1⟩, ⟨.block .zero 1 1, 2, 0⟩]

theorem run_reached_switch :
    (∀ p ∈ (genesisNode.run switchCalls).reverted, p.2 < p.1) ∧
      ∃ n' c, clear_pending (genesisNode.run switchCalls) = (.ok (), n') ∧ n'.Holds c ∧
        Reached chain switchCalls genesis c :=
  have h : ∀ p ∈ (genesisNode.run switchCalls).reverted, p.2 < p.1 := by decide +kernel
  ⟨h, run_reached laws opened_genesis rfl switchCalls h⟩

end HeaderChain

end Calibrd.Chain
