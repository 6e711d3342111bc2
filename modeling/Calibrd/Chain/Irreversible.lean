import Calibrd.Chain.Branches
import Calibrd.Chain.Replay

/-!
# Irreversible blocks

A block that was irreversible once stays on the main chain in every run: the sessions below the
commit are gone, so nothing can undo it. A push that would have to undo one always throws. But the
loop of `_push_block` that pops the old branch only finds out at the end of the undo stack, when all
reversible blocks are popped already, and nothing puts them back.
-/

namespace Calibrd.Chain

open Calibrd.Lib Calibrd.Chainbase Stateful SnapshotStack

variable {B : BlockSpec} {S : Schema} {C : ChainSpec B S} {L : ChainLaws C}

/-! ## The main chain -/

variable {c : Contents S} {s : SnapshotStack (Contents S)}

namespace BlockStack

variable {committed : ℕ} {s : SnapshotStack (Contents S)}

/-- The top of a stack with a save came from the one below by a block. -/
theorem top_linked (h : BlockStack L committed s) {p : ℤ × Contents S} {l : List (ℤ × Contents S)}
    (hs : s.saved = p :: l) : s.undo.cur = p.2 ∧ ∃ b, AtBlock L s.undo.cur b s.cur := by
  have hcur : s.undo.cur = p.2 := by simp only [SnapshotStack.undo, hs]
  have hvalues : s.values = s.cur :: p.2 :: l.map Prod.snd := by simp only [values, hs, List.map_cons]
  have hlinked := h.linked
  rw [hvalues, List.isChain_cons_cons] at hlinked
  rw [hcur]
  exact ⟨rfl, hlinked.1⟩

theorem mem_values {p : ℤ × Contents S} {l : List (ℤ × Contents S)} (hs : s.saved = p :: l)
    (hc : c ∈ s.values) : c = s.cur ∨ c ∈ s.undo.values := by
  simp only [values, hs, List.map_cons, List.mem_cons] at hc
  simp only [values, SnapshotStack.undo, hs, List.mem_cons]
  exact hc

variable (h : BlockStack L committed s)

include h

/-- What holds of one of the contents and is kept by the blocks above the commit holds at the top. -/
theorem climb (hc : c ∈ s.values) {R : Contents S → Prop} (hR : R c)
    (hstep : ∀ {d d' : Contents S} {b : B.Block}, AtBlock L d b d' → L.Inv d →
      committed ≤ C.head_block_num d.view → R d → R d') : R s.cur := by
  induction hl : s.saved generalizing s with
  | nil =>
    simp only [values, hl, List.map_nil, List.mem_singleton] at hc
    rwa [← hc]
  | cons p l ih =>
    rcases mem_values hl hc with rfl | hc
    · exact hR
    · obtain ⟨-, b, hb⟩ := h.top_linked hl
      refine hstep hb h.undo.inv_cur ?_ (ih h.undo hc (by simp only [SnapshotStack.undo, hl]))
      rw [h.undo.height]
      exact Nat.le_add_right _ _

/-- The contents of the stack agree on the main chain up to the committed block. -/
theorem ancestor_iff {y : B.Id} (hy : B.num_from_id y ≤ committed) (hc : c ∈ s.values) :
    Ancestor B y (C.head_block_id c.view) ↔ Ancestor B y (C.head_block_id s.cur.view) := by
  refine h.climb hc (R := fun d => Ancestor B y (C.head_block_id c.view) ↔
    Ancestor B y (C.head_block_id d.view)) Iff.rfl fun {d d' b} hb hd hle ih => ih.trans ?_
  rw [L.head_num hd] at hle
  rw [hb.previous] at hle ⊢
  rw [hb.id]
  exact ⟨.block b, fun ha => ha.previous (hy.trans hle)⟩

theorem num_le (hc : c ∈ s.values) :
    C.head_block_num c.view ≤ C.head_block_num s.cur.view := by
  refine h.climb hc (R := fun d => _ ≤ C.head_block_num d.view) le_rfl fun hb hd _ ih => ih.trans ?_
  rw [hb.num, L.head_num hd, hb.previous]
  exact Nat.le_succ _

theorem lib_le_cur (hc : c ∈ s.values) :
    C.last_irreversible_block_num c.view ≤ C.last_irreversible_block_num s.cur.view :=
  h.climb hc (R := fun d => _ ≤ C.last_irreversible_block_num d.view) le_rfl
    fun hb _ _ ih => ih.trans hb.lib_le

/-- The id of the committed block, which is below all contents of the stack. -/
theorem exists_committed :
    ∃ z, B.num_from_id z = committed ∧ Ancestor B z (C.head_block_id s.cur.view) := by
  have hbottom := h.undoAll
  have hmem : s.undoAll.cur ∈ s.values := s.iterate_undo_mem _
  have hnum : B.num_from_id (C.head_block_id s.undoAll.cur.view) = committed := by
    rw [← L.head_num hbottom.inv_cur, hbottom.height, s.undoAll_saved]
    rfl
  exact ⟨_, hnum, (h.ancestor_iff hnum.le hmem).1 .refl⟩

end BlockStack

namespace NodeInvAt

variable {T : Tracked L} {s : SnapshotStack (Contents S)} {n : Node C}

variable (h : NodeInvAt T s n)

include h

theorem sameHead : ∃ d, SameHead L s.cur d ∧ n.db.view = d.view := by
  obtain ⟨hbase, hdb⟩ := h
  cases hp : n.pending_tx_session with
  | false =>
    rw [hp] at hdb
    exact ⟨s.cur, ⟨hbase.stack.inv_cur, rfl, rfl⟩, hdb.view_eq⟩
  | true =>
    rw [hp] at hdb
    obtain ⟨d, hd, href⟩ := hdb
    exact ⟨d, hd, href.view_eq⟩

theorem head_block_id : n.head_block_id = C.head_block_id s.cur.view := by
  obtain ⟨d, hd, hview⟩ := h.sameHead
  rw [Node.head_block_id, hview, hd.id]

theorem head_block_num : n.head_block_num = C.head_block_num s.cur.view := by
  obtain ⟨d, hd, hview⟩ := h.sameHead
  rw [Node.head_block_num, hview, L.head_num hd.inv, hd.id, L.head_num h.1.stack.inv_cur]

theorem num_head_block_id :
    n.head_block_num = B.num_from_id n.head_block_id := by
  rw [h.head_block_num, h.head_block_id, L.head_num h.1.stack.inv_cur]

theorem lib_le : n.last_irreversible_block_num ≤ n.committed := by
  obtain ⟨d, hd, hview⟩ := h.sameHead
  rw [Node.last_irreversible_block_num, hview, hd.lib]
  exact h.1.stack.lib_le _ s.cur_mem_values

end NodeInvAt

/-- The block of id `z` is on the main chain. -/
def Tracked.above (L : ChainLaws C) (z : B.Id) : Tracked L where
  Flags _ := True
  Ok _ := True
  R c := Ancestor B z (C.head_block_id c.view)
  guard _ := True
  guard_tail := id
  applied _ _ hc hr hb := by
    have hat := hb.atBlock hc
    rw [hat.previous] at hr
    rw [hat.id]
    exact .block _ hr
  stuck _ _ hc hr hb hl _ _ := by
    have hat := (hl.atBlock (hb.atBlock hc)).1
    rw [hat.previous] at hr
    rw [hat.id]
    exact .block _ hr

/-- The block `y` has number `k` and is on the main chain of the node. -/
def Node.MainBlock (n : Node C) (k : ℕ) (y : B.Id) : Prop :=
  B.num_from_id y = k ∧ Ancestor B y n.head_block_id

/-- A committed block stays on the main chain. -/
theorem above_run {n : Node C}
    (h : NodeInvAt (Tracked.trivial L) s n) {z : B.Id} (hz : B.num_from_id z ≤ n.committed)
    (hanc : Ancestor B z (C.head_block_id s.cur.view)) (calls : List (Call C)) :
    Ancestor B z (n.run calls).head_block_id := by
  have hinv : NodeInv (Tracked.above L z) n := by
    refine ⟨s, ⟨h.1.stack, fun _ c hc => ?_, h.1.heap⟩, h.2⟩
    exact (h.1.stack.ancestor_iff hz hc).2 hanc
  have hadmits (call : Call C) : (Tracked.above L z).Admits call :=
    Tracked.admits_of_all (fun _ => True.intro) (fun _ => True.intro) call
  obtain ⟨s', h'⟩ := run_nodeInv (fun call _ => hadmits call) hinv
  rw [h'.head_block_id]
  exact h'.1.tracked True.intro _ s'.cur_mem_values

/-- The main chain up to the largest committed block is the same in all later states. -/
theorem mainBlock_run {n : Node C}
    (h : NodeInvAt (Tracked.trivial L) s n) (calls : List (Call C)) {k : ℕ} (hk : k ≤ n.committed)
    (y : B.Id) : n.MainBlock k y ↔ (n.run calls).MainBlock k y := by
  obtain ⟨z, hz, hanc⟩ := h.1.stack.exists_committed
  have hrun := above_run h hz.le hanc calls
  rw [← h.head_block_id] at hanc
  refine and_congr_right fun hy => ?_
  have hyz : B.num_from_id y ≤ B.num_from_id z := by
    rw [hy, hz]
    exact hk
  exact ⟨fun ha => (ha.of_le hanc hyz).trans hrun, fun ha => (ha.of_le hrun hyz).trans hanc⟩

/-! ## Pushes that would undo a committed block -/

/-- After `clear_pending`, the tables of both nodes are the same. -/
def SameTables (n n' : Node C) : Prop :=
  ∃ m m', clear_pending n = (.ok (), m) ∧ clear_pending n' = (.ok (), m') ∧
    ∀ t, (m.db t).indices = (m'.db t).indices ∧ (m.db t).next_id = (m'.db t).next_id

theorem sameTables_iff {T T' : Tracked L} {s' : SnapshotStack (Contents S)} {n n' : Node C}
    (h : NodeInvAt T s n) (h' : NodeInvAt T' s' n') : SameTables n n' ↔ s'.cur = s.cur := by
  obtain ⟨db, hclear, -, -, href⟩ := clear_pending_clean h
  obtain ⟨db', hclear', -, -, href'⟩ := clear_pending_clean h'
  constructor
  · rintro ⟨m, m', hm, hm', hsame⟩
    obtain rfl := (Prod.mk.inj (hclear.symm.trans hm)).2
    obtain rfl := (Prod.mk.inj (hclear'.symm.trans hm')).2
    funext t
    refine Table.ext ?_ ?_
    · exact (href' t).rows.symm.trans ((hsame t).1.symm.trans (href t).rows)
    · exact (href' t).next_id.symm.trans ((hsame t).2.symm.trans (href t).next_id)
  · intro heq
    refine ⟨_, _, hclear, hclear', fun t => ⟨?_, ?_⟩⟩
    · refine (href t).rows.trans (Eq.trans ?_ (href' t).rows.symm)
      exact congrArg (fun c : Contents S => (c t).rows) heq.symm
    · refine (href t).next_id.trans (Eq.trans ?_ (href' t).next_id.symm)
      exact congrArg (fun c : Contents S => (c t).next_id) heq.symm

section Switch

variable {T : Tracked L} {s : SnapshotStack (Contents S)} {n : Node C}

/-- The loop that pops blocks throws if no block of the stack is the one it looks for. -/
theorem popUntil_throws (held : List Ptr) {target : B.Id} (steps : ℕ) (h : CleanAt T s n)
    (hne : ∀ c ∈ s.values, C.head_block_id c.view ≠ target) :
    ∃ e n' s', popUntil held target steps n = (.error e, n') ∧ CleanAt T s' n' ∧
      s'.cur ∈ s.values := by
  induction steps generalizing n s with
  | zero => exact ⟨_, n, s, rfl, h, s.cur_mem_values⟩
  | succ steps ih =>
    have hhead : n.head_block_id ≠ target := by
      rw [h.nodeInvAt.head_block_id]
      exact hne _ s.cur_mem_values
    unfold popUntil
    rw [get_bind_apply, if_neg hhead]
    rcases pop_block_cleanAt held h with ⟨-, e, heq⟩ | ⟨f, n1, -, heq, -, h1⟩
    · rw [bind_of_error heq]
      exact ⟨e, n, s, rfl, h, s.cur_mem_values⟩
    · rw [bind_of_ok heq]
      have hsub := s.values_undo_suffix.subset
      obtain ⟨e, n', s', hres, h', hmem⟩ := ih h1 fun c hc => hne c (hsub hc)
      exact ⟨e, n', s', hres, h', hsub hmem⟩

/-- The switch stops before the first block is popped. -/
def ForkDatabase.refusesSwitch (f : ForkDatabase B) (p : Ptr) (first second : B.Id) : Bool :=
  match f.fetch_branch_from first second with
  | .error _ => true
  | .ok (l, r) =>
    match f.pop_block (p :: l ++ r) with
    | .error _ => true
    | .ok _ => false

variable {newHead : ForkItem B} {f : ForkDatabase B} {p : Ptr} {b : B.Block}

theorem Node.fetch_block_by_id_of_fork {id : B.Id} (h : n.fork.fetch_block id = some p) :
    n.fetch_block_by_id id ≠ none := by
  obtain ⟨-, item, hitem, -⟩ := ForkDatabase.fetch_block_spec h
  simp only [Node.fetch_block_by_id, h, Option.bind_some, hitem]
  exact nofun

/-- Below the top of a stack the head is lower. -/
theorem BlockStack.cur_ne (h : BlockStack L n.committed s)
    (hhigh : n.committed < C.head_block_num s.cur.view) (hc : c ∈ s.undo.values) : c ≠ s.cur := by
  rintro rfl
  have hle := h.undo.num_le hc
  cases hl : s.saved with
  | nil =>
    rw [h.height, hl] at hhigh
    exact absurd hhigh (lt_irrefl _)
  | cons q l =>
    rw [h.undo.height, h.height, hl] at hle
    simp only [SnapshotStack.undo, hl, List.length_cons] at hle
    omega

/-- The loop leaves the tables alone only if it stops at once, or if there is nothing to undo. -/
theorem popTo_throws (held : List Ptr) {target : B.Id} (h : CleanAt T s n)
    (hne : ∀ c ∈ s.values, C.head_block_id c.view ≠ target)
    (hfound : n.fetch_block_by_id n.head_block_id ≠ none) :
    ∃ e n' s', popTo held target n = (.error e, n') ∧ CleanAt T s' n' ∧
      (s'.cur = s.cur ↔ n.head_block_num = n.committed ∨ ∃ e, n.fork.pop_block held = .error e) := by
  have hstack := h.2.1.stack
  have hnum := h.nodeInvAt.head_block_num
  have hhead : n.head_block_id ≠ target := by
    rw [h.nodeInvAt.head_block_id]
    exact hne _ s.cur_mem_values
  unfold popTo popSteps
  rw [get_bind_apply, popUntil, get_bind_apply, if_neg hhead]
  rcases pop_block_cleanAt held h with ⟨hwhy, e, heq⟩ | ⟨f, n1, hpop, heq, -, h1⟩
  · rw [bind_of_error heq]
    exact ⟨e, n, s, rfl, h, by simp [hwhy.resolve_left hfound]⟩
  · rw [bind_of_ok heq]
    have hsub := s.values_undo_suffix.subset
    obtain ⟨e, n', s', hres, h', hmem⟩ := popUntil_throws held _ h1 fun c hc => hne c (hsub hc)
    refine ⟨e, n', s', hres, h', ?_⟩
    have hno : ¬ ∃ e, n.fork.pop_block held = .error e := by
      rintro ⟨e', he'⟩
      rw [hpop] at he'
      cases he'
    rw [or_iff_left hno, hnum]
    constructor
    · intro hcur
      by_contra hlow
      have hlt : n.committed < C.head_block_num s.cur.view := by
        have hheight := hstack.height
        omega
      exact hstack.cur_ne hlt hmem hcur
    · intro hlow
      have hnil : s.saved = [] := by
        have hheight := hstack.height
        exact List.length_eq_zero_iff.1 (by omega)
      have hmem' := hsub hmem
      simp only [values, hnil, List.map_nil, List.mem_singleton] at hmem'
      exact hmem'

/-- A switch to a branch that leaves the main chain below the committed block. -/
theorem switchForks_throws (skip : SkipFlags) {y : B.Id} (h : CleanAt T s n)
    (hy : B.num_from_id y ≤ n.committed) (hmain : Ancestor B y n.head_block_id)
    (hnew : ¬ Ancestor B y newHead.id) :
    ∃ e n' s', switchForks skip p newHead n = (.error e, n') ∧ CleanAt T s' n' ∧
      (s'.cur = s.cur ↔ n.head_block_num = n.committed ∨
        n.fork.refusesSwitch p newHead.id n.head_block_id = true) := by
  have hstack := h.2.1.stack
  unfold switchForks ForkDatabase.refusesSwitch
  rw [get_bind_apply]
  cases hfetch : n.fork.fetch_branch_from newHead.id n.head_block_id with
  | error e =>
    rw [bind_of_error (liftFork_of_error hfetch)]
    exact ⟨_, n, s, rfl, h, by simp⟩
  | ok branches =>
    obtain ⟨l, r⟩ := branches
    obtain ⟨⟨q, last, hlast, hitem, hbelow⟩, p', hhead⟩ :=
      ForkDatabase.fetch_branch_from_spec h.2.1.heap hfetch
    -- no block of the stack is the one where the branches meet
    have hne : ∀ c ∈ s.values, C.head_block_id c.view ≠ last.previous_id := by
      intro c hc heq
      rw [h.nodeInvAt.head_block_id] at hmain
      have hanc := (hstack.ancestor_iff hy hc).2 hmain
      rw [heq] at hanc
      exact hnew (hanc.trans hbelow)
    obtain ⟨e, n', s', hres, h', hiff⟩ := popTo_throws (p :: l ++ r) h hne
      (Node.fetch_block_by_id_of_fork hhead)
    rw [bind_of_ok (liftFork_of_ok hfetch)]
    simp only [hlast, Option.bind_some, hitem]
    refine ⟨e, n', s', bind_of_error hres, h', hiff.trans (or_congr_right ?_)⟩
    cases n.fork.pop_block (p :: l ++ r) <;> simp

/-- The fork database takes the block `b`, and its head is then on a longer branch without some block
of the main chain that is at or below the largest committed number. -/
structure NeedsUndo (n : Node C) (b : B.Block) (f : ForkDatabase B) (p : Ptr)
    (newHead : ForkItem B) : Prop where
  pushed : n.fork.push_block b = .ok f
  head : f.head = some p
  item : f.item? p = some newHead
  other : newHead.previous_id ≠ n.head_block_id
  higher : n.head_block_num < newHead.num
  undoes : ∃ k y, k ≤ n.committed ∧ n.MainBlock k y ∧ ¬ Ancestor B y newHead.id

theorem _push_block_throws {skip : SkipFlags} (hskip : skip.skip_fork_db = false)
    (h : CleanAt (Tracked.trivial L) s n) (hb : NeedsUndo n b f p newHead) :
    ∃ e n' s', _push_block skip b n = (.error e, n') ∧ CleanAt (Tracked.trivial L) s' n' ∧
      (s'.cur = s.cur ↔ n.head_block_num = n.committed ∨
        f.refusesSwitch p newHead.id n.head_block_id = true) := by
  obtain ⟨k, y, hk, ⟨hy, hmain⟩, hnew⟩ := hb.undoes
  have hpushed : CleanAt (Tracked.trivial L) s { n with fork := f } := h.pushFork True.intro hb.pushed
  obtain ⟨e, n', s', hres, h', hiff⟩ :=
    switchForks_throws skip (p := p) hpushed (hy.trans_le hk) hmain hnew
  refine ⟨e, n', s', ?_, h', hiff⟩
  rw [_push_block_of_ok hskip hb.pushed hb.head hb.item]
  exact (followHead_of_switch (n := { n with fork := f }) _ hb.other hb.higher).trans
    (bind_of_error hres)

/-- The conditions of `NeedsUndo` do not depend on the pending transactions. -/
theorem NeedsUndo.clear {T : Tracked L} (h : NodeInvAt T s n) (hb : NeedsUndo n b f p newHead)
    {db : Database S} {pending : List C.Tx}
    (h' : NodeInvAt T s { n with db := db, pending_tx := pending, pending_tx_session := false }) :
    NeedsUndo { n with db := db, pending_tx := pending, pending_tx_session := false }
      b f p newHead := by
  obtain ⟨k, y, hk, ⟨hy, hmain⟩, hnew⟩ := hb.undoes
  have hid := h'.head_block_id.trans h.head_block_id.symm
  have hnum := h'.head_block_num.trans h.head_block_num.symm
  refine ⟨hb.pushed, hb.head, hb.item, ?_, ?_, k, y, hk, ⟨hy, ?_⟩, hnew⟩
  · rw [hid]
    exact hb.other
  · rw [hnum]
    exact hb.higher
  · rw [hid]
    exact hmain

theorem push_block_throws {skip : SkipFlags} (hskip : skip.skip_fork_db = false)
    (h : NodeInvAt (Tracked.trivial L) s n) (hb : NeedsUndo n b f p newHead) :
    (∃ e, (push_block skip b n).1 = .error e) ∧
      (SameTables n (push_block skip b n).2 ↔ n.head_block_num = n.committed ∨
        f.refusesSwitch p newHead.id n.head_block_id = true) := by
  obtain ⟨db, hclean, heq⟩ := without_pending_transactions_spec skip (_push_block skip b) h
  have hid := hclean.nodeInvAt.head_block_id.trans h.head_block_id.symm
  have hnum := hclean.nodeInvAt.head_block_num.trans h.head_block_num.symm
  obtain ⟨e, n', s', hres, h', hiff⟩ :=
    _push_block_throws hskip hclean (hb.clear h hclean.nodeInvAt)
  rw [hid, hnum] at hiff
  rw [push_block, heq, withDestructor, hres]
  refine ⟨⟨e, rfl⟩, ?_⟩
  have hfinal := restorePending_nodeInv skip n.pending_tx n' h'.nodeInvAt
  exact (sameTables_iff h hfinal).trans hiff

end Switch

/-- In every run from genesis, a block that was irreversible once stays on the main chain, whatever is
called later. A push that would have to undo such a block throws; it leaves the tables as they were
exactly if the switch stops before the first pop, or if there is no reversible block. -/
theorem irreversible_blocks (L : ChainLaws C) {n₀ : Node C} {c₀ : Contents S} (h₀ : Opened L n₀ c₀)
    (hgenesis : C.head_block_num c₀.view = 0) (calls : List (Call C)) :
    (∀ k ≤ (n₀.run calls).last_irreversible_block_num, (∃! y, (n₀.run calls).MainBlock k y) ∧
      ∀ later y, (n₀.run calls).MainBlock k y ↔ ((n₀.run calls).run later).MainBlock k y) ∧
    ∀ skip b f p newHead, skip.skip_fork_db = false → NeedsUndo (n₀.run calls) b f p newHead →
      (∃ e, (push_block skip b (n₀.run calls)).1 = .error e) ∧
      (SameTables (n₀.run calls) (push_block skip b (n₀.run calls)).2 ↔
        (n₀.run calls).head_block_num = (n₀.run calls).committed ∨
        f.refusesSwitch p newHead.id (n₀.run calls).head_block_id = true) := by
  obtain ⟨s, h⟩ := h₀.run_nodeInv calls
  refine ⟨fun k hk => ⟨?_, ?_⟩, ?_⟩
  · -- the main chain goes down to genesis
    have hinv₀ : NodeInvAt (Tracked.trivial L) _ n₀ := h₀.nodeInvAt True.intro h₀.heap
    have hz : B.num_from_id (C.head_block_id c₀.view) = 0 := by
      rw [← L.head_num h₀.inv, hgenesis]
    have hanc := above_run hinv₀ (hz.trans_le (Nat.zero_le _)) .refl calls
    have hhead : k ≤ B.num_from_id (n₀.run calls).head_block_id := by
      rw [h.head_block_id, ← L.head_num h.1.stack.inv_cur, h.1.stack.height]
      exact (hk.trans h.lib_le).trans (Nat.le_add_right _ _)
    obtain ⟨y, hy, hyanc⟩ := hanc.between (hz.trans_le (Nat.zero_le k)) hhead
    exact ⟨y, ⟨hy, hyanc⟩, fun y' hy' => hy'.2.unique hyanc (hy'.1.trans hy.symm)⟩
  · exact fun later y => mainBlock_run h later (hk.trans h.lib_le) y
  · intro skip b f p newHead hskip hb
    exact push_block_throws hskip h hb

namespace HeaderChain

/-- A main chain of 24 blocks, of which 3 are irreversible, and a branch of 22 blocks from block 2. -/
def branchCalls : List (Call chain) :=
  pushes (headers .zero 1 0 24 ++ headers (.block (.block .zero 1 0) 2 0) 100 9 22)

/-- The block that makes the branch the longer one. -/
def branchHead : Header :=
  (headers (.block (.block .zero 1 0) 2 0) 100 9 23).getLast (List.cons_ne_nil _ _)

/-- The push of a block whose branch leaves the main chain below the irreversible block 3 throws, and
leaves the node at block 3: the 21 blocks above it are popped. -/
theorem failed_push_pops_blocks :
    (genesisNode.run branchCalls).head_block_num = 24 ∧
      (genesisNode.run branchCalls).last_irreversible_block_num = 3 ∧
      (push_block skip_nothing branchHead (genesisNode.run branchCalls)).1 =
        .error (.fork .pop_last) ∧
      (push_block skip_nothing branchHead (genesisNode.run branchCalls)).2.head_block_num = 3 := by
  decide +kernel

/-- The id and those below it. -/
def HeaderId.branch : HeaderId → List HeaderId
  | .zero => [.zero]
  | .block previous timestamp salt => .block previous timestamp salt :: previous.branch

theorem ancestor_of_mem_branch {y x : HeaderId} (h : y ∈ x.branch) : Ancestor blocks y x := by
  induction x with
  | zero =>
    rw [HeaderId.branch, List.mem_singleton] at h
    rw [h]
    exact .refl
  | block previous timestamp salt ih =>
    rw [HeaderId.branch, List.mem_cons] at h
    rcases h with rfl | h
    · exact .refl
    · exact Ancestor.block (B := blocks) (⟨previous, timestamp, salt⟩ : Header) (ih h)

theorem mem_branch_of_ancestor {y x : blocks.Id} (h : Ancestor blocks y x) :
    y ∈ HeaderId.branch x := by
  induction h with
  | refl => cases y <;> exact List.mem_cons_self
  | block b _ ih => exact List.mem_cons_of_mem _ ih

instance (y x : HeaderId) : Decidable (Ancestor blocks y x) :=
  decidable_of_iff (y ∈ x.branch) ⟨ancestor_of_mem_branch, mem_branch_of_ancestor⟩

/-- Block 3 of the main chain. -/
def thirdId : HeaderId := .block (.block (.block .zero 1 0) 2 0) 3 0

/-- What `NeedsUndo` asks of the head of the fork database. -/
def branchCheck (n : Node chain) (f : ForkDatabase blocks) (entry : Ptr × ForkItem blocks) : Bool :=
  decide (entry.2.previous_id ≠ n.head_block_id) && decide (n.head_block_num < entry.2.num) &&
    decide (¬ Ancestor blocks thirdId entry.2.id) &&
    !f.refusesSwitch entry.1 entry.2.id n.head_block_id

theorem branchCheck_branchHead :
    ((genesisNode.run branchCalls).fork.push_block branchHead).toOption.any (fun f =>
      (f.head.bind f.entry?).any (branchCheck (genesisNode.run branchCalls) f)) = true := by
  decide +kernel

theorem mainBlock_thirdId : 3 ≤ (genesisNode.run branchCalls).committed ∧
    blocks.num_from_id thirdId = 3 ∧
    Ancestor blocks thirdId (genesisNode.run branchCalls).head_block_id := by
  decide +kernel

theorem needsUndo_branchHead : ∃ f p newHead,
    NeedsUndo (genesisNode.run branchCalls) branchHead f p newHead ∧
      f.refusesSwitch p newHead.id (genesisNode.run branchCalls).head_block_id = false := by
  have hcheck := branchCheck_branchHead
  cases hf : (genesisNode.run branchCalls).fork.push_block branchHead with
  | error e => rw [hf] at hcheck; cases hcheck
  | ok f =>
    rw [hf] at hcheck
    cases hentry : f.head.bind f.entry? with
    | none => simp [Except.toOption, hentry] at hcheck
    | some entry =>
      obtain ⟨p, newHead⟩ := entry
      obtain ⟨hhead, hitem⟩ := ForkDatabase.bind_entry_spec hentry
      simp only [Except.toOption, Option.any_some, hentry, branchCheck, Bool.and_eq_true,
        decide_eq_true_eq, Bool.not_eq_true'] at hcheck
      obtain ⟨⟨⟨hother, hhigher⟩, hnew⟩, hswitch⟩ := hcheck
      obtain ⟨hk, hmain⟩ := mainBlock_thirdId
      exact ⟨f, p, newHead, ⟨hf, hhead, hitem, hother, hhigher, 3, thirdId, hk, hmain, hnew⟩, hswitch⟩

theorem irreversible_blocks_branch :
    (∃! y, (genesisNode.run branchCalls).MainBlock 3 y) ∧
      (∃ e, (push_block skip_nothing branchHead (genesisNode.run branchCalls)).1 = .error e) ∧
      ¬ SameTables (genesisNode.run branchCalls)
        (push_block skip_nothing branchHead (genesisNode.run branchCalls)).2 := by
  obtain ⟨hmain, hpush⟩ := irreversible_blocks laws opened_genesis rfl branchCalls
  obtain ⟨f, p, newHead, hneeds, hswitch⟩ := needsUndo_branchHead
  obtain ⟨hthrows, hsame⟩ := hpush skip_nothing branchHead f p newHead rfl hneeds
  have hheads : (genesisNode.run branchCalls).last_irreversible_block_num = 3 ∧
      (genesisNode.run branchCalls).head_block_num ≠ (genesisNode.run branchCalls).committed := by
    decide +kernel
  refine ⟨(hmain 3 hheads.1.ge).1, hthrows, fun h => ?_⟩
  rcases hsame.1 h with h | h
  · exact hheads.2 h
  · rw [hswitch] at h
    cases h

end HeaderChain

end Calibrd.Chain
