import Calibrd.Chain.Node

/-!
# What the steps of a node do

For each step that touches the object database, all it can do to the stack of snapshots, the fork
database and the block log. A block that throws late, after `update_last_irreversible_block`
committed, does not leave the node as it was: the commit stays, and if it made the block itself
irreversible there is no session left that could undo the block.
-/

namespace Calibrd.Chain

open Calibrd.Lib Calibrd.Chainbase Stateful

variable {B : BlockSpec} {S : Schema}

/-- What is assumed of the programs of a chain: they keep an invariant of the contents, and only
`_apply_block` moves the head and the last irreversible block, the first to the block it applies. -/
structure ChainLaws (C : ChainSpec B S) where
  Inv : Contents S → Prop
  head_num : ∀ {c}, Inv c → C.head_block_num c.view = B.num_from_id (C.head_block_id c.view)
  lib_le : ∀ {c}, Inv c → C.last_irreversible_block_num c.view ≤ C.head_block_num c.view
  before_inv : ∀ {c c' skip b}, Inv c → (C.applyBefore skip b).run c = (.ok (), c') → Inv c'
  before_previous : ∀ {c c' skip b}, Inv c → (C.applyBefore skip b).run c = (.ok (), c') →
    C.head_block_id c.view = B.previous b
  before_id : ∀ {c c' skip b}, Inv c → (C.applyBefore skip b).run c = (.ok (), c') →
    C.head_block_id c'.view = B.id b
  before_lib : ∀ {c c' skip b}, Inv c → (C.applyBefore skip b).run c = (.ok (), c') →
    C.last_irreversible_block_num c'.view = C.last_irreversible_block_num c.view
  update_inv : ∀ {c c'}, Inv c → C.updateIrreversible.run c = (.ok (), c') → Inv c'
  update_id : ∀ {c c'}, Inv c → C.updateIrreversible.run c = (.ok (), c') →
    C.head_block_id c'.view = C.head_block_id c.view
  update_lib : ∀ {c c'}, Inv c → C.updateIrreversible.run c = (.ok (), c') →
    C.last_irreversible_block_num c.view ≤ C.last_irreversible_block_num c'.view
  after_inv : ∀ {c} skip b, Inv c → Inv ((C.applyAfter skip b).run c).2
  after_id : ∀ {c} skip b, Inv c →
    C.head_block_id ((C.applyAfter skip b).run c).2.view = C.head_block_id c.view
  after_lib : ∀ {c} skip b, Inv c →
    C.last_irreversible_block_num ((C.applyAfter skip b).run c).2.view =
      C.last_irreversible_block_num c.view
  transaction_inv : ∀ {c c' skip trx}, Inv c →
    (C.applyTransaction skip trx).run c = (.ok (), c') → Inv c'
  transaction_id : ∀ {c c' skip trx}, Inv c →
    (C.applyTransaction skip trx).run c = (.ok (), c') →
    C.head_block_id c'.view = C.head_block_id c.view
  transaction_lib : ∀ {c c' skip trx}, Inv c →
    (C.applyTransaction skip trx).run c = (.ok (), c') →
    C.last_irreversible_block_num c'.view = C.last_irreversible_block_num c.view
  assemble_previous : ∀ skip v args txs, B.previous (C.assemble skip v args txs) = C.head_block_id v

section Contents

variable (C : ChainSpec B S)

/-- The block went through `update_last_irreversible_block`. -/
def Began (skip : SkipFlags) (c : Contents S) (b : B.Block) (c2 : Contents S) : Prop :=
  ∃ c1, (C.applyBefore skip b).run c = (.ok (), c1) ∧ C.updateIrreversible.run c1 = (.ok (), c2)

/-- The block was applied. -/
def Applied (skip : SkipFlags) (c : Contents S) (b : B.Block) (c' : Contents S) : Prop :=
  ∃ c2, Began C skip c b c2 ∧ (C.applyAfter skip b).run c2 = (.ok (), c')

/-- What the contents can be when the block throws after it began. -/
def LeftAt (skip : SkipFlags) (c2 : Contents S) (b : B.Block) (c3 : Contents S) : Prop :=
  c3 = c2 ∨ c3 = ((C.applyAfter skip b).run c2).2

variable {C}

/-- Where a block stands once it began: its id and number are those of the head. -/
structure AtBlock (L : ChainLaws C) (c : Contents S) (b : B.Block) (c' : Contents S) : Prop where
  inv : L.Inv c'
  previous : C.head_block_id c.view = B.previous b
  id : C.head_block_id c'.view = B.id b
  num : C.head_block_num c'.view = B.block_num b
  lib_le : C.last_irreversible_block_num c.view ≤ C.last_irreversible_block_num c'.view

variable {skip : SkipFlags} {L : ChainLaws C} {b : B.Block}

theorem Began.atBlock {c c2 : Contents S} (hc : L.Inv c) (h : Began C skip c b c2) :
    AtBlock L c b c2 := by
  obtain ⟨c1, h1, h2⟩ := h
  have hi1 := L.before_inv hc h1
  have hi2 := L.update_inv hi1 h2
  have hid : C.head_block_id c2.view = B.id b := (L.update_id hi1 h2).trans (L.before_id hc h1)
  refine ⟨hi2, L.before_previous hc h1, hid, ?_, ?_⟩
  · rw [L.head_num hi2, hid, B.num_id]
    rfl
  · rw [← L.before_lib hc h1]
    exact L.update_lib hi1 h2

theorem LeftAt.atBlock {c c2 c3 : Contents S} (h : AtBlock L c b c2) (hl : LeftAt C skip c2 b c3) :
    AtBlock L c b c3 ∧
      C.last_irreversible_block_num c3.view = C.last_irreversible_block_num c2.view := by
  rcases hl with rfl | rfl
  · exact ⟨h, rfl⟩
  · have hi := L.after_inv skip b h.inv
    have hid := (L.after_id skip b h.inv).trans h.id
    have hlib := L.after_lib skip b h.inv
    refine ⟨⟨hi, h.previous, hid, ?_, ?_⟩, hlib⟩
    · rw [L.head_num hi, hid, B.num_id]
      rfl
    · rw [hlib]
      exact h.lib_le

theorem Applied.atBlock {c c' : Contents S} (hc : L.Inv c) (h : Applied C skip c b c') :
    AtBlock L c b c' := by
  obtain ⟨c2, h2, h'⟩ := h
  have hl : LeftAt C skip c2 b c' := Or.inr (by rw [h'])
  exact (hl.atBlock (h2.atBlock hc)).1

end Contents

section Steps

variable {C : ChainSpec B S} {n : Node C} {s : SnapshotStack (Contents S)}

variable {n' : Node C} {α : Type}

theorem liftProg_spec (p : Prog S C.E α) (h : Refinement n.db s) :
    ∃ db, Refinement db (s.setCur (p.run s.cur).2) ∧
      liftProg p n =
        (match (p.run s.cur).1 with
          | .ok a => .ok a
          | .error e => .error (.chain e), { n with db := db }) := by
  obtain ⟨hres, href⟩ := h.exec p
  refine ⟨(p.exec n.db).2, href, ?_⟩
  unfold liftProg
  rw [← hres]
  cases hx : p.exec n.db with
  | mk r db => cases r <;> rfl

theorem undo_spec (h : Refinement n.db s) :
    ∃ db, Refinement db s.undo ∧ undo n = (.ok (), { n with db := db }) := by
  obtain ⟨db, hdb, href⟩ := h.undo
  refine ⟨db, href, ?_⟩
  unfold undo
  rw [hdb]

/-- The copying loop appends the blocks that it finds under the numbers from `num` on, and throws at the
first that it does not find. -/
theorem appendLog_spec (held : List Ptr) (num count : ℕ) (n : Node C) :
    ∃ r blocks, appendLog held num count n = (r, { n with block_log := n.block_log ++ blocks }) ∧
      (∀ i b, blocks[i]? = some b → ∃ item,
        n.fork.fetch_block_on_main_branch_by_number held (num + i) = some item ∧ item.data = b) ∧
      (r = .ok () ∧ blocks.length = count ∨ (∃ e, r = .error e) ∧ blocks.length < count ∧
        n.fork.fetch_block_on_main_branch_by_number held (num + blocks.length) = none) := by
  induction count generalizing num n with
  | zero => exact ⟨_, [], by rw [List.append_nil]; rfl, nofun, .inl ⟨rfl, rfl⟩⟩
  | succ count ih =>
    unfold appendLog
    rw [get_bind_apply]
    cases hitem : n.fork.fetch_block_on_main_branch_by_number held num with
    | none =>
      exact ⟨_, [], by rw [List.append_nil]; rfl, nofun, .inr ⟨⟨_, rfl⟩, Nat.succ_pos _, hitem⟩⟩
    | some item =>
      obtain ⟨r, blocks, heq, hfound, hend⟩ :=
        ih (num + 1) { n with block_log := n.block_log ++ [item.data] }
      refine ⟨r, item.data :: blocks, ?_, fun i b hb => ?_, ?_⟩
      · rw [List.append_cons]
        exact heq
      · cases i with
        | zero => exact ⟨item, hitem, Option.some.inj hb⟩
        | succ i =>
          rw [← Nat.add_assoc, Nat.add_right_comm]
          exact hfound i b hb
      · rw [List.length_cons, Nat.add_lt_add_iff_right, Nat.add_right_cancel_iff, ← Nat.add_assoc,
          Nat.add_right_comm]
        exact hend

/-- The blocks that go to the log if `lib` becomes the last irreversible block are found. -/
def Node.CanLog (n : Node C) (skip : SkipFlags) (held : List Ptr) (lib : ℕ) : Prop :=
  skip.skip_block_log = true ∨ ∀ m ≤ lib, n.log_head_num < m →
    (n.fork.fetch_block_on_main_branch_by_number held m).isSome = true

instance (n : Node C) (skip : SkipFlags) (held : List Ptr) (lib : ℕ) :
    Decidable (n.CanLog skip held lib) :=
  inferInstanceAs (Decidable (_ ∨ _))

/-- The blocks that go to the log with the last irreversible block `lib`. -/
structure Node.Logs (n : Node C) (skip : SkipFlags) (held : List Ptr) (lib : ℕ)
    (blocks : List B.Block) : Prop where
  found : ∀ i b, blocks[i]? = some b → ∃ item,
    n.fork.fetch_block_on_main_branch_by_number held (n.log_head_num + 1 + i) = some item ∧ item.data = b
  length_le : blocks.length ≤ lib - n.log_head_num
  length : skip.skip_block_log = false → blocks.length = lib - n.log_head_num

/-- The fork database as it was, or pruned. -/
def Pruned (f f' : ForkDatabase B) : Prop := f' = f ∨ ∃ k, f' = f.set_max_size k

/-- All that `apply_block` can do on the stack `s`. -/
inductive ApplyOutcome (skip : SkipFlags) (held : List Ptr) (n : Node C)
    (s : SnapshotStack (Contents S)) (b : B.Block) : Except (NodeError C.E) Unit × Node C → Prop where
  | applied {c2 c' : Contents S} {db : Database S} {blocks : List B.Block} :
      Began C skip s.cur b c2 → (C.applyAfter skip b).run c2 = (.ok (), c') →
      Refinement db ((s.setCur c').commit (C.last_irreversible_block_num c2.view)) →
      n.Logs skip held (C.last_irreversible_block_num c2.view) blocks →
      ApplyOutcome skip held n s b (.ok (), { n with
        db := db
        fork := n.fork.set_max_size
          (C.head_block_num c2.view - C.last_irreversible_block_num c2.view + 1)
        block_log := n.block_log ++ blocks
        committed := max n.committed (C.last_irreversible_block_num c2.view) })
  | early {e : NodeError C.E} {c3 : Contents S} {db : Database S} :
      (∀ c2, ¬ Began C skip s.cur b c2) → Refinement db (s.setCur c3) →
      ApplyOutcome skip held n s b (.error e, { n with db := db })
  | late {e : NodeError C.E} {c2 c3 : Contents S} {db : Database S} {f : ForkDatabase B}
      {log : List B.Block} :
      Began C skip s.cur b c2 → LeftAt C skip c2 b c3 → Pruned n.fork f →
      Refinement db ((s.setCur c3).commit (C.last_irreversible_block_num c2.view)) →
      ((∃ c', (C.applyAfter skip b).run c2 = (.ok (), c')) →
        ¬ n.CanLog skip held (C.last_irreversible_block_num c2.view)) →
      ApplyOutcome skip held n s b (.error e, { n with
        db := db, fork := f, block_log := log
        committed := max n.committed (C.last_irreversible_block_num c2.view) })

theorem logIrreversible_spec (skip : SkipFlags) (held : List Ptr) (n : Node C) :
    ∃ r blocks, logIrreversible skip held n = (r, { n with block_log := n.block_log ++ blocks }) ∧
      (r = .ok () ∧ n.Logs skip held n.last_irreversible_block_num blocks ∨
        (∃ e, r = .error e) ∧ ¬ n.CanLog skip held n.last_irreversible_block_num) := by
  unfold logIrreversible
  rw [get_bind_apply]
  cases hskip : skip.skip_block_log with
  | true =>
    refine ⟨_, [], by rw [List.append_nil]; rfl, .inl ⟨rfl, nofun, Nat.zero_le _, fun h => ?_⟩⟩
    rw [hskip] at h
    cases h
  | false =>
    obtain ⟨r, blocks, heq, hfound, ⟨rfl, hlen⟩ | ⟨hr, hlen, hnone⟩⟩ := appendLog_spec held
      (n.log_head_num + 1) (n.last_irreversible_block_num - n.log_head_num) n
    · exact ⟨_, blocks, heq, .inl ⟨rfl, hfound, hlen.le, fun _ => hlen⟩⟩
    · refine ⟨r, blocks, heq, .inr ⟨hr, fun hcan => ?_⟩⟩
      have hsome := hcan.resolve_left (by rw [hskip]; exact Bool.false_ne_true)
        (n.log_head_num + 1 + blocks.length) (by omega) (by omega)
      rw [hnone] at hsome
      cases hsome

theorem pruneFork_apply (n : Node C) :
    pruneFork n = (.ok (), { n with
      fork := n.fork.set_max_size (n.head_block_num - n.last_irreversible_block_num + 1) }) :=
  rfl

/-- The second half of a block, on the committed stack. -/
private theorem applyAfter_spec {skip : SkipFlags} {b : B.Block} {c2 : Contents S}
    (hb : Began C skip s.cur b c2)
    (h : Refinement n'.db ((s.setCur c2).commit (C.last_irreversible_block_num c2.view)))
    {held : List Ptr} {blocks : List B.Block} (hn : n' = { n with
      db := n'.db
      fork := n.fork.set_max_size
        (C.head_block_num c2.view - C.last_irreversible_block_num c2.view + 1)
      block_log := n.block_log ++ blocks
      committed := max n.committed (C.last_irreversible_block_num c2.view) })
    (hlogs : n.Logs skip held (C.last_irreversible_block_num c2.view) blocks) :
    ApplyOutcome skip held n s b (liftProg (C.applyAfter skip b) n') := by
  obtain ⟨db', href, heq⟩ := liftProg_spec (C.applyAfter skip b) h
  rw [heq]
  cases hrun : (C.applyAfter skip b).run c2 with
  | mk r c' =>
    have hcur : (C.applyAfter skip b).run
        ((s.setCur c2).commit (C.last_irreversible_block_num c2.view)).cur = (r, c') := hrun
    rw [hcur] at href ⊢
    rw [hn]
    cases r with
    | ok u => exact .applied hb hrun href hlogs
    | error e =>
      refine .late hb (Or.inr (by rw [hrun])) (Or.inr ⟨_, rfl⟩) href fun ⟨c'', hok⟩ => ?_
      rw [hrun] at hok
      cases hok

/-- What follows once the property object is written: the commit, the block log, the fork database
and the second half of the block. -/
private theorem finish_block {skip : SkipFlags} {held : List Ptr} {b : B.Block} {c2 : Contents S}
    {db : Database S} (hb : Began C skip s.cur b c2) (h : Refinement db (s.setCur c2)) :
    ApplyOutcome skip held n s b
      ((do
        commitIrreversible
        logIrreversible skip held
        pruneFork
        liftProg (C.applyAfter skip b) : NodeM C Unit) { n with db := db }) := by
  have hlib : C.last_irreversible_block_num db.view =
      C.last_irreversible_block_num c2.view := by rw [h.view_eq]; rfl
  have hcommit := h.commit (C.last_irreversible_block_num c2.view)
  let n1 : Node C := { n with
    db := db.commit (C.last_irreversible_block_num c2.view)
    committed := max n.committed (C.last_irreversible_block_num c2.view) }
  have hn1 : commitIrreversible { n with db := db } = ((.ok (), n1) : _ × Node C) := by
    simp only [commitIrreversible, update_apply, Node.last_irreversible_block_num, hlib, n1]
  have hlib1 : n1.last_irreversible_block_num = C.last_irreversible_block_num c2.view :=
    congrArg C.last_irreversible_block_num hcommit.view_eq
  have hnum1 : n1.head_block_num = C.head_block_num c2.view :=
    congrArg C.head_block_num hcommit.view_eq
  rw [bind_of_ok hn1]
  obtain ⟨r, blocks, heq, ⟨rfl, hlogs⟩ | ⟨⟨e, rfl⟩, hcannot⟩⟩ := logIrreversible_spec skip held n1
  · rw [hlib1] at hlogs
    have hprune : pruneFork { n1 with block_log := n.block_log ++ blocks } = (.ok (), { n1 with
        fork := n.fork.set_max_size
          (C.head_block_num c2.view - C.last_irreversible_block_num c2.view + 1)
        block_log := n.block_log ++ blocks }) := by
      rw [pruneFork_apply, ← hlib1, ← hnum1]
      rfl
    rw [bind_of_ok heq, bind_of_ok hprune]
    exact applyAfter_spec hb hcommit rfl ⟨hlogs.found, hlogs.length_le, hlogs.length⟩
  · rw [hlib1] at hcannot
    rw [bind_of_error heq]
    exact .late hb (Or.inl rfl) (Or.inl rfl) hcommit fun _ => hcannot

/-- Everything `apply_block` can do. -/
theorem apply_block_spec (skip : SkipFlags) (held : List Ptr) (b : B.Block)
    (h : Refinement n.db s) : ApplyOutcome skip held n s b (apply_block skip held b n) := by
  obtain ⟨db1, href1, heq1⟩ := liftProg_spec (C.applyBefore skip b) h
  have hassoc : apply_block skip held b n =
      (liftProg (C.applyBefore skip b) >>= fun _ => liftProg C.updateIrreversible >>= fun _ => do
        commitIrreversible
        logIrreversible skip held
        pruneFork
        liftProg (C.applyAfter skip b)) n := by
    simp only [apply_block, update_last_irreversible_block, bind_assoc]
  rw [hassoc]
  cases hrun1 : (C.applyBefore skip b).run s.cur with
  | mk r1 c1 =>
    rw [hrun1] at href1 heq1
    cases r1 with
    | error e =>
      rw [bind_of_error heq1]
      refine .early (fun c2 ⟨c, hc, _⟩ => ?_) href1
      rw [hrun1] at hc
      cases hc
    | ok u =>
      rw [bind_of_ok heq1]
      obtain ⟨db2, href2, heq2⟩ :=
        liftProg_spec (n := { n with db := db1 }) C.updateIrreversible href1
      cases hrun2 : C.updateIrreversible.run c1 with
      | mk r2 c2 =>
        have hcur : C.updateIrreversible.run (s.setCur c1).cur = (r2, c2) := hrun2
        rw [hcur] at href2 heq2
        cases r2 with
        | error e =>
          rw [bind_of_error heq2]
          refine .early (fun c3 ⟨c, hc, hc3⟩ => ?_) href2
          obtain rfl : c1 = c := congrArg Prod.snd (hrun1.symm.trans hc)
          rw [hrun2] at hc3
          cases hc3
        | ok u' =>
          rw [bind_of_ok heq2]
          exact finish_block ⟨c1, hrun1, hrun2⟩ href2

/-! ## Sessions around a program -/

theorem startSession_apply (n : Node C) :
    startSession n = (.ok (), { n with db := n.db.start_undo_session }) := rfl

theorem inSession_of_ok {body : NodeM C Unit}
    (h : body { n with db := n.db.start_undo_session } = (.ok (), n')) :
    inSession body n = (.ok (), n') := by
  unfold inSession
  rw [bind_of_ok (startSession_apply n)]
  exact attempt_of_ok h

/-- The destructor of the session undoes it. -/
theorem inSession_of_error {body : NodeM C Unit} {e : NodeError C.E}
    {s' : SnapshotStack (Contents S)}
    (h : body { n with db := n.db.start_undo_session } = (.error e, n'))
    (href : Refinement n'.db s') :
    ∃ db, Refinement db s'.undo ∧ inSession body n = (.error e, { n' with db := db }) := by
  obtain ⟨db, href', hundo⟩ := undo_spec href
  refine ⟨db, href', ?_⟩
  unfold inSession
  rw [bind_of_ok (startSession_apply n), attempt_of_error h]
  exact bind_of_ok hundo

/-- All that the application of a block in its own session can do. -/
inductive BlockOutcome (skip : SkipFlags) (held : List Ptr) (n : Node C)
    (s : SnapshotStack (Contents S)) (b : B.Block) : Except (NodeError C.E) Unit × Node C → Prop where
  | applied {c2 c' : Contents S} {db : Database S} {blocks : List B.Block} :
      Began C skip s.cur b c2 → (C.applyAfter skip b).run c2 = (.ok (), c') →
      Refinement db ((s.start.setCur c').commit (C.last_irreversible_block_num c2.view)) →
      n.Logs skip held (C.last_irreversible_block_num c2.view) blocks →
      BlockOutcome skip held n s b (.ok (), { n with
        db := db
        fork := n.fork.set_max_size
          (C.head_block_num c2.view - C.last_irreversible_block_num c2.view + 1)
        block_log := n.block_log ++ blocks
        committed := max n.committed (C.last_irreversible_block_num c2.view) })
  | early {e : NodeError C.E} {db : Database S} {r : List (ℕ × ℕ)} :
      (∀ c2, ¬ Began C skip s.cur b c2) → Refinement db s →
      (r = n.reverted ∨ ∃ p, r = p :: n.reverted) →
      BlockOutcome skip held n s b (.error e, { n with db := db, reverted := r })
  | late {e : NodeError C.E} {c2 c3 : Contents S} {db : Database S} {f : ForkDatabase B}
      {log : List B.Block} {r : List (ℕ × ℕ)} :
      Began C skip s.cur b c2 → LeftAt C skip c2 b c3 → Pruned n.fork f →
      Refinement db ((s.start.setCur c3).commit (C.last_irreversible_block_num c2.view)).undo →
      (C.head_block_id c3.view = B.id b →
        r = (B.block_num b, C.last_irreversible_block_num c3.view) :: n.reverted) →
      ((∃ c', (C.applyAfter skip b).run c2 = (.ok (), c')) →
        ¬ n.CanLog skip held (C.last_irreversible_block_num c2.view)) →
      BlockOutcome skip held n s b (.error e, { n with
        db := db, fork := f, block_log := log
        committed := max n.committed (C.last_irreversible_block_num c2.view)
        reverted := r })

theorem noteReverted_apply (num : ℕ) (n : Node C) :
    noteReverted num n = (.ok (), { n with
      reverted := (num, n.last_irreversible_block_num) :: n.reverted }) := rfl

theorem noteFailed_apply (b : B.Block) (n : Node C) :
    noteFailed b n = (.ok (), { n with
      reverted := if n.head_block_id = B.id b then
        (B.block_num b, n.last_irreversible_block_num) :: n.reverted else n.reverted }) := by
  unfold noteFailed
  rw [get_bind_apply]
  split <;> rfl

theorem applyInSession_spec (skip : SkipFlags) (held : List Ptr) (b : B.Block)
    (h : Refinement n.db s) : BlockOutcome skip held n s b (applyInSession skip held b n) := by
  have hspec := apply_block_spec (n := { n with db := n.db.start_undo_session }) skip held b h.start
  -- a block that throws is noted before its session is undone
  have hthrow : ∀ {e n'}, apply_block skip held b { n with db := n.db.start_undo_session } =
      (.error e, n') → attempt (apply_block skip held b) (fun e => do
        noteFailed b
        raise e) { n with db := n.db.start_undo_session } = (.error e, { n' with
          reverted := if n'.head_block_id = B.id b then
            (B.block_num b, n'.last_irreversible_block_num) :: n'.reverted else n'.reverted }) := by
    intro e n' hres
    rw [attempt_of_error hres, bind_of_ok (noteFailed_apply _ _)]
    rfl
  cases hres : apply_block skip held b { n with db := n.db.start_undo_session } with
  | mk r n1 =>
    rw [hres] at hspec
    cases hspec with
    | applied hb hrun href hlogs =>
      rw [show applyInSession skip held b n = _ from inSession_of_ok (attempt_of_ok hres)]
      exact .applied hb hrun href ⟨hlogs.found, hlogs.length_le, hlogs.length⟩
    | early hnot href =>
      obtain ⟨db', href', heq⟩ := inSession_of_error (hthrow hres) href
      rw [SnapshotStack.undo_setCur_start] at href'
      rw [show applyInSession skip held b n = _ from heq]
      refine .early hnot href' ?_
      split
      · exact Or.inr ⟨_, rfl⟩
      · exact Or.inl rfl
    | @late e c2 c3 db f log hb hleft hprune href hwhy =>
      obtain ⟨db', href', heq⟩ := inSession_of_error (hthrow hres) href
      have hview : db.view = c3.view := href.view_eq
      rw [show applyInSession skip held b n = _ from heq]
      simp only [Node.last_irreversible_block_num, Node.head_block_id, hview]
      exact .late hb hleft hprune href' (fun hid => if_pos hid) hwhy

/-- `_pending_tx_session.reset()`: the pending session, if there is one, is undone. -/
theorem resetPendingSession_spec (h : Refinement n.db s) :
    ∃ db, Refinement db (if n.pending_tx_session then s.undo else s) ∧
      resetPendingSession n = (.ok (), { n with db := db, pending_tx_session := false }) := by
  unfold resetPendingSession
  rw [get_bind_apply]
  cases hp : n.pending_tx_session with
  | false =>
    refine ⟨n.db, h, ?_⟩
    cases n
    cases hp
    rfl
  | true =>
    obtain ⟨db, href, hundo⟩ := undo_spec h
    refine ⟨db, href, ?_⟩
    rw [if_pos rfl, bind_of_ok hundo]
    rfl

/-- All that `pop_block` can do on a node without pending session. -/
inductive PopOutcome (held : List Ptr) (n : Node C) (s : SnapshotStack (Contents S)) :
    Except (NodeError C.E) Unit × Node C → Prop where
  | failed {e : NodeError C.E} :
      (n.fetch_block_by_id n.head_block_id = none ∨ ∃ e, n.fork.pop_block held = .error e) →
      PopOutcome held n s (.error e, n)
  | popped {b : B.Block} {f : ForkDatabase B} {db : Database S} :
      n.fetch_block_by_id n.head_block_id = some b → n.fork.pop_block held = .ok f →
      Refinement db s.undo → PopOutcome held n s (.ok (), { n with
        db := db, fork := f
        reverted := (n.head_block_num, n.last_irreversible_block_num) :: n.reverted
        popped_tx := C.transactions b ++ n.popped_tx })

theorem resetPendingSession_of_not (hp : n.pending_tx_session = false) :
    resetPendingSession n = (.ok (), n) := by
  unfold resetPendingSession
  rw [get_bind_apply, hp]
  rfl

theorem liftFork_of_ok {f : ForkDatabase B → Except ForkError α} {a : α} (h : f n.fork = .ok a) :
    liftFork f n = (.ok a, n) := by
  simp only [liftFork, h]

theorem liftFork_of_error {f : ForkDatabase B → Except ForkError α} {e : ForkError}
    (h : f n.fork = .error e) : liftFork f n = (.error (.fork e), n) := by
  simp only [liftFork, h]

theorem setFork_apply (f : ForkDatabase B → ForkDatabase B) (n : Node C) :
    setFork f n = (.ok (), { n with fork := f n.fork }) := rfl

theorem pop_block_spec (held : List Ptr) (hp : n.pending_tx_session = false)
    (h : Refinement n.db s) : PopOutcome held n s (pop_block held n) := by
  unfold pop_block
  rw [bind_of_ok (resetPendingSession_of_not hp), get_bind_apply]
  cases hb : n.fetch_block_by_id n.head_block_id with
  | none => exact .failed (Or.inl hb)
  | some b =>
    cases hf : n.fork.pop_block held with
    | error e =>
      dsimp only
      rw [bind_of_error (liftFork_of_error hf)]
      exact .failed (Or.inr ⟨e, hf⟩)
    | ok f =>
      obtain ⟨db, href, hundo⟩ := undo_spec
        (n := { n with
          fork := f
          reverted := (n.head_block_num, n.last_irreversible_block_num) :: n.reverted }) h
      dsimp only
      rw [bind_of_ok (liftFork_of_ok hf), bind_of_ok (setFork_apply _ _),
        bind_of_ok (noteReverted_apply _ _)]
      refine (bind_of_ok hundo).symm ▸ ?_
      exact .popped hb hf href

/-! ## Transactions -/

/-- All that a transaction in its temporary session can do. -/
inductive TemporaryOutcome (skip : SkipFlags) (n : Node C) (s : SnapshotStack (Contents S))
    (trx : C.Tx) (note : List C.Tx → List C.Tx) :
    Except (NodeError C.E) Unit × Node C → Prop where
  | squashed {c' : Contents S} {db : Database S} :
      (C.applyTransaction skip trx).run s.cur = (.ok (), c') →
      Refinement db (s.start.setCur c').squash →
      TemporaryOutcome skip n s trx note
        (.ok (), { n with db := db, pending_tx := note n.pending_tx })
  | undone {e : NodeError C.E} {db : Database S} :
      Refinement db s → TemporaryOutcome skip n s trx note (.error e, { n with db := db })

theorem temporarySession_spec (skip : SkipFlags) (trx : C.Tx) (note : List C.Tx → List C.Tx)
    (h : Refinement n.db s) :
    TemporaryOutcome skip n s trx note (temporarySession skip trx note n) := by
  obtain ⟨db, href, heq⟩ := liftProg_spec (n := { n with db := n.db.start_undo_session })
    (C.applyTransaction skip trx) h.start
  rw [SnapshotStack.start_cur] at href heq
  cases hrun : (C.applyTransaction skip trx).run s.cur with
  | mk r c' =>
    rw [hrun] at href heq
    cases r with
    | ok u =>
      have hbody := bind_of_ok (f := fun _ => do
        update fun n => { n with pending_tx := note n.pending_tx }
        squashSession) heq
      rw [show temporarySession skip trx note n = _ from inSession_of_ok hbody]
      exact .squashed hrun href.squash
    | error e =>
      have hbody := bind_of_error (f := fun _ => do
        update fun n => { n with pending_tx := note n.pending_tx }
        squashSession) heq
      obtain ⟨db', href', heq'⟩ := inSession_of_error hbody href
      rw [SnapshotStack.undo_setCur_start] at href'
      rw [show temporarySession skip trx note n = _ from heq']
      exact .undone href'

/-- The stack that a pushed transaction starts on: the pending session is opened if there is none. -/
def withPending (n : Node C) (s : SnapshotStack (Contents S)) : SnapshotStack (Contents S) :=
  if n.pending_tx_session then s else s.start

theorem openPendingSession_spec (h : Refinement n.db s) :
    ∃ db, Refinement db (withPending n s) ∧
      openPendingSession n = (.ok (), { n with db := db, pending_tx_session := true }) := by
  unfold openPendingSession withPending
  rw [get_bind_apply]
  cases hp : n.pending_tx_session with
  | true =>
    refine ⟨n.db, h, ?_⟩
    cases n
    cases hp
    rfl
  | false => exact ⟨n.db.start_undo_session, h.start, rfl⟩

/-! ## The ways of a pushed block -/

variable {skip : SkipFlags} {b : B.Block} {p : Ptr} {newHead : ForkItem B}

theorem followHead_of_extend (h : newHead.previous_id = n.head_block_id) :
    followHead skip b p newHead n = extendHead skip b n := by
  unfold followHead
  rw [get_bind_apply, if_pos h]

theorem followHead_of_switch (newHead : ForkItem B) (h : newHead.previous_id ≠ n.head_block_id)
    (hnum : n.head_block_num < newHead.num) :
    followHead skip b p newHead n = (switchForks skip p newHead >>= fun _ => pure true) n := by
  unfold followHead
  rw [get_bind_apply, if_neg h, if_pos hnum]

theorem followHead_of_stay (newHead : ForkItem B) (h : newHead.previous_id ≠ n.head_block_id)
    (hnum : newHead.num ≤ n.head_block_num) : followHead skip b p newHead n = (.ok false, n) := by
  unfold followHead
  rw [get_bind_apply, if_neg h, if_neg (Nat.not_lt.2 hnum)]
  rfl

theorem _push_block_of_error (hskip : skip.skip_fork_db = false) {e : ForkError}
    (h : n.fork.push_block b = .error e) : _push_block skip b n = (.error (.fork e), n) := by
  unfold _push_block
  rw [hskip, if_neg Bool.false_ne_true]
  exact bind_of_error (liftFork_of_error h)

theorem _push_block_of_ok (hskip : skip.skip_fork_db = false) {f : ForkDatabase B}
    (h : n.fork.push_block b = .ok f) (hhead : f.head = some p)
    (hitem : f.item? p = some newHead) :
    _push_block skip b n = followHead skip b p newHead { n with fork := f } := by
  unfold _push_block
  rw [hskip, if_neg Bool.false_ne_true, bind_of_ok (liftFork_of_ok h),
    bind_of_ok (setFork_apply _ n)]
  simp only [hhead, Option.bind_some, ForkDatabase.entry?, hitem, Option.map_some]

end Steps

end Calibrd.Chain
