import Calibrd.Chain.Irreversible

/-!
# What a push does, from the node before it

Whether a block goes on top of the head, is refused or makes the node switch forks is decided by the
fork database and by what the blocks do to the tables of the main chain. This file says so on the
node before the call: `Node.tablesBelow` are the tables of the head or of a block below it, and the
programs of the blocks run on them.

A fork switch pops the old branch if there are enough sessions (`popTo_of_branches`).
-/

namespace Calibrd.Chain

open Calibrd.Lib Calibrd.Chainbase Stateful SnapshotStack

variable {B : BlockSpec} {S : Schema} {C : ChainSpec B S} {L : ChainLaws C}

/-! ## The tables of the main chain -/

/-- The last `k` sessions are undone. -/
def undoTimes : ℕ → NodeM C Unit
  | 0 => pure ()
  | k + 1 => do
    undo
    undoTimes k

/-- The tables without the pending transactions and the last `k` blocks. -/
def Node.tablesBelow (n : Node C) (k : ℕ) : Database S :=
  ((do clear_pending; undoTimes k : NodeM C Unit) n).2.db

variable {T : Tracked L} {s : SnapshotStack (Contents S)} {n : Node C} {skip : SkipFlags} {b : B.Block}
  {c c' : Contents S}

theorem NodeInvAt.refinement_below (h : NodeInvAt T s n) (k : ℕ) :
    Refinement (n.tablesBelow k) (SnapshotStack.undo^[k] s) := by
  obtain ⟨db, hclear, -, -, href⟩ := clear_pending_clean h
  have hundo : ∀ (k : ℕ) {s : SnapshotStack (Contents S)} {m : Node C}, Refinement m.db s →
      Refinement (undoTimes k m).2.db (SnapshotStack.undo^[k] s) := by
    intro k
    induction k with
    | zero => exact fun href => href
    | succ k ih =>
      intro s m href
      obtain ⟨db, href', heq⟩ := undo_spec href
      unfold undoTimes
      rw [bind_of_ok heq]
      exact ih href'
  unfold Node.tablesBelow
  rw [bind_of_ok hclear]
  exact hundo k href

/-- A program returns on the tables what it returns on the contents. -/
theorem NodeInvAt.exec_below (h : NodeInvAt T s n) (k : ℕ) (p : Prog S C.E Unit) :
    (p.exec (n.tablesBelow k)).1 = (p.run (SnapshotStack.undo^[k] s).cur).1 :=
  ((h.refinement_below k).exec p).1

theorem NodeInvAt.view_below (h : NodeInvAt T s n) (k : ℕ) (p : Prog S C.E Unit) :
    (p.exec (n.tablesBelow k)).2.view = (p.run (SnapshotStack.undo^[k] s).cur).2.view :=
  ((h.refinement_below k).exec p).2.view_eq

theorem NodeInvAt.run_below (h : NodeInvAt T s n) {k : ℕ} {p : Prog S C.E Unit}
    (hok : (p.exec (n.tablesBelow k)).1.isOk = true) :
    ∃ c', p.run (SnapshotStack.undo^[k] s).cur = (.ok (), c') ∧
      (p.exec (n.tablesBelow k)).2.view = c'.view := by
  obtain ⟨_, hres⟩ := exists_eq_ok hok
  rw [h.exec_below] at hres
  exact ⟨_, Prod.ext hres rfl, h.view_below k p⟩

/-! ## The programs of blocks -/

/-- `_apply_block` up to `update_last_irreversible_block`. -/
def ChainSpec.beginBlock (C : ChainSpec B S) (skip : SkipFlags) (b : B.Block) : Prog S C.E Unit :=
  (C.applyBefore skip b).bind fun _ => C.updateIrreversible

/-- Blocks in a row. -/
def ChainSpec.applyBlocks (C : ChainSpec B S) (skip : SkipFlags) : List B.Block → Prog S C.E Unit
  | [] => .pure ()
  | b :: rest => (C.applyBlock skip b).bind fun _ => C.applyBlocks skip rest

theorem began_iff : Began C skip c b c' ↔ (C.beginBlock skip b).run c = (.ok (), c') := by
  rw [ChainSpec.beginBlock, Prog.run_bind_ok]
  exact ⟨fun ⟨c1, h⟩ => ⟨(), c1, h⟩, fun ⟨_, c1, h⟩ => ⟨c1, h⟩⟩

theorem NodeInvAt.not_began (h : NodeInvAt T s n) {k : ℕ}
    (hno : ((C.beginBlock skip b).exec (n.tablesBelow k)).1.isOk = false) (c2 : Contents S) :
    ¬ Began C skip (SnapshotStack.undo^[k] s).cur b c2 := by
  intro hb
  rw [h.exec_below, began_iff.1 hb] at hno
  cases hno

theorem applied_iff : Applied C skip c b c' ↔ (C.applyBlock skip b).run c = (.ok (), c') := by
  refine ⟨Applied.run_applyBlock, fun h => ?_⟩
  obtain ⟨_, c1, hbefore, h⟩ := Prog.run_bind_ok.1 h
  obtain ⟨_, c2, hupdate, hafter⟩ := Prog.run_bind_ok.1 h
  exact ⟨c2, ⟨c1, hbefore, hupdate⟩, hafter⟩

theorem run_applyBlocks_cons {rest : List B.Block} :
    (C.applyBlocks skip (b :: rest)).run c = (.ok (), c') ↔
      ∃ c1, Applied C skip c b c1 ∧ (C.applyBlocks skip rest).run c1 = (.ok (), c') := by
  rw [ChainSpec.applyBlocks, Prog.run_bind_ok]
  simp only [applied_iff]
  exact ⟨fun ⟨_, c1, h⟩ => ⟨c1, h⟩, fun ⟨c1, h⟩ => ⟨(), c1, h⟩⟩

/-- What blocks in a row leave. -/
theorem applyBlocks_spec (hc : L.Inv c) {l : List B.Block}
    (h : (C.applyBlocks skip l).run c = (.ok (), c')) :
    L.Inv c' ∧ C.last_irreversible_block_num c.view ≤ C.last_irreversible_block_num c'.view ∧
      ∀ b, l.getLast? = some b → C.head_block_id c'.view = B.id b := by
  induction l generalizing c with
  | nil =>
    cases h
    exact ⟨hc, le_rfl, nofun⟩
  | cons b rest ih =>
    obtain ⟨c1, happ, hrest⟩ := run_applyBlocks_cons.1 h
    have hat := happ.atBlock hc
    obtain ⟨hinv, hlib, hlast⟩ := ih hat.inv hrest
    refine ⟨hinv, hat.lib_le.trans hlib, fun b' hb' => ?_⟩
    cases rest with
    | nil =>
      cases hb'
      cases hrest
      exact hat.id
    | cons b1 rest' => exact hlast b' (by rwa [List.getLast?_cons_cons] at hb')

/-- A block that its programs accept is applied, if the blocks for the log are found. -/
theorem applyInSession_of_applied {held : List Ptr} (h : CleanAt (Tracked.trivial L) s n)
    (happ : Applied C skip s.cur b c')
    (hcan : n.CanLog skip held (C.last_irreversible_block_num c'.view)) :
    ∃ n' s', applyInSession skip held b n = (.ok (), n') ∧ CleanAt (Tracked.trivial L) s' n' ∧
      s'.cur = c' ∧ n'.fork = n.fork.set_max_size
        (C.head_block_num c'.view - C.last_irreversible_block_num c'.view + 1) ∧
      n'.committed = max n.committed (C.last_irreversible_block_num c'.view) ∧
      ∃ blocks, n.Logs skip held (C.last_irreversible_block_num c'.view) blocks ∧
        n'.block_log = n.block_log ++ blocks := by
  obtain ⟨hp, hbase, href⟩ := h
  obtain ⟨c2, hbegan, hrun⟩ := happ
  have hat := hbegan.atBlock hbase.stack.inv_cur
  obtain ⟨hat', hlib⟩ := LeftAt.atBlock hat (Or.inr (by rw [hrun]))
  rw [hlib] at hcan ⊢
  rw [hat'.num.trans hat.num.symm]
  -- the programs are functions
  have hsame : ∀ {c3}, Began C skip s.cur b c3 → c3 = c2 := fun h =>
    congrArg Prod.snd ((began_iff.1 h).symm.trans (began_iff.1 hbegan))
  have hspec := applyInSession_spec skip held b href
  cases hres : applyInSession skip held b n with
  | mk r n' =>
    rw [hres] at hspec
    cases hspec with
    | applied hb hrun' href' hlogs =>
      obtain rfl := hsame hb
      obtain rfl : _ = c' := congrArg Prod.snd (hrun'.symm.trans hrun)
      exact ⟨_, _, rfl, ⟨hp, hbase.applied True.intro True.intro hb hrun rfl rfl
        (n.fork.set_max_size_heap _), href'⟩, rfl, rfl, rfl, _, hlogs, rfl⟩
    | early hnot => exact absurd hbegan (hnot c2)
    | late hb _ _ _ _ hwhy =>
      obtain rfl := hsame hb
      exact absurd hcan (hwhy ⟨c', hrun⟩)

/-- A block that is refused before it gets to the last irreversible block. -/
theorem applyInSession_of_refused (held : List Ptr) (h : CleanAt (Tracked.trivial L) s n)
    (hnot : ∀ c2, ¬ Began C skip s.cur b c2) :
    ∃ e n', applyInSession skip held b n = (.error e, n') ∧ CleanAt (Tracked.trivial L) s n' ∧
      n'.fork = n.fork ∧ n'.block_log = n.block_log := by
  obtain ⟨hp, hbase, href⟩ := h
  have hspec := applyInSession_spec skip held b href
  cases hres : applyInSession skip held b n with
  | mk r n' =>
    rw [hres] at hspec
    cases hspec with
    | applied hb => exact absurd hb (hnot _)
    | early _ href' hr =>
      exact ⟨_, _, rfl, ⟨hp, ⟨hbase.stack, fun _ _ _ => True.intro, hbase.heap⟩, href'⟩, rfl, rfl⟩
    | late hb => exact absurd hb (hnot _)

/-! ## Popping the old branch -/

section Pops

variable {f : ForkDatabase B} {held : List Ptr} {u u' v x' y' : Ptr × ForkItem B}

namespace ForkDatabase

/-- A lock holds with another head, if the pointer is held. -/
theorem lock_of_held {item : ForkItem B} (h : f.lock [] item = some u) (hheld : u.1 ∈ held) (p : Ptr) :
    lock { f with head := some p } held item = some u := by
  obtain ⟨hprev, -, hitem⟩ := lock_spec h
  have halive : alive { f with head := some p } held u.1 = true := by simp [alive, hheld]
  simp only [lock, hprev, Option.bind_eq_bind, Option.bind_some, halive, if_true]
  rw [show item? { f with head := some p } u.1 = some u.2 from hitem]
  rfl

/-- A walk that starts not above the head stays in the index. -/
theorem Trail.mem_index {Ok : B.Block → Prop} (hok : HeapOk Ok f.heap) {r : List Ptr}
    (h : f.Trail v r y') (hv : f.item? v.1 = some v.2)
    (hhead : ∀ item, f.headItem = some item → v.2.num ≤ item.num) :
    ∀ p ∈ (r ++ [y'.1]).tail, p ∈ f.index := by
  induction h with
  | nil x => exact nofun
  | @cons x x1 y l hlock hrest ih =>
    obtain ⟨-, halive, hitem⟩ := lock_spec hlock
    have hlow := num_of_lock hok hv hlock
    have hbelow : ∀ item, f.headItem = some item → x1.2.num < item.num := fun item hi => by
      have hle := hhead item hi
      omega
    have hne : f.head ≠ some x1.1 := by
      intro heq
      have hfound : f.headItem = some x1.2 := by rw [headItem, heq, Option.bind_some, hitem]
      exact lt_irrefl _ (hbelow _ hfound)
    have hmem : x1.1 ∈ f.index := by simpa [alive, hne] using halive
    obtain ⟨rest, hl⟩ := List.head?_eq_some_iff.1 (hrest.items hok hitem).1
    have htail := ih hitem fun item hi => (hbelow item hi).le
    rw [hl] at htail
    rw [List.cons_append, List.tail_cons, hl]
    exact List.forall_mem_cons.2 ⟨hmem, htail⟩

end ForkDatabase

/-- A pop moves the tables along the branch of `v`, and the fork database along that of `u`. -/
theorem pop_block_along (h : CleanAt T s n) (hfork : n.fork = { f with head := some u.1 })
    (hu : f.item? u.1 = some u.2) (hlock : f.lock [] u.2 = some u') (hheld : u'.1 ∈ held)
    (hv : f.item? v.1 = some v.2) (hmem : v.1 ∈ f.index) (hid : n.head_block_id = v.2.id)
    (hs : s.saved ≠ []) :
    ∃ n', pop_block held n = (.ok (), n') ∧ CleanAt T s.undo n' ∧
      n'.fork = { f with head := some u'.1 } ∧ n'.block_log = n.block_log ∧
      n'.committed = n.committed ∧ n'.head_block_id = v.2.previous_id := by
  have hinv := h.nodeInvAt
  obtain ⟨hp, hbase, href⟩ := h
  have hpop : n.fork.pop_block held = .ok { f with head := some u'.1 } := by
    have hitem : ForkDatabase.headItem { f with head := some u.1 } = some u.2 := hu
    rw [hfork, ForkDatabase.pop_block]
    simp only [hitem, ForkDatabase.lock_of_held hlock hheld]
  have hfound : n.fetch_block_by_id n.head_block_id ≠ none := by
    have hsome : (n.fork.fetch_block v.2.id).isSome = true := by
      rw [hfork]
      refine List.find?_isSome.2 ⟨v.1, hmem, ?_⟩
      rw [show ForkDatabase.item? { f with head := some u.1 } v.1 = some v.2 from hv]
      exact decide_eq_true rfl
    obtain ⟨q, hq⟩ := Option.isSome_iff_exists.1 hsome
    rw [hid]
    exact Node.fetch_block_by_id_of_fork hq
  have hspec := pop_block_spec held hp href
  cases hres : pop_block held n with
  | mk r n' =>
    rw [hres] at hspec
    cases hspec with
    | failed hwhy =>
      rcases hwhy with hnone | ⟨e, he⟩
      · exact absurd hnone hfound
      · rw [hpop] at he
        cases he
    | @popped b' g db hb hg href' =>
      obtain rfl : { f with head := some u'.1 } = g := Except.ok.inj (hpop.symm.trans hg)
      refine ⟨_, rfl, ⟨hp, hbase.popped rfl rfl (by rw [hfork]), href'⟩, rfl, rfl, rfl, ?_⟩
      -- the block of the top session is that of `v`
      obtain ⟨q, l, hsaved⟩ := List.exists_cons_of_ne_nil hs
      obtain ⟨-, b0, hb0⟩ := hbase.stack.top_linked hsaved
      rw [Node.head_block_id, href'.view_eq, hb0.previous]
      refine B.previous_of_id _ _ ?_
      rw [← hb0.id, ← hinv.head_block_id, hid]
      rfl

/-- The loop pops the blocks of the branch of `v`, while the fork database goes down that of `u`. -/
theorem popUntil_along (held : List Ptr) {lu rv : List Ptr} {Ok : B.Block → Prop} (hok : ForkDatabase.HeapOk Ok f.heap)
    (hrv : f.Trail v rv y') (hlu : f.Trail u lu x') (hlen : rv.length < lu.length)
    (hu : f.item? u.1 = some u.2) (hv : f.item? v.1 = some v.2)
    (hheld : ∀ p ∈ lu ++ [x'.1], p ∈ held) (hfirst : ∀ p ∈ (lu ++ [x'.1]).tail, p ∈ f.index)
    (hindex : ∀ p ∈ rv ++ [y'.1], p ∈ f.index)
    (h : CleanAt T s n) (hfork : n.fork = { f with head := some u.1 })
    (hid : n.head_block_id = v.2.id) (hs : rv.length < s.saved.length) {steps : ℕ}
    (hsteps : rv.length + 1 < steps) :
    ∃ (n' : Node C) (w : Ptr × ForkItem B), popUntil held y'.2.previous_id steps n = (.ok (), n') ∧
      CleanAt T (SnapshotStack.undo^[rv.length + 1] s) n' ∧ n'.head_block_id = y'.2.previous_id ∧
      n'.block_log = n.block_log ∧ n'.committed = n.committed ∧ n'.fork = { f with head := some w.1 } ∧
      f.item? w.1 = some w.2 ∧ w.2.num + (rv.length + 1) = u.2.num ∧ w.1 ∈ f.index ∧
      Ancestor B w.2.id u.2.id := by
  induction hrv generalizing u lu n s steps with
  | nil y =>
    obtain ⟨steps, rfl⟩ : ∃ k, steps = k + 2 := ⟨steps - 2, by simp at hsteps; omega⟩
    cases hlu with
    | nil => exact absurd hlen (lt_irrefl _)
    | @cons _ u' _ l hlock hrest =>
      have hu' := (ForkDatabase.lock_spec hlock).2.2
      have hmem := List.mem_of_mem_head? (hrest.items hok hu').1
      obtain ⟨n1, heq, h1, hfork1, hlog1, hcom1, hid1⟩ := pop_block_along h hfork hu hlock
        (hheld _ (List.mem_cons_of_mem _ hmem))
        hv (hindex _ List.mem_cons_self) hid (List.ne_nil_of_length_pos hs)
      refine ⟨n1, u', ?_, h1, hid1, hlog1, hcom1, hfork1, hu', ForkDatabase.Trail.num_of_lock hok hu hlock,
        hfirst _ hmem, hok.lock_id hu hlock ▸ .previous_id u.2.data⟩
      have hne : n.head_block_id ≠ y.2.previous_id := by
        rw [hid]
        exact B.id_ne_previous y.2.data
      rw [popUntil, get_bind_apply, if_neg hne, bind_of_ok heq, popUntil, get_bind_apply, if_pos hid1]
      rfl
  | @cons v v1 y rv hlockv hrest ih =>
    obtain ⟨steps, rfl⟩ : ∃ k, steps = k + 1 := ⟨steps - 1, by omega⟩
    cases hlu with
    | nil => exact absurd hlen (Nat.not_lt_zero _)
    | @cons _ u' _ l hlock hlrest =>
      have hu' := (ForkDatabase.lock_spec hlock).2.2
      have hv1 := (ForkDatabase.lock_spec hlockv).2.2
      have hmem := List.mem_of_mem_head? (hlrest.items hok hu').1
      obtain ⟨n1, heq, h1, hfork1, hlog1, hcom1, hid1⟩ := pop_block_along h hfork hu hlock
        (hheld _ (List.mem_cons_of_mem _ hmem))
        hv (hindex _ List.mem_cons_self) hid (List.ne_nil_of_length_pos (Nat.zero_lt_of_lt hs))
      have hsaved : rv.length < s.undo.saved.length := by
        rw [SnapshotStack.undo_saved, List.length_tail]
        rw [List.length_cons] at hs
        omega
      simp only [List.length_cons] at hlen hsteps
      obtain ⟨n', w, heq', h', hid', hlog', hcom', hfork', hw, hnum', hin, hanc⟩ := ih hlrest
        (by omega) hu' hv1 (fun p hp => hheld p (List.mem_cons_of_mem _ hp))
        (fun p hp => hfirst p (List.mem_of_mem_tail hp))
        (fun p hp => hindex p (List.mem_cons_of_mem _ hp)) h1 hfork1
        (hid1.trans (hok.lock_id hv hlockv).symm) hsaved (show rv.length + 1 < steps by omega)
      have hlow := ForkDatabase.Trail.num_of_lock hok hu hlock
      rw [hok.lock_id hu hlock] at hanc
      refine ⟨n', w, ?_, h', hid', hlog'.trans hlog1, hcom'.trans hcom1, hfork', hw, ?_, hin,
        hanc.trans (.previous_id u.2.data)⟩
      swap
      · rw [List.length_cons]
        omega
      have hne : n.head_block_id ≠ y.2.previous_id := by
        intro heq
        have hnum := ForkDatabase.Trail.num hok hv (.cons hlockv hrest)
        have hid := congrArg B.num_from_id (hid.symm.trans heq)
        rw [← v.2.num_eq] at hid
        have hy : y.2.num = B.num_from_id y.2.previous_id + 1 := rfl
        omega
      rw [popUntil, get_bind_apply, if_neg hne, bind_of_ok heq]
      exact heq'

/-- The pops of a fork switch: they end below the old branch if there are sessions for all of it. -/
theorem popTo_of_branches {p : Ptr} {first : B.Id} {l r : List Ptr} (h : CleanAt T s n)
    (hhead : n.fork.head = some p) (hp : n.fork.fetch_block first = some p)
    (hfetch : n.fork.fetch_branch_from first n.head_block_id = .ok (l, r))
    (hnum : n.head_block_num < B.num_from_id first) (hs : r.length ≤ s.saved.length) :
    ∃ (last : ForkItem B) (n1 : Node C) (w : Ptr × ForkItem B),
      r.getLast?.bind n.fork.item? = some last ∧
      popTo (p :: l ++ r) last.previous_id n = (.ok (), n1) ∧
      CleanAt T (SnapshotStack.undo^[r.length] s) n1 ∧ n1.head_block_id = last.previous_id ∧
      n1.block_log = n.block_log ∧ n1.committed = n.committed ∧
      n1.fork = { n.fork with head := some w.1 } ∧
      n.fork.item? w.1 = some w.2 ∧ w.2.num + r.length = B.num_from_id first ∧ w.1 ∈ n.fork.index ∧
      Ancestor B w.2.id first := by
  have hok := h.2.1.heap
  obtain ⟨x, y, l', r', x', y', hx, hy, hmet, rfl, rfl⟩ :=
    ForkDatabase.fetch_branch_from_met hok hfetch
  obtain ⟨hfx, hxi, hxid⟩ := ForkDatabase.find_spec hx
  obtain ⟨hfy, hyi, hyid⟩ := ForkDatabase.find_spec hy
  obtain rfl : p = x.1 := Option.some.inj (hp.symm.trans hfx)
  -- the new branch is longer than the old one
  have hhigh : y.2.num < x.2.num := by
    rw [y.2.num_eq, x.2.num_eq, hyid, hxid, ← h.nodeInvAt.num_head_block_id]
    exact hnum
  have hlx := hmet.first.num hok hxi
  have hly := hmet.second.num hok hyi
  have hlevel := hmet.level
  have hlow : ∀ item, n.fork.headItem = some item → x.2.num ≤ item.num := by
    intro item hitem
    rw [ForkDatabase.headItem, hhead, Option.bind_some, hxi] at hitem
    rw [← Option.some.inj hitem]
  have hindex : ∀ p ∈ r' ++ [y'.1], p ∈ n.fork.index := by
    obtain ⟨rest, hr⟩ := List.head?_eq_some_iff.1 (hmet.second.items hok hyi).1
    have htail := hmet.second.mem_index hok hyi fun item hi => hhigh.le.trans (hlow item hi)
    rw [hr] at htail ⊢
    exact List.forall_mem_cons.2 ⟨(ForkDatabase.fetch_block_spec hfy).1, htail⟩
  rw [List.length_append, List.length_singleton] at hs ⊢
  obtain ⟨n1, w, heq, h1, hid1, hlog1, hcom1, hfork1, hw, hwnum, hin, hanc⟩ := popUntil_along
    (x.1 :: (l' ++ [x'.1]) ++ (r' ++ [y'.1])) hok hmet.second hmet.first
    (by omega) hxi hyi (fun q hq => List.mem_append_left _ (List.mem_cons_of_mem _ hq))
    (hmet.first.mem_index hok hxi hlow) hindex h
    (by rw [← hhead]) hyid.symm (by omega) (show r'.length + 1 < popSteps n by
      rw [popSteps, ForkDatabase.headItem, hhead, Option.bind_some, hxi, Option.map_some,
        Option.getD_some]
      have hpos := y'.2.num_pos
      omega)
  refine ⟨y'.2, n1, w, ?_, heq, h1, hid1, hlog1, hcom1, hfork1, hw, ?_, hin, hxid ▸ hanc⟩
  · rw [List.getLast?_concat, Option.bind_some]
    exact hmet.second.item hyi
  · rw [hwnum, x.2.num_eq, hxid]

end Pops

end Calibrd.Chain
