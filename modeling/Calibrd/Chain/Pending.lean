import Calibrd.Chain.ForkHead

/-!
# Pending transactions

Between calls the tables of a node are those of its head block with the pending transactions
applied on top, in order (`PendingAt`). Blocks leave the list of pending transactions alone, and
`push_block` rebuilds it from the popped and the formerly pending ones; `Fate` says what can become
of each of them. Two calls leave the pending session undone and the list as it was: `pop_block`,
and `generate_block` when the block is too big (`Call.RestoresPending`).
-/

namespace Calibrd.Chain

open Calibrd.Lib Calibrd.Chainbase Stateful

variable {B : BlockSpec} {S : Schema} {C : ChainSpec B S}

/-! ## Blocks leave the list alone -/

/-- The program keeps the list of pending transactions. -/
def KeepsPending {α : Type} (m : NodeM C α) : Prop := ∀ l, Preserves (fun n => n.pending_tx = l) m

namespace KeepsPending

theorem free (l : List C.Tx) : BlocksFree fun n : Node C => n.pending_tx = l :=
  ⟨fun _ _ _ h => h, fun _ _ _ _ _ h => h, fun _ _ h => h, fun _ _ h => h, fun _ _ h => h⟩

theorem _push_block (skip : SkipFlags) (b : B.Block) :
    KeepsPending (_push_block (C := C) skip b) :=
  fun l => (free l).switching._push_block (free l).applyInSession fun _ _ h _ => h

end KeepsPending

/-! ## Applied in order -/

/-- The transactions, each with its flags, applied in order. -/
def applyTransactions (C : ChainSpec B S) (c : Contents S) :
    List (SkipFlags × C.Tx) → Except (Failure C.E) (Contents S)
  | [] => .ok c
  | (skip, trx) :: rest =>
    match (C.applyTransaction skip trx).run c with
    | (.ok _, c') => applyTransactions C c' rest
    | (.error e, _) => .error e

variable {trx : C.Tx} {skip : SkipFlags}

theorem applyTransactions_cons {c d : Contents S} {q : List (SkipFlags × C.Tx)}
    (h : applyTransactions C c ((skip, trx) :: q) = .ok d) :
    ∃ c', (C.applyTransaction skip trx).run c = (.ok (), c') ∧ applyTransactions C c' q = .ok d := by
  simp only [applyTransactions] at h
  cases hrun : (C.applyTransaction skip trx).run c with
  | mk r c' =>
    rw [hrun] at h
    cases r with
    | ok u => exact ⟨c', rfl, h⟩
    | error e => cases h

theorem applyTransactions_snoc {c d d' : Contents S}
    {q : List (SkipFlags × C.Tx)} (h : applyTransactions C c q = .ok d)
    (hrun : (C.applyTransaction skip trx).run d = (.ok (), d')) :
    applyTransactions C c (q ++ [(skip, trx)]) = .ok d' := by
  induction q generalizing c with
  | nil =>
    cases h
    simp only [List.nil_append, applyTransactions, hrun]
  | cons p rest ih =>
    obtain ⟨skip', trx'⟩ := p
    obtain ⟨c', hfirst, hrest⟩ := applyTransactions_cons h
    simp only [List.cons_append, applyTransactions, hfirst]
    exact ih hrest

variable {L : ChainLaws C} {T : Tracked L} {s : SnapshotStack (Contents S)} {n : Node C}
  {q : List (SkipFlags × C.Tx)} {c d : Contents S}

theorem SameHead.applyTransactions (hc : L.Inv c) (h : applyTransactions C c q = .ok d) :
    SameHead L c d := by
  induction q generalizing c with
  | nil =>
    cases h
    exact ⟨hc, rfl, rfl⟩
  | cons p rest ih =>
    obtain ⟨c', hfirst, hrest⟩ := applyTransactions_cons h
    obtain ⟨hinv, hid, hlib⟩ := ih (L.transaction_inv hc hfirst) hrest
    exact ⟨hinv, hid.trans (L.transaction_id hc hfirst), hlib.trans (L.transaction_lib hc hfirst)⟩

/-- The pending session holds the transactions `q`, which lead from the head block's contents to `d`,
and the tables hold `d`. Without a session `q` is empty. -/
structure SessionAt (T : Tracked L) (s : SnapshotStack (Contents S)) (n : Node C)
    (q : List (SkipFlags × C.Tx)) (d : Contents S) : Prop where
  base : Base T n s
  applied : applyTransactions C s.cur q = .ok d
  db : Refinement n.db (if n.pending_tx_session then s.start.setCur d else s)
  closed : n.pending_tx_session = false → q = []

namespace SessionAt

theorem nodeInvAt (h : SessionAt T s n q d) : NodeInvAt T s n := by
  refine ⟨h.base, ?_⟩
  have hdb := h.db
  split at hdb
  · next hp =>
    rw [if_pos hp]
    exact ⟨d, .applyTransactions h.base.stack.inv_cur h.applied, hdb⟩
  · next hp =>
    rw [if_neg hp]
    exact hdb

theorem of_cleanAt (h : CleanAt T s n) : SessionAt T s n [] s.cur := by
  obtain ⟨hp, hbase, hdb⟩ := h
  refine ⟨hbase, rfl, ?_, fun _ => rfl⟩
  rw [hp]
  exact hdb

variable (h : SessionAt T s n q d)

include h

theorem setPopped (popped : List C.Tx) :
    SessionAt T s { n with popped_tx := popped } q d :=
  ⟨⟨h.base.stack, h.base.tracked, h.base.heap⟩, h.applied, h.db, h.closed⟩

theorem cur_eq :
    (if n.pending_tx_session then s.start.setCur d else s).cur = d := by
  cases hp : n.pending_tx_session with
  | true => rfl
  | false =>
    have happlied := h.applied
    rw [h.closed hp] at happlied
    exact Except.ok.inj happlied

theorem view_eq : n.db.view = d.view := by
  rw [h.db.view_eq, h.cur_eq]

theorem openPendingSession :
    ∃ n', openPendingSession n = (.ok (), n') ∧ n'.pending_tx_session = true ∧
      n'.popped_tx = n.popped_tx ∧ n'.pending_tx = n.pending_tx ∧ SessionAt T s n' q d := by
  obtain ⟨db, href, heq⟩ := openPendingSession_spec h.db
  refine ⟨_, heq, rfl, rfl, rfl, ⟨h.base.stack, h.base.tracked, h.base.heap⟩, h.applied, ?_, nofun⟩
  have hcur := h.cur_eq
  unfold withPending at href
  split at href
  · exact href
  · next hp =>
    rw [if_neg hp] at hcur
    rw [← hcur]
    exact href

/-- A transaction in a temporary session is applied last, or leaves everything as it was. -/
theorem temporarySession (hp : n.pending_tx_session = true)
    (skip : SkipFlags) (trx : C.Tx) (note : List C.Tx → List C.Tx) :
    (∃ n' d', temporarySession skip trx note n = (.ok (), n') ∧ n'.pending_tx_session = true ∧
        n'.popped_tx = n.popped_tx ∧ n'.pending_tx = note n.pending_tx ∧
        SessionAt T s n' (q ++ [(skip, trx)]) d') ∨
      ∃ e n', temporarySession skip trx note n = (.error e, n') ∧ n'.pending_tx_session = true ∧
        n'.popped_tx = n.popped_tx ∧ n'.pending_tx = n.pending_tx ∧ SessionAt T s n' q d := by
  have hdb := h.db
  rw [if_pos hp] at hdb
  have hspec := temporarySession_spec skip trx note hdb
  cases hres : Chain.temporarySession skip trx note n with
  | mk r n' =>
    rw [hres] at hspec
    cases hspec with
    | @squashed d' db hrun href =>
      rw [SnapshotStack.squash_setCur_start_start] at href
      refine .inl ⟨_, d', rfl, hp, rfl, rfl, ⟨h.base.stack, h.base.tracked, h.base.heap⟩,
        applyTransactions_snoc h.applied hrun, ?_, ?_⟩
      · dsimp only
        rw [if_pos hp]
        exact href
      · intro hfalse
        cases hp.symm.trans hfalse
    | undone href =>
      refine .inr ⟨_, _, rfl, hp, rfl, rfl, ⟨h.base.stack, h.base.tracked, h.base.heap⟩, h.applied,
        ?_, h.closed⟩
      dsimp only
      rw [if_pos hp]
      exact href

theorem _push_transaction (skip : SkipFlags) (trx : C.Tx) :
    (∃ n' d', _push_transaction skip trx n = (.ok (), n') ∧ n'.popped_tx = n.popped_tx ∧
        n'.pending_tx = n.pending_tx ++ [trx] ∧ SessionAt T s n' (q ++ [(skip, trx)]) d') ∨
      ∃ e n', _push_transaction skip trx n = (.error e, n') ∧ n'.popped_tx = n.popped_tx ∧
        n'.pending_tx = n.pending_tx ∧ SessionAt T s n' q d := by
  obtain ⟨n1, hopen, hp, hpopped, hpending, h1⟩ := h.openPendingSession
  unfold Chain._push_transaction
  rw [bind_of_ok hopen, ← hpopped, ← hpending]
  rcases h1.temporarySession hp skip trx (· ++ [trx]) with
    ⟨n', d', heq, -, hpopped', hlist, h'⟩ | ⟨e, n', heq, -, hpopped', hlist, h'⟩
  · exact .inl ⟨n', d', heq, hpopped', hlist, h'⟩
  · exact .inr ⟨e, n', heq, hpopped', hlist, h'⟩

/-- A pending transaction that is tried for a block. -/
theorem tryTransaction (hp : n.pending_tx_session = true) (skip : SkipFlags) (trx : C.Tx) :
    (∃ n' d', tryTransaction skip trx n = (.ok true, n') ∧ n'.pending_tx_session = true ∧
        SessionAt T s n' (q ++ [(skip, trx)]) d') ∨
      ∃ n', tryTransaction skip trx n = (.ok false, n') ∧ n'.pending_tx_session = true ∧
        SessionAt T s n' q d := by
  unfold Chain.tryTransaction
  rcases h.temporarySession hp skip trx id with
    ⟨n', d', heq, hp', -, -, h'⟩ | ⟨e, n', heq, hp', -, -, h'⟩
  · exact .inl ⟨n', d', attempt_of_ok (bind_of_ok heq), hp', h'⟩
  · exact .inr ⟨n', attempt_of_error (bind_of_error heq), hp', h'⟩

end SessionAt

/-- The pending session holds the transactions in the list of pending ones. -/
structure PendingAt (T : Tracked L) (s : SnapshotStack (Contents S)) (n : Node C)
    (q : List (SkipFlags × C.Tx)) (d : Contents S) : Prop extends SessionAt T s n q d where
  pending : q.map Prod.snd = n.pending_tx

namespace PendingAt

theorem of_cleanAt (h : CleanAt T s n) (hn : n.pending_tx = []) : PendingAt T s n [] s.cur :=
  ⟨.of_cleanAt h, hn.symm⟩

theorem setPopped (h : PendingAt T s n q d) (popped : List C.Tx) :
    PendingAt T s { n with popped_tx := popped } q d :=
  ⟨h.toSessionAt.setPopped popped, h.pending⟩

theorem _push_transaction (h : PendingAt T s n q d) (skip : SkipFlags) (trx : C.Tx) :
    (∃ n' d', _push_transaction skip trx n = (.ok (), n') ∧ n'.popped_tx = n.popped_tx ∧
        PendingAt T s n' (q ++ [(skip, trx)]) d') ∨
      ∃ e n', _push_transaction skip trx n = (.error e, n') ∧ n'.popped_tx = n.popped_tx ∧
        PendingAt T s n' q d := by
  rcases h.toSessionAt._push_transaction skip trx with
    ⟨n', d', heq, hpopped, hlist, h'⟩ | ⟨e, n', heq, hpopped, hlist, h'⟩
  · refine .inl ⟨n', d', heq, hpopped, h', ?_⟩
    rw [List.map_append, h.pending, hlist]
    rfl
  · exact .inr ⟨e, n', heq, hpopped, h', h.pending.trans hlist.symm⟩

end PendingAt

/-! ## What becomes of popped and pending transactions -/

/-- What became of a transaction that was to be pending again on the stack `s`, where `q` is pending
now: it is, or it was known when its turn came, or `_push_transaction` threw. When its turn came, a
first part of `q` was pending. -/
inductive Fate (T : Tracked L) (s : SnapshotStack (Contents S)) (skip : SkipFlags)
    (q : List (SkipFlags × C.Tx)) (trx : C.Tx) : Prop where
  | pending : (skip, trx) ∈ q → Fate T s skip q trx
  | known {m : Node C} {q1 : List (SkipFlags × C.Tx)} {d1 : Contents S} : q1 <+: q →
      SessionAt T s m q1 d1 → C.is_known_transaction d1.view trx = true → Fate T s skip q trx
  | rejected {m : Node C} {q1 : List (SkipFlags × C.Tx)} {d1 : Contents S} {e : NodeError C.E} :
      q1 <+: q → PendingAt T s m q1 d1 → (_push_transaction skip trx m).1 = .error e →
      Fate T s skip q trx

theorem Fate.mono {q q' : List (SkipFlags × C.Tx)} (h : q <+: q')
    (hf : Fate T s skip q trx) : Fate T s skip q' trx := by
  cases hf with
  | pending hmem => exact .pending (h.subset hmem)
  | known hpre hat hk => exact .known (hpre.trans h) hat hk
  | rejected hpre hat he => exact .rejected (hpre.trans h) hat he

/-- The transactions, all under the same flags. -/
def under (skip : SkipFlags) (l : List C.Tx) : List (SkipFlags × C.Tx) :=
  l.map fun trx => (skip, trx)

theorem under_append (skip : SkipFlags) (l1 l2 : List C.Tx) :
    under skip (l1 ++ l2) = under skip l1 ++ under skip l2 :=
  List.map_append

theorem map_snd_under (skip : SkipFlags) (l : List C.Tx) : (under skip l).map Prod.snd = l := by
  rw [under, List.map_map]
  exact List.map_id l

theorem flags_under {F : SkipFlags → Prop} (hF : F skip) (l : List C.Tx) :
    ∀ p ∈ under skip l, F p.1 := by
  intro p hp
  obtain ⟨trx, -, rfl⟩ := List.mem_map.1 hp
  exact hF

/-- One round of the loops in the destructor of `pending_transactions_restorer`. -/
theorem PendingAt.repush (h : PendingAt T s n q d) (skip : SkipFlags) (trx : C.Tx) :
    ∃ n', ∃ l : List C.Tx, ∃ d', repush skip trx n = (.ok (), n') ∧ n'.popped_tx = n.popped_tx ∧
      PendingAt T s n' (q ++ under skip l) d' ∧ l.Sublist [trx] ∧
      Fate T s skip (q ++ under skip l) trx := by
  unfold Chain.repush
  rw [get_bind_apply]
  cases hknown : C.is_known_transaction n.db.view trx with
  | true =>
    refine ⟨n, [], d, rfl, rfl, ?_, List.nil_sublist _, ?_⟩
    · rw [under, List.map_nil, List.append_nil]
      exact h
    · rw [h.view_eq] at hknown
      exact .known (List.prefix_append _ _) h.toSessionAt hknown
  | false =>
    rcases h._push_transaction skip trx with ⟨n', d', heq, hpopped, h'⟩ | ⟨e, n', heq, hpopped, h'⟩
    · refine ⟨n', [trx], d', attempt_of_ok heq, hpopped, h', List.Sublist.refl _, ?_⟩
      exact .pending (List.mem_append_right _ List.mem_cons_self)
    · refine ⟨n', [], d, attempt_of_error heq, hpopped, ?_, List.nil_sublist _, ?_⟩
      · rw [under, List.map_nil, List.append_nil]
        exact h'
      · exact .rejected (List.prefix_append _ _) h (congrArg Prod.fst heq)

theorem PendingAt.forEach_repush (h : PendingAt T s n q d) (skip : SkipFlags) (txs : List C.Tx) :
    ∃ n', ∃ l : List C.Tx, ∃ d', forEach txs (Chain.repush skip) n = (.ok (), n') ∧
      n'.popped_tx = n.popped_tx ∧ PendingAt T s n' (q ++ under skip l) d' ∧ l.Sublist txs ∧
      ∀ trx ∈ txs, Fate T s skip (q ++ under skip l) trx := by
  induction txs generalizing n q d with
  | nil =>
    refine ⟨n, [], d, rfl, rfl, ?_, List.nil_sublist _, nofun⟩
    rw [under, List.map_nil, List.append_nil]
    exact h
  | cons trx rest ih =>
    obtain ⟨n1, l1, d1, heq1, hpopped1, h1, hsub1, hfate1⟩ := h.repush skip trx
    obtain ⟨n2, l2, d2, heq2, hpopped2, h2, hsub2, hfate2⟩ := ih h1
    have hq : q ++ under skip (l1 ++ l2) = q ++ under skip l1 ++ under skip l2 := by
      rw [under_append, List.append_assoc]
    refine ⟨n2, l1 ++ l2, d2, (bind_of_ok heq1).trans heq2, hpopped2.trans hpopped1, hq ▸ h2,
      hsub1.append hsub2, ?_⟩
    rw [hq]
    exact List.forall_mem_cons.2 ⟨hfate1.mono (List.prefix_append _ _), hfate2⟩

/-- The destructor of `pending_transactions_restorer`, on a node without pending transactions: the
popped ones come first. -/
theorem restorePending_spec (h : PendingAt T s n [] d) (skip : SkipFlags) (pending : List C.Tx) :
    ∃ n', ∃ l : List C.Tx, ∃ d', restorePending skip pending n = (.ok (), n') ∧ n'.popped_tx = [] ∧
      PendingAt T s n' (under skip l) d' ∧ l.Sublist (n.popped_tx ++ pending) ∧
      ∀ trx ∈ n.popped_tx ++ pending, Fate T s skip (under skip l) trx := by
  obtain ⟨n1, l1, d1, heq1, -, h1, hsub1, hfate1⟩ := h.forEach_repush skip n.popped_tx
  obtain ⟨n2, l2, d2, heq2, hpopped2, h2, hsub2, hfate2⟩ :=
    (h1.setPopped []).forEach_repush skip pending
  have hq : under skip (l1 ++ l2) = [] ++ under skip l1 ++ under skip l2 := by
    rw [under_append, List.nil_append]
  refine ⟨n2, l1 ++ l2, d2, ?_, hpopped2, hq ▸ h2, hsub1.append hsub2, ?_⟩
  · unfold restorePending
    rw [get_bind_apply, bind_of_ok heq1, bind_of_ok (update_apply _ _)]
    exact heq2
  · rw [hq]
    exact List.forall_mem_append.2
      ⟨fun trx htrx => (hfate1 trx htrx).mono (List.prefix_append _ _), hfate2⟩

/-- The node inside `push_block`, when the pending transactions are about to come back. -/
def pushedNode (skip : SkipFlags) (b : B.Block) (n : Node C) : Node C :=
  (_push_block skip b (clear_pending n).2).2

/-- After `push_block`, however it ends, the tables are those of the head block with the pending
transactions applied, whatever they were before. -/
theorem push_block_pendingAt {b : B.Block} (hflags : T.Flags skip) (hok : T.Ok b)
    (h : NodeInvAt T s n) :
    ∃ s', ∃ l : List C.Tx, ∃ d, CleanAt T s' (pushedNode skip b n) ∧
      PendingAt T s' (push_block skip b n).2 (under skip l) d ∧
      l.Sublist ((pushedNode skip b n).popped_tx ++ n.pending_tx) ∧
      ∀ trx ∈ (pushedNode skip b n).popped_tx ++ n.pending_tx,
        Fate T s' skip (under skip l) trx := by
  obtain ⟨db, hclear, hclean⟩ := clear_pending_clean h
  have hpushed : pushedNode skip b n =
      (_push_block skip b { n with db := db, pending_tx := [], pending_tx_session := false }).2 := by
    rw [pushedNode, hclear]
  obtain ⟨s', hs'⟩ := _push_block_clean hflags hok _ ⟨s, hclean⟩
  rw [← hpushed] at hs'
  have hnone : (pushedNode skip b n).pending_tx = [] := by
    rw [hpushed]
    exact KeepsPending._push_block skip b [] _ rfl
  obtain ⟨n', l, d, heq, -, hat, hsub, hfate⟩ :=
    restorePending_spec (.of_cleanAt hs' hnone) skip n.pending_tx
  refine ⟨s', l, d, hs', ?_, hsub, hfate⟩
  have hresult : (push_block skip b n).2 = n' := by
    have hclear' : clear_pending { n with pending_tx := [] } =
        (.ok (), { n with db := db, pending_tx := [], pending_tx_session := false }) := hclear
    unfold push_block without_pending_transactions
    rw [get_bind_apply, bind_of_ok (update_apply _ n), bind_of_ok hclear', withDestructor, ← hpushed,
      heq]
  rw [hresult]
  exact hat

/-! ## Calls and runs -/

/-- The tables are those of the head block with the transactions of the pending session applied,
each under flags in `F`. Where `R` holds, they are the transactions in the list. -/
def SessionInv (T : Tracked L) (F : SkipFlags → Prop) (R : Prop) (n : Node C) : Prop :=
  ∃ s q d, SessionAt T s n q d ∧ (∀ p ∈ q, F p.1) ∧ (R → q.map Prod.snd = n.pending_tx)

variable {F : SkipFlags → Prop} {R : Prop} {skip : SkipFlags}

theorem SessionInv.nodeInv (h : SessionInv T F R n) : NodeInv T n := by
  obtain ⟨s, q, d, hat, -⟩ := h
  exact ⟨s, hat.nodeInvAt⟩

theorem CleanAt.sessionInv (h : CleanAt T s n) (hn : R → n.pending_tx = []) : SessionInv T F R n :=
  ⟨s, [], s.cur, .of_cleanAt h, List.forall_mem_nil _, fun hR => (hn hR).symm⟩

theorem push_block_sessionInv {b : B.Block} (hflags : T.Flags skip) (hok : T.Ok b) (hF : F skip)
    (h : NodeInvAt T s n) : SessionInv T F R (push_block skip b n).2 := by
  obtain ⟨s', l, d, -, hat, -⟩ := push_block_pendingAt hflags hok h
  exact ⟨s', under skip l, d, hat.toSessionAt, flags_under hF l, fun _ => hat.pending⟩

theorem push_transaction_sessionInv (hF : F skip) (trx : C.Tx) :
    Preserves (SessionInv T F R) (push_transaction skip trx) := by
  refine .bind .get fun _ => .bind (.assert _ _) fun _ => ?_
  rintro n ⟨s, q, d, h, hq, hR⟩
  rcases h._push_transaction skip trx with
    ⟨n', d', heq, -, hlist, h'⟩ | ⟨e, n', heq, -, hlist, h'⟩
  · rw [heq]
    refine ⟨s, _, d', h', ?_, fun hr => ?_⟩
    · exact List.forall_mem_append.2 ⟨hq, List.forall_mem_singleton.2 hF⟩
    · rw [List.map_append, hR hr, hlist]
      rfl
  · rw [heq]
    exact ⟨s, q, d, h', hq, fun hr => (hR hr).trans hlist.symm⟩

/-- A pop drops the session, but not the list. -/
theorem pop_block_sessionInv (h : NodeInvAt T s n) (hn : R → n.pending_tx = []) :
    SessionInv T F R (pop_block [] n).2 := by
  have hlist : R → (pop_block [] n).2.pending_tx = [] :=
    fun hR => (KeepsPending.free []).pop_block n (hn hR)
  obtain ⟨db, heq, hclean⟩ := resetPendingSession_clean h
  rw [pop_block_reset [] heq hclean.1] at hlist ⊢
  rcases pop_block_cleanAt [] hclean with ⟨-, e, heq'⟩ | ⟨f, n', -, heq', -, h'⟩
  · rw [heq'] at hlist ⊢
    exact hclean.sessionInv hlist
  · rw [heq'] at hlist ⊢
    exact h'.sessionInv hlist

theorem clear_pending_sessionInv (h : NodeInvAt T s n) :
    SessionInv T F R (clear_pending n).2 := by
  obtain ⟨db, heq, hclean⟩ := clear_pending_clean h
  rw [heq]
  exact hclean.sessionInv fun _ => rfl

/-- The loop of `_generate_block` throws nothing itself. The transactions it picks are applied in
order on top of what the session holds, and with them the estimated size stays below the maximum. -/
theorem SessionAt.pickTransactions (skip : SkipFlags) (args : C.GenArgs) (maximum : ℕ)
    (txs : List C.Tx) (size : ℕ) (picked : List C.Tx) (h : SessionAt T s n q d)
    (hp : n.pending_tx_session = true) :
    ∃ n', ∃ l : List C.Tx, ∃ d',
      pickTransactions skip args maximum txs size picked n = (.ok (picked ++ l), n') ∧
      SessionAt T s n' (q ++ under skip l) d' ∧ l.Sublist txs ∧
      (l = [] ∨ size + (l.map C.pack_size).sum < maximum) := by
  induction txs generalizing size picked n q d with
  | nil =>
    refine ⟨n, [], d, ?_, ?_, List.nil_sublist _, Or.inl rfl⟩
    · rw [List.append_nil]
      rfl
    · rw [under, List.map_nil, List.append_nil]
      exact h
  | cons trx rest ih =>
    -- a transaction that is left out
    have hskip : ∀ {m : Node C}, SessionAt T s m q d → m.pending_tx_session = true →
        ∃ n', ∃ l : List C.Tx, ∃ d',
          Chain.pickTransactions skip args maximum rest size picked m = (.ok (picked ++ l), n') ∧
          SessionAt T s n' (q ++ under skip l) d' ∧ l.Sublist (trx :: rest) ∧
          (l = [] ∨ size + (l.map C.pack_size).sum < maximum) := by
      intro m hm hpm
      obtain ⟨n', l, d', heq, h', hsub, hsize⟩ := ih size picked hm hpm
      exact ⟨n', l, d', heq, h', hsub.cons trx, hsize⟩
    unfold Chain.pickTransactions
    split
    · exact hskip h hp
    · split
      · exact hskip h hp
      · next hbig =>
        rcases h.tryTransaction hp skip trx with ⟨n1, d1, htry, hp1, h1⟩ | ⟨n1, htry, hp1, h1⟩
        · rw [bind_of_ok htry]
          obtain ⟨n', l, d', heq, h', hsub, hsize⟩ :=
            ih (size + C.pack_size trx) (picked ++ [trx]) h1 hp1
          have hq : q ++ under skip (trx :: l) = q ++ [(skip, trx)] ++ under skip l :=
            List.append_cons ..
          refine ⟨n', trx :: l, d', ?_, hq ▸ h', hsub.cons_cons trx, Or.inr ?_⟩
          · rw [if_pos rfl, heq, List.append_assoc]
            rfl
          · rw [List.map_cons, List.sum_cons]
            rcases hsize with rfl | hsize
            · rw [List.map_nil, List.sum_nil]
              omega
            · omega
        · rw [bind_of_ok htry]
          exact hskip h1 hp1

/-- The transactions of a block are found: they apply in order to the contents of the head block. The
pending session is gone, the list is not. -/
theorem collectTransactions_spec (skip : SkipFlags) (args : C.GenArgs) (h : NodeInvAt T s n) :
    ∃ n', ∃ picked : List C.Tx, ∃ d, collectTransactions skip args n = (.ok picked, n') ∧
      CleanAt T s n' ∧ n'.pending_tx = n.pending_tx ∧
      applyTransactions C s.cur (under skip picked) = .ok d ∧ picked.Sublist n.pending_tx ∧
      (picked = [] ∨
        C.max_block_header_size + (picked.map C.pack_size).sum < C.maximum_block_size n.db.view) := by
  have hlist := (KeepsPending.free n.pending_tx).tables.collectTransactions skip args n rfl
  obtain ⟨db1, hreset, hclean⟩ := resetPendingSession_clean h
  obtain ⟨n2, hopen, hp, -, -, h2⟩ := (SessionAt.of_cleanAt hclean).openPendingSession
  obtain ⟨n3, picked, d, hpick, h3, hsub, hsize⟩ := h2.pickTransactions skip args
    (C.maximum_block_size n.db.view) n.pending_tx C.max_block_header_size [] hp
  obtain ⟨db4, hreset', hclean'⟩ := resetPendingSession_clean h3.nodeInvAt
  have heq : collectTransactions skip args n =
      (.ok picked, { n3 with db := db4, pending_tx_session := false }) := by
    unfold collectTransactions
    rw [get_bind_apply, bind_of_ok hreset, bind_of_ok hopen, bind_of_ok hpick, bind_of_ok hreset']
    rfl
  rw [heq] at hlist
  exact ⟨_, picked, d, heq, hclean', hlist, h3.applied, hsub, hsize⟩

/-- Block production gets to `push_block`, which rebuilds the pending session, unless it throws before
it touches the tables or because the block is too big. -/
theorem generate_block_sessionInv {args : C.GenArgs} (hflags : T.Flags skip)
    (hok : ∀ v txs, T.Ok (C.assemble skip v args txs)) (hF : F skip) (h : SessionInv T F R n)
    (hres : R → n.pending_tx = [] ∨
      ∀ b ∈ n.assembled skip args, (skip.skip_block_size_check || C.fits b) = true) :
    SessionInv T F R (generate_block skip args n).2 := by
  obtain ⟨s, hs⟩ := h.nodeInv
  unfold generate_block
  unfold Node.assembled at hres
  rw [get_bind_apply]
  cases hmay : C.mayGenerate skip n.db.view args with
  | error e => exact h
  | ok u =>
    obtain ⟨n1, picked, -, hcollect, hclean, hlist, -⟩ := collectTransactions_spec skip args hs
    simp only [hmay, hcollect] at hres ⊢
    generalize hb : C.assemble skip n1.db.view args picked = b
    have hokb : T.Ok b := hb ▸ hok _ _
    rw [bind_of_ok hcollect, sealBlock_apply hb]
    split
    · rw [bind_pure_snd]
      exact push_block_sessionInv hflags hokb hF hclean.nodeInvAt
    · next hbig =>
      refine hclean.sessionInv fun hR => ?_
      rcases hres hR with hn | hfits
      · exact hlist.trans hn
      · exact absurd (hfits b (by rw [hb]; rfl)) hbig

/-- The call leaves no pending transactions without their session: a pop finds none, and block
production finds none or assembles a block that is not too big. -/
def Call.RestoresPending (n : Node C) : Call C → Prop
  | .push_block _ _ => True
  | .generate_block skip args =>
    n.pending_tx = [] ∨ ∀ b ∈ n.assembled skip args, (skip.skip_block_size_check || C.fits b) = true
  | .push_transaction _ _ => True
  | .pop_block => n.pending_tx = []
  | .clear_pending => True

/-- Transactions become pending in this call under these flags. -/
def Call.PushesUnder (F : SkipFlags → Prop) : Call C → Prop
  | .push_block skip _ => F skip
  | .generate_block skip _ => F skip
  | .push_transaction skip _ => F skip
  | .pop_block => True
  | .clear_pending => True

theorem perform_sessionInv {call : Call C} (hadmits : T.Admits call) (hF : call.PushesUnder F)
    (h : SessionInv T F R n) (hcall : R → call.RestoresPending n) :
    SessionInv T F R (call.perform n).2 := by
  obtain ⟨s, hs⟩ := h.nodeInv
  cases call with
  | push_block skip b =>
    rw [Call.perform, bind_pure_snd]
    exact push_block_sessionInv hadmits.1 hadmits.2 hF hs
  | generate_block skip args =>
    rw [Call.perform, bind_pure_snd]
    exact generate_block_sessionInv hadmits.1 hadmits.2 hF h hcall
  | push_transaction skip trx => exact push_transaction_sessionInv hF trx n h
  | pop_block => exact pop_block_sessionInv hs hcall
  | clear_pending => exact clear_pending_sessionInv hs

theorem run_sessionInv {calls : List (Call C)} (hadmits : ∀ call ∈ calls, T.Admits call)
    (hF : ∀ call ∈ calls, call.PushesUnder F) (h : SessionInv T F R n)
    (hcalls : R → Node.Along Call.RestoresPending n calls) : SessionInv T F R (n.run calls) := by
  induction calls generalizing n with
  | nil => exact h
  | cons call rest ih =>
    obtain ⟨hcall, hadmits⟩ := List.forall_mem_cons.1 hadmits
    obtain ⟨hf, hF⟩ := List.forall_mem_cons.1 hF
    exact ih hadmits hF (perform_sessionInv hcall hf h fun hR => (hcalls hR).1)
      fun hR => (hcalls hR).2

/-- The tables hold what the pending transactions, applied in order and each under flags in `F`, make
of the contents that are left without them. -/
def Node.PendingApplied (n : Node C) (F : SkipFlags → Prop) : Prop :=
  ∃ n' c q d, clear_pending n = (.ok (), n') ∧ n'.Holds c ∧ q.map Prod.snd = n.pending_tx ∧
    (∀ p ∈ q, F p.1) ∧ applyTransactions C c q = .ok d ∧ n.Holds d

theorem SessionAt.holds (h : SessionAt T s n q d) : n.Holds d := by
  intro t
  rw [← h.cur_eq]
  exact ⟨(h.db t).rows, (h.db t).next_id⟩

theorem PendingAt.pendingApplied (h : PendingAt T s n q d) (hq : ∀ p ∈ q, F p.1) :
    n.PendingApplied F := by
  obtain ⟨db, heq, -, -, href⟩ := clear_pending_clean h.nodeInvAt
  exact ⟨_, s.cur, q, d, heq, fun t => ⟨(href t).rows, (href t).next_id⟩, h.pending, hq, h.applied,
    h.holds⟩

end Calibrd.Chain
