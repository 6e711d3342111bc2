import Calibrd.Chain.NoReplay

/-!
# Pending transactions in every run

The tables of a node hold what the pending transactions make of the head block's contents, in every
run in which no pop and no block that gets too big finds transactions pending. After a push, whatever
happened before, every transaction that was pending or was popped is in the chain, pending again in
the old order, or was refused by `_push_transaction`.
-/

namespace Calibrd.Chain

open Calibrd.Lib Calibrd.Chainbase Stateful Prog

namespace Protocol

variable {B : BlockSpec} {P : Protocol B}

/-- With the duplicate check, pending transactions are new and different from each other. -/
theorem applyTransactions_new {q : List (SkipFlags × P.Tx)} {c d : Contents P.tables}
    (hdupe : ∀ p ∈ q, ChecksDuplicates p.1) (h : applyTransactions P.chain c q = .ok d) :
    ((q.map Prod.snd).map P.trx_id).Nodup ∧ ∀ p ∈ q, P.isKnown c.added.rows p.2 = false := by
  induction q generalizing c with
  | nil => exact ⟨List.nodup_nil, List.forall_mem_nil _⟩
  | cons p rest ih =>
    obtain ⟨skip, trx⟩ := p
    obtain ⟨hskip, hdupe⟩ := List.forall_mem_cons.1 hdupe
    obtain ⟨c₁, hfirst, hrest⟩ := applyTransactions_cons h
    obtain ⟨hnodup, hnew⟩ := ih hdupe hrest
    obtain ⟨-, -, -, htable, -⟩ := Laws.run_apply_transaction_iff.1 hfirst
    rw [Laws.Notes, show skip.skip_transaction_dupe_check = false from hskip, if_neg Bool.false_ne_true] at htable
    obtain ⟨htrx, hcreate⟩ := htable
    -- what comes later is not known after this one, so it was not before and is another
    have hlater : ∀ p ∈ rest, P.isKnown c.added.rows p.2 = false ∧ P.trx_id trx ≠ P.trx_id p.2 := by
      intro p hp
      have hp1 := Bool.eq_false_iff.1 (hnew p hp)
      rw [Ne, isKnown_create hcreate, not_or] at hp1
      exact ⟨Bool.eq_false_iff.2 hp1.1, hp1.2⟩
    refine ⟨List.nodup_cons.2 ⟨fun hmem => ?_, hnodup⟩, ?_⟩
    · obtain ⟨x, hx, hid⟩ := List.mem_map.1 hmem
      obtain ⟨p, hp, rfl⟩ := List.mem_map.1 hx
      exact (hlater p hp).2 hid.symm
    · exact List.forall_mem_cons.2 ⟨htrx, fun p hp => (hlater p hp).1⟩

/-- What a push under `skip` leaves of the transactions `txs`, the popped ones followed by those that
were pending. Transactions are told apart by their ids. -/
structure Rebuilt (P : Protocol B) (skip : SkipFlags) (txs : List P.Tx) (l : List B.Block)
    (n' : Node P.chain) : Prop where
  applied : n'.PendingApplied (· = skip)
  order : n'.pending_tx.Sublist txs
  once : ChecksDuplicates skip → (n'.pending_tx.map P.trx_id).Nodup
  fate : ∀ trx ∈ txs, (∃ b ∈ l, ∃ x ∈ P.transactions b, P.trx_id x = P.trx_id trx) ∨
    (∃ x ∈ n'.pending_tx, P.trx_id x = P.trx_id trx) ∨
    ∃ (m : Node P.chain) (e : NodeError P.E), m.head_block_id = n'.head_block_id ∧
      m.pending_tx <+: n'.pending_tx ∧ m.PendingApplied (· = skip) ∧
      (_push_transaction skip trx m).1 = .error e

section Rebuilt

variable {Λ : P.Laws} {T : Tracked Λ.chainLaws} {s : SnapshotStack (Contents P.tables)}
  {n' : Node P.chain} {skip : SkipFlags} {new txs : List P.Tx} {d : Contents P.tables}
  {l : List (SkipFlags × B.Block)} {g : Contents P.S}

theorem rebuilt_of_fate (K : P.Clock Λ) (hg : Λ.chainLaws.Inv (g.extend .empty))
    (hl : TookChain P.chain (g.extend .empty) l s.cur)
    (h : PendingAt T s n' (under skip new) d) (hsub : new.Sublist txs)
    (hfate : ∀ trx ∈ txs, Fate T s skip (under skip new) trx) :
    P.Rebuilt skip txs (l.map Prod.snd) n' := by
  have hlist : new = n'.pending_tx := by
    rw [← h.pending]
    exact (map_snd_under (C := P.chain) skip new).symm
  have hinv : Λ.Inv s.cur.base := h.base.stack.inv_cur
  have hempty : P.Guarded False [] (g.extend .empty) := .empty g
  have hguard := hempty.tookChain K False.elim False.elim hg hl
  rw [List.nil_append] at hguard
  have hflags : ∀ p ∈ under (C := P.chain) skip new, p.1 = skip :=
    flags_under (C := P.chain) (F := (· = skip)) rfl new
  refine ⟨h.pendingApplied hflags, hlist ▸ hsub, fun hdupe => ?_, fun trx htrx => ?_⟩
  · rw [← h.pending]
    exact (applyTransactions_new (flags_under (C := P.chain) hdupe new) h.applied).1
  cases hfate trx htrx with
  | pending hmem =>
    refine Or.inr (Or.inl ⟨trx, ?_, rfl⟩)
    rw [← h.pending]
    exact List.mem_map_of_mem hmem
  | @known m q1 d1 hpre hat hk =>
    -- the table has the transactions of the chain and those pending so far
    have hpending := hguard.applyTransactions K False.elim False.elim hinv hat.applied
    obtain ⟨x, hx, hid⟩ := hpending.mem_of_isKnown hk
    rcases List.mem_append.1 hx with hx | hx
    · obtain ⟨p, hp, hxp⟩ := List.mem_flatMap.1 hx
      exact Or.inl ⟨p.2, List.mem_map_of_mem hp, x, hxp, hid⟩
    · refine Or.inr (Or.inl ⟨x, ?_, hid⟩)
      rw [← h.pending]
      exact (hpre.map Prod.snd).subset hx
  | @rejected m q1 d1 e hpre hat he =>
    refine Or.inr (Or.inr ⟨m, e, ?_, ?_, ?_, he⟩)
    · exact hat.nodeInvAt.head_block_id.trans h.nodeInvAt.head_block_id.symm
    · rw [← hat.pending, ← h.pending]
      exact hpre.map Prod.snd
    · exact hat.pendingApplied fun p hp => hflags p (hpre.subset hp)

end Rebuilt

/-- In every run from genesis whose pops find nothing pending, and in which the block that is assembled
from pending transactions is not too big, the tables are those of the head block with the pending transactions applied. And after
any run, a push leaves the pending and the popped transactions in the chain, pending or refused. -/
theorem run_pendingApplied (Λ : P.Laws) (K : P.Clock Λ) {n₀ : Node P.chain} {g : Contents P.S}
    (h₀ : Opened Λ.chainLaws n₀ (g.extend .empty)) (hfork : n₀.fork = .init)
    (hpending : n₀.pending_tx = []) (calls : List (Call P.chain)) :
    (∀ F, (∀ call ∈ calls, call.PushesUnder F) → Node.Along Call.RestoresPending n₀ calls →
      (n₀.run calls).PendingApplied F) ∧
    ∀ skip b, ∃ m c l, clear_pending (push_block skip b (n₀.run calls)).2 = (.ok (), m) ∧ m.Holds c ∧
      Taken P.chain (calls ++ [.push_block skip b]) (g.extend .empty) c l ∧
      P.Rebuilt skip ((pushedNode skip b (n₀.run calls)).popped_tx ++ (n₀.run calls).pending_tx)
        (l.map Prod.snd) (push_block skip b (n₀.run calls)).2 := by
  constructor
  · intro F hF hcalls
    have hstart : SessionInv (Tracked.taken Λ.chainLaws calls (g.extend .empty)) F True n₀ :=
      (h₀.taken hfork calls).sessionInv fun _ => hpending
    obtain ⟨s, q, d, hat, hq, hlist⟩ := run_sessionInv
      (fun call hcall => Tracked.taken_admits Λ.chainLaws (g.extend .empty) hcall) hF hstart
      fun _ => hcalls
    exact PendingAt.pendingApplied ⟨hat, hlist True.intro⟩ hq
  · intro skip b
    -- the blocks of the run and the pushed one
    have hadmits : ∀ call ∈ calls ++ [.push_block skip b],
        (Tracked.taken Λ.chainLaws (calls ++ [.push_block skip b]) (g.extend .empty)).Admits call :=
      fun call hcall => Tracked.taken_admits Λ.chainLaws (g.extend .empty) hcall
    obtain ⟨hrun, hpush⟩ := List.forall_mem_append.1 hadmits
    have hpush := List.forall_mem_singleton.1 hpush
    obtain ⟨s, hs⟩ := run_nodeInv hrun ⟨_, (h₀.taken hfork _).nodeInvAt⟩
    obtain ⟨s', new, d, -, hat, hsub, hfate⟩ := push_block_pendingAt hpush.1 hpush.2 hs
    obtain ⟨db, hclear, -, hbase, href⟩ := clear_pending_clean hat.nodeInvAt
    obtain ⟨l, hl⟩ := hbase.tracked True.intro _ s'.cur_mem_values
    exact ⟨_, s'.cur, l, hclear, fun t => ⟨(href t).rows, (href t).next_id⟩, hl,
      rebuilt_of_fate K h₀.inv hl.2.2 hat hsub hfate⟩

end Protocol

namespace HeaderChain

/-- A block, a pending transaction, and a pop. -/
def popCalls : List (Call ledger.chain) :=
  [.push_block skip_nothing (⟨.zero, 1, 0⟩ : Header), .push_transaction skip_nothing (8 : ℕ),
    .pop_block]

/-- The pop drops the session of the pending transaction, which stays in the list: it is no longer in
the table of transactions. -/
theorem pop_drops_session : (∀ call ∈ popCalls, call.PushesUnder (· = skip_nothing)) ∧
    ¬ (ledgerNode.run popCalls).PendingApplied (· = skip_nothing) := by
  refine ⟨by simp [popCalls, Call.PushesUnder], ?_⟩
  rintro ⟨n', c, q, d, -, -, hlist, hflags, happlied, hholds⟩
  have hone : (ledgerNode.run popCalls).pending_tx.length = 1 := by decide +kernel
  have hempty : ((ledgerNode.run popCalls).db none).indices.rows.isEmpty = true := by decide +kernel
  -- the transaction, applied with the duplicate check, would be in the table
  rw [← hlist, List.length_map] at hone
  obtain ⟨⟨skip, trx⟩, rfl⟩ := List.length_eq_one_iff.1 hone
  obtain rfl : skip = skip_nothing := hflags _ List.mem_cons_self
  obtain ⟨c₁, hrun, hrest⟩ := applyTransactions_cons happlied
  obtain rfl : c₁ = d := Except.ok.inj hrest
  obtain ⟨-, -, -, ⟨-, hcreate⟩, -⟩ := Protocol.Laws.run_apply_transaction_iff.1 hrun
  obtain ⟨-, hrows, -⟩ := Table.create_eq_some hcreate
  have hfind := OrdMap.find?_insert_self c.added.rows c.added.next_id (ledger.transactionObject trx)
  rw [← hrows] at hfind
  have hindices : ((ledgerNode.run popCalls).db none).indices = c₁.added.rows := (hholds none).1
  have hmem := OrdMap.mem_rows.2 hfind
  rw [← hindices, List.isEmpty_iff.1 hempty] at hmem
  cases hmem

/-- A block with the transaction 7, the pending transaction 8, and a sibling of the block. -/
def siblingCalls : List (Call ledger.chain) :=
  [.push_block skip_nothing firstBlock, .push_transaction skip_nothing (8 : ℕ),
    .push_block skip_nothing (⟨.zero, 1, 9⟩ : Header)]

/-- A block on the sibling. -/
def onSibling : Header := ⟨.block .zero 1 9, 2, 0⟩

/-- The switch to the sibling makes the transaction of the first block pending, before the other. -/
theorem run_pendingApplied_switch :
    ((push_block skip_nothing onSibling (ledgerNode.run siblingCalls)).2.pending_tx.map
        fun trx : ℕ => trx) = [7, 8] ∧
      (ledgerNode.run siblingCalls).PendingApplied (· = skip_nothing) ∧
      ∃ m c l, clear_pending (push_block skip_nothing onSibling (ledgerNode.run siblingCalls)).2 =
          (.ok (), m) ∧ m.Holds c ∧
        Taken ledger.chain (siblingCalls ++ [.push_block skip_nothing onSibling])
          (genesis.extend .empty) c l ∧
        ledger.Rebuilt skip_nothing
          ((pushedNode skip_nothing onSibling (ledgerNode.run siblingCalls)).popped_tx ++
            (ledgerNode.run siblingCalls).pending_tx)
          (l.map Prod.snd) (push_block skip_nothing onSibling (ledgerNode.run siblingCalls)).2 := by
  obtain ⟨happlied, hrebuilt⟩ := Protocol.run_pendingApplied ledgerLaws ledgerClock opened_ledger rfl
    rfl siblingCalls
  have hflags : ∀ call ∈ siblingCalls, call.PushesUnder (· = skip_nothing) := by
    simp [siblingCalls, Call.PushesUnder]
  have hrestores : Node.Along Call.RestoresPending ledgerNode siblingCalls :=
    ⟨True.intro, True.intro, True.intro, True.intro⟩
  exact ⟨by decide +kernel, happlied _ hflags hrestores, hrebuilt skip_nothing onSibling⟩

end HeaderChain

end Calibrd.Chain
