import Calibrd.Chain.BlockLog
import Calibrd.Chain.BlockSummaries

/-!
# Blocks by their number

`find_block_id_for_num` asks the block summaries, then the block log, then the main branch of the
fork database. `fetch_block_by_number` takes the item of the fork database if it is the only one with
this number, and asks the block log otherwise. But reversible blocks are not in the log: while two
blocks with one number are held, the block of the main chain is not found, though its id is.
-/

namespace Calibrd.Chain

open Calibrd.Lib Calibrd.Chainbase Stateful

variable {B : BlockSpec} {S : Schema}

namespace Node

section

variable {C : ChainSpec B S}

/-- `block_log::read_block_by_num`. The assertion in `append` ties the place of a block in the log to
its number. -/
def read_block_by_num (n : Node C) (block_num : ℕ) : Option B.Block :=
  n.block_log.find? fun b => B.block_num b = block_num

def fetch_block_by_number (n : Node C) (block_num : ℕ) : Option B.Block :=
  match n.fork.fetch_block_by_number block_num with
  | [p] => (n.fork.item? p).map (·.data)
  | _ => n.read_block_by_num block_num

/-- The item is one of the main chain. -/
def OnMain (n : Node C) (p : Ptr) : Prop :=
  ∃ item, n.fork.item? p = some item ∧ Ancestor B item.id n.head_block_id

/-- The fork database has no other block with this number than that of the main chain, or the block
is irreversible and the fork database has none or several. -/
def Unrivaled (n : Node C) (k : ℕ) : Prop :=
  (∀ p ∈ n.fork.fetch_block_by_number k, n.OnMain p) ∨
    k ≤ n.last_irreversible_block_num ∧ (n.fork.fetch_block_by_number k).length ≠ 1

end

variable {C : ChainSpec B (S.extend (summaryKeys B))}

def find_block_id_for_num (n : Node C) (block_num : ℕ) : B.Id :=
  if block_num = 0 then B.zero
  else
    -- reversible blocks are usually among the summaries
    let bs := (View.added n.db.view).find? (summaryId block_num)
    match bs.filter fun bs => B.num_from_id bs.block_id = block_num with
    | some bs => bs.block_id
    | none =>
      -- irreversible blocks are in the log
      match n.read_block_by_num block_num with
      | some b => B.id b
      | none =>
        match n.fork.fetch_block_on_main_branch_by_number [] block_num with
        | some fitem => fitem.id
        | none => B.zero

/-- Both lookups give the block of the main chain. -/
def LookupExact (n : Node C) (k : ℕ) : Prop :=
  n.MainBlock k (n.find_block_id_for_num k) ∧
    ∃ b, n.fetch_block_by_number k = some b ∧ B.id b = n.find_block_id_for_num k

end Node

/-! ## One item per block -/

variable {y : B.Id} {p : Ptr}

namespace ForkDatabase

variable {f f' : ForkDatabase B}

structure Distinct (f : ForkDatabase B) : Prop where
  valid : ∀ p ∈ f.index, p < f.heap.length
  ids : f.index.Pairwise fun p q => ∀ x y, f.item? p = some x → f.item? q = some y → x.id ≠ y.id

theorem Distinct.of_sublist (h : f.Distinct) (hheap : f'.heap = f.heap)
    (hindex : f'.index.Sublist f.index) : f'.Distinct := by
  refine ⟨fun p hp => ?_, ?_⟩
  · rw [hheap]
    exact h.valid p (hindex.subset hp)
  · unfold item?
    rw [hheap]
    exact h.ids.sublist hindex

theorem Distinct.push {b : B.Block} (h : f.Distinct) (hpush : f.push_block b = .ok f') :
    f'.Distinct := by
  obtain ⟨prev, -, hf'⟩ := push_block_ok hpush
  have hheap : f'.heap = f.heap ++ [⟨b, prev, false⟩] := by
    rw [hf']
    split <;> simp
  have hitem : ∀ p ∈ f.index, f'.item? p = f.item? p := by
    intro p hp
    rw [item?, hheap, List.getElem?_append_left (h.valid p hp)]
    rfl
  have hold : f.index.Pairwise
      fun p q => ∀ x y, f'.item? p = some x → f'.item? q = some y → x.id ≠ y.id := by
    refine h.ids.imp_of_mem fun hp hq hne x y hx hy => ?_
    rw [hitem _ hp] at hx
    rw [hitem _ hq] at hy
    exact hne x y hx hy
  have hvalid : ∀ p ∈ f.index, p < f'.heap.length := by
    intro p hp
    rw [hheap, List.length_append]
    exact Nat.lt_add_right _ (h.valid p hp)
  -- the new item is not inserted if there is one with its id
  have hindex : f'.index = f.index ∨ f'.index = f.index ++ [f.heap.length] ∧
      (fetch_block { f with heap := f.heap ++ [⟨b, prev, false⟩] } (B.id b)) = none := by
    rw [hf']
    unfold insertIndex
    split <;> split <;> simp_all
  rcases hindex with hindex | ⟨hindex, hnone⟩
  · exact ⟨hindex ▸ hvalid, hindex ▸ hold⟩
  · refine ⟨?_, ?_⟩
    · rw [hindex]
      refine List.forall_mem_append.2 ⟨hvalid, List.forall_mem_singleton.2 ?_⟩
      simp [hheap]
    · rw [hindex]
      refine List.pairwise_append.2 ⟨hold, List.pairwise_singleton _ _, ?_⟩
      intro p hp q hq x y hx hy
      rw [List.mem_singleton.1 hq, item?, hheap] at hy
      simp only [List.getElem?_append_right le_rfl, Nat.sub_self, List.getElem?_cons_zero,
        Option.some.injEq] at hy
      have hfound := List.find?_eq_none.1 hnone p hp
      intro heq
      refine hfound ?_
      rw [show item? { f with heap := f.heap ++ [⟨b, prev, false⟩] } p = some x by
        rw [← hx, item?, item?, hheap]]
      rw [← hy] at heq
      exact decide_eq_true heq

theorem stable_distinct : Stable (B := B) Distinct where
  set_max_size {f} s h := by
    refine h.of_sublist (f.set_max_size_heap s) ?_
    unfold ForkDatabase.set_max_size
    split
    · exact List.Sublist.refl _
    · exact List.filter_sublist
  remove _ h := h.of_sublist rfl List.filter_sublist
  set_head _ h := h.of_sublist rfl (List.Sublist.refl _)

theorem mem_fetch_iff {k : ℕ} :
    p ∈ f.fetch_block_by_number k ↔ p ∈ f.index ∧ ∃ item, f.item? p = some item ∧ item.num = k := by
  simp only [fetch_block_by_number, List.mem_filter, Option.any_eq_true, decide_eq_true_eq]

theorem Distinct.single (h : f.Distinct) {k : ℕ} (hp : p ∈ f.fetch_block_by_number k)
    (hall : ∀ q ∈ f.fetch_block_by_number k, ∀ item, f.item? q = some item → item.id = y) :
    f.fetch_block_by_number k = [p] := by
  have hids := h.ids.filter fun p => (f.item? p).any fun item => item.num = k
  have hitem : ∀ q ∈ f.fetch_block_by_number k, ∃ item, f.item? q = some item := fun q hq =>
    (mem_fetch_iff.1 hq).2.imp fun _ h => h.1
  rcases hl : f.fetch_block_by_number k with _ | ⟨q, _ | ⟨r, rest⟩⟩
  · rw [hl] at hp
    cases hp
  · rw [hl] at hp
    rw [List.mem_singleton.1 hp]
  · exfalso
    have hq : q ∈ f.fetch_block_by_number k := hl ▸ List.mem_cons_self
    have hr : r ∈ f.fetch_block_by_number k := hl ▸ List.mem_cons_of_mem _ List.mem_cons_self
    obtain ⟨x, hx⟩ := hitem q hq
    obtain ⟨y', hy'⟩ := hitem r hr
    change (f.fetch_block_by_number k).Pairwise _ at hids
    rw [hl] at hids
    exact List.rel_of_pairwise_cons hids List.mem_cons_self x y' hx hy'
      ((hall q hq x hx).trans (hall r hr y' hy').symm)

end ForkDatabase

/-! ## The lookups where the log is kept -/

/-- In a log of a branch the number gives the place. -/
theorem LogBelow.read {C : ChainSpec B S} {n : Node C} {x : B.Id} (h : LogBelow n.block_log x) {k : ℕ}
    (hk : 1 ≤ k) : n.read_block_by_num k = n.block_log[k - 1]? := by
  have hplace : ∀ b ∈ n.block_log, B.block_num b = k → n.block_log[k - 1]? = some b := by
    intro b hb hnum
    obtain ⟨i, hi⟩ := List.getElem?_of_mem hb
    have hi' : B.block_num b = i + 1 := (B.num_id b).symm.trans (h i b hi).1
    rw [show k - 1 = i by omega]
    exact hi
  unfold Node.read_block_by_num
  cases hfind : n.block_log.find? fun b => B.block_num b = k with
  | some b =>
    have hnum := List.find?_some hfind
    exact (hplace b (List.mem_of_find?_eq_some hfind) (of_decide_eq_true hnum)).symm
  | none =>
    cases hget : n.block_log[k - 1]? with
    | none => rfl
    | some b =>
      exfalso
      have hnum : B.block_num b = k - 1 + 1 := (B.num_id b).symm.trans (h _ b hget).1
      exact List.find?_eq_none.1 hfind b (List.mem_of_getElem? hget) (decide_eq_true (by omega))

namespace Node.LogKept

variable {C : ChainSpec B S} {n : Node C} {k : ℕ}

/-- The block of the main chain is in the log or in the fork database. -/
theorem main_cases (h : n.LogKept) (hnum : n.head_block_num = B.num_from_id n.head_block_id)
    (hk : 1 ≤ k) (hle : k ≤ n.head_block_num) :
    (k ≤ n.last_irreversible_block_num ∧
        ∃ b, n.read_block_by_num k = some b ∧ n.MainBlock k (B.id b)) ∨
      n.last_irreversible_block_num < k ∧ n.read_block_by_num k = none ∧
        ∃ p ∈ n.fork.fetch_block_by_number k, ∃ item, n.fork.item? p = some item ∧
          n.MainBlock k item.id := by
  rw [h.log.read hk, ← h.length]
  rcases le_or_gt k n.block_log.length with hlow | hhigh
  · left
    have hget := List.getElem?_eq_getElem (show k - 1 < n.block_log.length by omega)
    obtain ⟨hplace, hanc⟩ := h.log _ _ hget
    exact ⟨hlow, _, hget, hplace.trans (by omega), hanc⟩
  · right
    obtain ⟨y, hy, hanc, p, hp, item, hitem, rfl⟩ := h.closed.exists_known
      (h.known (hhigh.trans_le hle)) hhigh (hnum ▸ hle)
    refine ⟨hhigh, List.getElem?_eq_none (by omega), p, ?_, item, hitem, hy, hanc⟩
    exact ForkDatabase.mem_fetch_iff.2 ⟨hp, item, hitem, item.num_eq.trans hy⟩

theorem fetch_single (hl : n.fork.fetch_block_by_number k = [p]) (hy : n.MainBlock k y) :
    (∃ b, n.fetch_block_by_number k = some b ∧ B.id b = y) ↔ n.OnMain p := by
  have hp : p ∈ n.fork.fetch_block_by_number k := hl ▸ List.mem_singleton_self p
  obtain ⟨-, item, hitem, hnum⟩ := ForkDatabase.mem_fetch_iff.1 hp
  have hfetch : n.fetch_block_by_number k = some item.data := by
    rw [Node.fetch_block_by_number, hl]
    simp only [hitem, Option.map_some]
  rw [hfetch]
  constructor
  · rintro ⟨b, hb, rfl⟩
    obtain rfl := Option.some.inj hb
    exact ⟨item, hitem, hy.2⟩
  · rintro ⟨item', hitem', hanc⟩
    obtain rfl : item = item' := Option.some.inj (hitem.symm.trans hitem')
    refine ⟨item.data, rfl, hanc.unique hy.2 ?_⟩
    rw [hy.1, ← item.num_eq, hnum]

/-- With other numbers of items it is what the log has. -/
theorem fetch_of_length (hl : (n.fork.fetch_block_by_number k).length ≠ 1) :
    n.fetch_block_by_number k = n.read_block_by_num k := by
  rw [Node.fetch_block_by_number]
  split
  · next heq =>
    rw [heq] at hl
    exact absurd rfl hl
  · rfl

/-- All items with the number are on the main chain, which has one block with it. -/
theorem single_of_onMain (hd : n.fork.Distinct) (hp : p ∈ n.fork.fetch_block_by_number k)
    (hy : n.MainBlock k y) (hall : ∀ q ∈ n.fork.fetch_block_by_number k, n.OnMain q) :
    n.fork.fetch_block_by_number k = [p] := by
  refine hd.single hp (y := y) fun q hq item hitem => ?_
  obtain ⟨-, item', hitem', hnum⟩ := ForkDatabase.mem_fetch_iff.1 hq
  obtain ⟨item'', hitem'', hanc⟩ := hall q hq
  obtain rfl : item = item' := Option.some.inj (hitem.symm.trans hitem')
  obtain rfl : item = item'' := Option.some.inj (hitem.symm.trans hitem'')
  refine hanc.unique hy.2 ?_
  rw [hy.1, ← item.num_eq, hnum]

/-- `fetch_block_by_number` finds the block of the main chain exactly if it has no rival. -/
theorem fetch_iff (h : n.LogKept) (hd : n.fork.Distinct)
    (hnum : n.head_block_num = B.num_from_id n.head_block_id) (hk : 1 ≤ k)
    (hle : k ≤ n.head_block_num) (hy : n.MainBlock k y) :
    (∃ b, n.fetch_block_by_number k = some b ∧ B.id b = y) ↔ n.Unrivaled k := by
  by_cases hl : (n.fork.fetch_block_by_number k).length = 1
  · obtain ⟨p, hp⟩ := List.length_eq_one_iff.1 hl
    rw [fetch_single hp hy]
    constructor
    · intro hmain
      refine Or.inl ?_
      rw [hp]
      exact List.forall_mem_singleton.2 hmain
    · rintro (hall | ⟨-, hne⟩)
      · exact hall p (hp ▸ List.mem_singleton_self p)
      · exact absurd hl hne
  · rw [fetch_of_length hl]
    rcases h.main_cases hnum hk hle with ⟨hlow, b, hb, hmain⟩ | ⟨hhigh, hnone, p, hp, -⟩
    · refine iff_of_true ⟨b, hb, hmain.2.unique hy.2 (hmain.1.trans hy.1.symm)⟩ (Or.inr ⟨hlow, hl⟩)
    · rw [hnone]
      refine iff_of_false nofun ?_
      rintro (hall | ⟨hlow, -⟩)
      · rw [single_of_onMain hd hp hy hall] at hl
        exact hl rfl
      · omega

end Node.LogKept

section Find

variable {C : ChainSpec B (S.extend (summaryKeys B))} {n : Node C} {k : ℕ}

/-- A summary with the number decides the lookup, and is that of the main chain. -/
theorem SummariesKept.find_of_some (h : SummariesKept C n.db.view) (hk : 1 ≤ k) {bs : BlockSummary B}
    (hbs : (View.added n.db.view).find? (summaryId k) = some bs)
    (hnum : B.num_from_id bs.block_id = k) : n.MainBlock k (n.find_block_id_for_num k) := by
  have hfind : n.find_block_id_for_num k = bs.block_id := by
    rw [Node.find_block_id_for_num, if_neg (by omega)]
    simp only [hbs, Option.filter_some, hnum, decide_true, if_true]
  rw [hfind]
  refine ⟨hnum, (h.below _ bs hbs).resolve_left fun hzero => ?_⟩
  rw [hzero, B.num_zero] at hnum
  omega

/-- Without one the block log is asked, and then the fork database. -/
theorem find_of_none (hk : 1 ≤ k) (h : ∀ bs, (View.added n.db.view).find? (summaryId k) = some bs →
      B.num_from_id bs.block_id ≠ k) :
    n.find_block_id_for_num k =
      match n.read_block_by_num k with
      | some b => B.id b
      | none =>
        match n.fork.fetch_block_on_main_branch_by_number [] k with
        | some fitem => fitem.id
        | none => B.zero := by
  have hnone : ((View.added n.db.view).find? (summaryId k)).filter
      (fun bs => decide (B.num_from_id bs.block_id = k)) = none := by
    cases hbs : (View.added n.db.view).find? (summaryId k) with
    | none => rfl
    | some bs => simp only [Option.filter_some, h bs hbs, decide_false, Bool.false_eq_true, if_false]
  rw [Node.find_block_id_for_num, if_neg (by omega)]
  simp only [hnone]

/-- `find_block_id_for_num` gives the main chain, as far as summaries or log reach or there is no rival
in the fork database. -/
theorem Node.LogKept.find_main (h : n.LogKept) (hs : SummariesKept C n.db.view)
    (hd : n.fork.Distinct) (hnum : n.head_block_num = B.num_from_id n.head_block_id) (hk : 1 ≤ k)
    (hle : k ≤ n.head_block_num)
    (hreach : k ≤ n.last_irreversible_block_num ∨ n.head_block_num < k + 0x10000 ∨
      ∀ p ∈ n.fork.fetch_block_by_number k, n.OnMain p) :
    n.MainBlock k (n.find_block_id_for_num k) := by
  by_cases hsummary : ∃ bs, (View.added n.db.view).find? (summaryId k) = some bs ∧
      B.num_from_id bs.block_id = k
  · obtain ⟨bs, hbs, hbsnum⟩ := hsummary
    exact hs.find_of_some hk hbs hbsnum
  · rw [find_of_none hk fun bs hbs hbsnum => hsummary ⟨bs, hbs, hbsnum⟩]
    rcases h.main_cases hnum hk hle with ⟨-, b, hb, hmain⟩ | ⟨hhigh, hnone, p, hp, item, hitem, hmain⟩
    · rw [hb]
      exact hmain
    · rw [hnone]
      rcases hreach with hlow | hrecent | hall
      · omega
      · exact absurd (hs.recent k hhigh hle hrecent) hsummary
      · have hfetch : n.fork.fetch_block_on_main_branch_by_number [] k = some item := by
          rw [ForkDatabase.fetch_block_on_main_branch_by_number, single_of_onMain hd hp hmain hall]
          exact hitem
        simp only [hfetch]
        exact hmain

theorem Node.LogKept.lookupExact_iff (h : n.LogKept) (hs : SummariesKept C n.db.view)
    (hd : n.fork.Distinct) (hnum : n.head_block_num = B.num_from_id n.head_block_id) (hk : 1 ≤ k)
    (hle : k ≤ n.head_block_num) : n.LookupExact k ↔ n.Unrivaled k := by
  constructor
  · rintro ⟨hmain, hfetch⟩
    exact (h.fetch_iff hd hnum hk hle hmain).1 hfetch
  · intro hrival
    have hmain : n.MainBlock k (n.find_block_id_for_num k) :=
      h.find_main hs hd hnum hk hle (hrival.elim (fun hall => .inr (.inr hall)) fun hlow => .inl hlow.1)
    exact ⟨hmain, (h.fetch_iff hd hnum hk hle hmain).2 hrival⟩

end Find

/-! ## Runs -/

/-- In every run from genesis, `find_block_id_for_num` gives the main chain for the reversible blocks of
the last round. In a run whose steps keep the log it does so for all blocks of the last round and all
irreversible ones, and both lookups give the block of the main chain exactly if it has no rival. -/
theorem run_lookup {C : ChainSpec B (S.extend (summaryKeys B))} (L : ChainLaws C.withSummaries)
    (hC : LeavesSummaries C) {n₀ : Node C.withSummaries} {c₀ : Contents (S.extend (summaryKeys B))}
    (h₀ : Opened L n₀ c₀) (hgenesis : C.head_block_num c₀.view = 0)
    (hsummaries : ∀ i bs, c₀.added.rows.find? i = some bs → bs.block_id = B.zero)
    (hfork : n₀.fork = .init) (hlog : n₀.block_log = []) (calls : List (Call C.withSummaries))
    {n : Node C.withSummaries} (hn : n₀.run calls = n) :
    (∀ k, n.last_irreversible_block_num < k → k ≤ n.head_block_num → n.head_block_num < k + 0x10000 →
      n.MainBlock k (n.find_block_id_for_num k)) ∧
    (Node.Along Call.KeepsLog n₀ calls → ∀ k, 1 ≤ k → k ≤ n.head_block_num →
      (k ≤ n.last_irreversible_block_num ∨ n.head_block_num < k + 0x10000 →
        n.MainBlock k (n.find_block_id_for_num k)) ∧
      (n.LookupExact k ↔ n.Unrivaled k)) := by
  have hs : SummariesKept C.withSummaries n.db.view :=
    hn ▸ run_summariesKept L hC h₀ (.genesis hgenesis hsummaries) calls
  have hd : n.fork.Distinct :=
    hn ▸ ForkDatabase.stable_distinct.run (fun h hf => h.push hf) (hfork ▸ ⟨nofun, .nil⟩) calls
  obtain ⟨s, hinv⟩ : NodeInv (Tracked.trivial L) n := hn ▸ h₀.run_nodeInv calls
  have hnum := hinv.num_head_block_id
  constructor
  · intro k hlow hle hrecent
    obtain ⟨bs, hbs, hbsnum⟩ := hs.recent k hlow hle hrecent
    exact hs.find_of_some (by omega) hbs hbsnum
  · intro hcalls k hk hle
    have hkept : n.LogKept :=
      hn ▸ run_logKept (h₀.run_nodeInv []) (h₀.logKept hgenesis hfork hlog) hcalls
    exact ⟨fun hreach => hkept.find_main hs hd hnum hk hle (hreach.imp_right .inl),
      hkept.lookupExact_iff hs hd hnum hk hle⟩

namespace HeaderChain

/-! ## Two blocks with one number -/

/-- A ring as `init_genesis` makes it, with objects that have no id yet. It makes `0x10000` of them;
the runs below use the first four. -/
def ring (size : ℕ) : Table (summaryKeys blocks) where
  rows := ⟨(List.range size).map fun i => (i, ⟨.zero⟩), List.pairwise_map.2 List.pairwise_lt_range⟩
  next_id := size
  below := by
    intro i bs h
    obtain ⟨j, hj, heq⟩ := List.mem_map.1 (OrdMap.mem_rows.2 h)
    cases heq
    exact List.mem_range.1 hj
  unique _ _ _ _ _ _ _ := rfl

theorem ring_zero {size i : ℕ} {bs : BlockSummary blocks} (h : (ring size).rows.find? i = some bs) :
    bs.block_id = .zero := by
  obtain ⟨j, -, heq⟩ := List.mem_map.1 (OrdMap.mem_rows.2 h)
  cases heq
  rfl

/-- The chain of headers with block summaries. -/
abbrev summaryChain : ChainSpec blocks (tables.extend (summaryKeys blocks)) :=
  (chain.extend (summaryKeys blocks)).withSummaries

instance : DecidableEq summaryChain.E := inferInstanceAs (DecidableEq HeaderError)

def ringNode (size : ℕ) : Node summaryChain where
  db
    | none => ⟨[], 0, (ring size).next_id, (ring size).rows⟩
    | some t => genesisNode.db t
  fork := .init
  pending_tx := []
  pending_tx_session := false
  popped_tx := []
  block_log := []
  committed := 0
  reverted := []

theorem opened_ring (size : ℕ) :
    Opened laws.withSummaries (ringNode size) (genesis.extend (ring size)) where
  inv := inv_genesis
  db
    | none => ⟨rfl, rfl, rfl, trivial⟩
    | some t => refinement_genesis t
  committed := rfl
  no_pending := rfl
  heap := .nil _

def ringPushes (l : List Header) : List (Call summaryChain) := l.map (Call.push_block skip_nothing)

/-- Two blocks with number 1, and a block on the second, to which the node switches. -/
def rivals : List Header := [⟨.zero, 1, 0⟩, ⟨.zero, 1, 1⟩, ⟨.block .zero 1 1, 2, 0⟩]

theorem keepsLog_rivals : Node.Along Call.KeepsLog (ringNode 4) (ringPushes rivals) := by
  decide +kernel

/-- After the switch the head has no rival and is found. -/
theorem run_lookup_switch :
    Node.Along Call.KeepsLog (ringNode 4) (ringPushes rivals) ∧
      ((ringNode 4).run (ringPushes rivals)).head_block_num = 2 ∧
      ((ringNode 4).run (ringPushes rivals)).LookupExact 2 := by
  have hhead : ((ringNode 4).run (ringPushes rivals)).head_block_num = 2 := by decide +kernel
  have hlookup := ((run_lookup (C := chain.extend (summaryKeys blocks)) laws.withSummaries
    (.extend chain) (opened_ring 4) rfl (fun _ _ => ring_zero) rfl rfl (ringPushes rivals) rfl).2
    keepsLog_rivals 2 (by omega) hhead.ge).2
  refine ⟨keepsLog_rivals, hhead, hlookup.2 (Or.inl ?_)⟩
  have hitems : ((ringNode 4).run (ringPushes rivals)).fork.fetch_block_by_number 2 = [2] := by
    decide +kernel
  have hid : (((ringNode 4).run (ringPushes rivals)).fork.item? 2).map ForkItem.id =
      some ((ringNode 4).run (ringPushes rivals)).head_block_id := by
    decide +kernel
  obtain ⟨item, hitem, heq⟩ := Option.map_eq_some_iff.1 hid
  rw [hitems]
  refine List.forall_mem_singleton.2 ⟨item, hitem, ?_⟩
  rw [heq]
  exact .refl

/-- A main chain of three blocks, a block on top that is refused, and block 2 once more. -/
def repushed : List Header :=
  [⟨.zero, 1, 0⟩, ⟨.block .zero 1 0, 2, 0⟩, ⟨.block (.block .zero 1 0) 2 0, 3, 0⟩,
    ⟨.block (.block (.block .zero 1 0) 2 0) 3 0, 0, 0⟩, ⟨.block .zero 1 0, 2, 0⟩]

/-- With two blocks of number 1 the one of the main chain is not found, though its id is. And without
any rival block 2 is not found either: the refused block stayed the head of the fork database, so the
second push of block 2 was tried on top of block 3, and its failure took the block from the index. -/
theorem main_block_not_found :
    (((ringNode 4).run (ringPushes (rivals.take 2))).head_block_id = .block .zero 1 0 ∧
      ((ringNode 4).run (ringPushes (rivals.take 2))).find_block_id_for_num 1 = .block .zero 1 0 ∧
      ((ringNode 4).run (ringPushes (rivals.take 2))).fetch_block_by_number 1 = none) ∧
    ((ringNode 4).run (ringPushes repushed)).head_block_num = 3 ∧
      ((ringNode 4).run (ringPushes repushed)).fork.fetch_block_by_number 2 = [] ∧
      ((ringNode 4).run (ringPushes repushed)).find_block_id_for_num 2 =
        .block (.block .zero 1 0) 2 0 ∧
      ((ringNode 4).run (ringPushes repushed)).fetch_block_by_number 2 = none := by
  decide +kernel

end HeaderChain

end Calibrd.Chain
