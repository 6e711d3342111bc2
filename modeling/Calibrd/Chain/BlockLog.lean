import Calibrd.Chain.ForkChanges

/-!
# The block log

`update_last_irreversible_block` copies the blocks that became irreversible from the fork database to
the block log, and finds them by walking back from the head of the fork database. This file follows
the log through pushes and fork switches: in a switch the head of the fork database runs behind the
tables, but it stays on the new branch, and what becomes irreversible up to it is found (`Following`).
A block that is refused on top of the head leaves the index and stays the head of the fork database,
beside the blocks that come after it.

The log and the tables part when a switch throws halfway. The log is never cut, but the tables go
back, and their last irreversible block with them.
-/

namespace Calibrd.Chain

open Calibrd.Lib Calibrd.Chainbase Stateful SnapshotStack

variable {B : BlockSpec} {S : Schema} {C : ChainSpec B S} {L : ChainLaws C}

/-! ## Logs of a branch -/

/-- The log holds the blocks `1`, `2`, … below `x`, in order. -/
def LogBelow (log : List B.Block) (x : B.Id) : Prop :=
  ∀ i b, log[i]? = some b → B.num_from_id (B.id b) = i + 1 ∧ Ancestor B (B.id b) x

namespace LogBelow

variable {log : List B.Block} {x y : B.Id}

theorem nil (x : B.Id) : LogBelow ([] : List B.Block) x := by
  intro i b h
  simp at h

theorem higher (h : LogBelow log y) (hyx : Ancestor B y x) : LogBelow log x :=
  fun i b hb => ⟨(h i b hb).1, (h i b hb).2.trans hyx⟩

/-- The number of the last block is the length of the log. -/
theorem log_head_num {n : Node C} (h : LogBelow n.block_log x) :
    n.log_head_num = n.block_log.length := by
  unfold Node.log_head_num
  rw [List.getLast?_eq_getElem?]
  cases hb : n.block_log[n.block_log.length - 1]? with
  | none =>
    have hlen := List.getElem?_eq_none_iff.1 hb
    simp only [Option.map_none, Option.getD_none]
    omega
  | some b =>
    have hlt := (List.getElem?_eq_some_iff.1 hb).1
    have hnum := (h _ b hb).1
    rw [B.num_id] at hnum
    simp only [Option.map_some, Option.getD_some, BlockSpec.block_num]
    omega

/-- The log with the blocks copied to it, if each block found is the one of its number below `x`. -/
theorem append {n : Node C} (h : LogBelow n.block_log x) {skip : SkipFlags} {held : List Ptr} {lib : ℕ}
    {blocks : List B.Block} (hlogs : n.Logs skip held lib blocks)
    (hfetch : ∀ m item, n.block_log.length < m → m ≤ lib →
      n.fork.fetch_block_on_main_branch_by_number held m = some item →
      B.num_from_id item.id = m ∧ Ancestor B item.id x) : LogBelow (n.block_log ++ blocks) x := by
  intro i b hi
  rcases lt_or_ge i n.block_log.length with hlt | hge
  · rw [List.getElem?_append_left hlt] at hi
    exact h i b hi
  · rw [List.getElem?_append_right hge] at hi
    have hlen := (List.getElem?_eq_some_iff.1 hi).1
    have hle := hlogs.length_le
    obtain ⟨item, hitem, rfl⟩ := hlogs.found _ b hi
    rw [h.log_head_num] at hle hitem
    have hnum : n.block_log.length + 1 + (i - n.block_log.length) = i + 1 := by omega
    rw [hnum] at hitem
    exact hfetch (i + 1) item (by omega) (by omega) hitem

/-- Each block of the log is built on the one before. -/
theorem isChain (h : LogBelow log x) : log.IsChain fun b b' => B.previous b' = B.id b := by
  rw [List.isChain_iff_getElem]
  intro i hi
  obtain ⟨hnum, hanc⟩ := h i _ (List.getElem?_eq_getElem (Nat.lt_of_succ_lt hi))
  obtain ⟨hnum', hanc'⟩ := h (i + 1) _ (List.getElem?_eq_getElem hi)
  rw [B.num_id] at hnum'
  exact ((Ancestor.previous_id _).trans hanc').unique hanc (by omega)

end LogBelow

/-! ## The fork database above the log -/

variable {item : ForkItem B} {p : Ptr} {target : B.Id} {T : Tracked L} {n : Node C}
  {s : SnapshotStack (Contents S)} {skip : SkipFlags}

namespace ForkDatabase

variable {f f' : ForkDatabase B} {Ok : B.Block → Prop}

/-- The index has the previous block of each of its blocks and of the head, as far as that is above
`k`. -/
def Closed (f : ForkDatabase B) (k : ℕ) : Prop :=
  ∀ p, p ∈ f.index ∨ f.head = some p → ∀ item, f.item? p = some item → k + 1 < item.num →
    ∃ q ∈ f.index, item.prev = some q ∧ ∃ prev, f.item? q = some prev ∧ prev.id = item.previous_id

/-- The item is on the branch of `x`, or beside its top, which has no other block of its number in the
index. -/
def OnBranch (f : ForkDatabase B) (x : B.Id) (item : ForkItem B) : Prop :=
  Ancestor B item.id x ∨ item.num = B.num_from_id x ∧ Ancestor B item.previous_id x ∧
    (f.fetch_block_by_number item.num).length ≤ 1

/-- No block up to `k` is hidden: above the head there is at most one item of each number. -/
def Reaches (f : ForkDatabase B) (k : ℕ) : Prop :=
  ∀ head, f.headItem = some head → ∀ m, head.num < m → m ≤ k →
    (f.fetch_block_by_number m).length ≤ 1

variable {b : B.Block} {head : ForkItem B} {x y : B.Id}

theorem Reaches.mono {k k' : ℕ} (h : f.Reaches k) (hle : k' ≤ k) : f.Reaches k' :=
  fun head hhead m hlow hm => h head hhead m hlow (hm.trans hle)

theorem OnBranch.num_le (h : f.OnBranch x item) : item.num ≤ B.num_from_id x := by
  rcases h with h | h
  · rw [item.num_eq]
    exact h.num_le
  · exact h.1.le

/-- Below a known block there is a known block of every number above `k`. -/
theorem Closed.exists_known {k m : ℕ} (hc : f.Closed k) {x : B.Id} (hx : f.Known x) (hk : k < m)
    (hm : m ≤ B.num_from_id x) : ∃ y, B.num_from_id y = m ∧ Ancestor B y x ∧ f.Known y := by
  induction hd : B.num_from_id x - m generalizing x with
  | zero => exact ⟨x, by omega, .refl, hx⟩
  | succ d ih =>
    obtain ⟨p, hp, item, hitem, rfl⟩ := hx
    have hnum : B.num_from_id item.id = B.num_from_id item.previous_id + 1 := B.num_id item.data
    obtain ⟨q, hq, -, hprev⟩ := hc p (.inl hp) item hitem (by rw [ForkItem.num_eq]; omega)
    obtain ⟨y, hy, hanc, hknown⟩ := ih ⟨q, hq, hprev⟩ (by omega) (by omega)
    exact ⟨y, hy, hanc.trans (ancestor_previous item), hknown⟩

/-! ### Walks on the main branch -/

theorem walkMain_spec (h : HeapOk Ok f.heap) {held : List Ptr} {num steps : ℕ}
    {q : Ptr} {item r : ForkItem B} (hq : f.item? q = some item) (hnum : num ≤ item.num)
    (hwalk : f.walkMain held num steps item = some r) : r.num = num ∧ Ancestor B r.id item.id := by
  induction steps generalizing q item with
  | zero => cases hwalk
  | succ steps ih =>
    simp only [walkMain] at hwalk
    split at hwalk
    · next hgt =>
      cases hlock : f.lock held item with
      | none => rw [hlock] at hwalk; cases hwalk
      | some prev =>
        rw [hlock] at hwalk
        have hid : prev.2.id = item.previous_id := h.lock_id hq hlock
        have hlow : prev.2.num + 1 = item.num := by
          rw [ForkItem.num_eq, hid]
          rfl
        obtain ⟨hr, hanc⟩ := ih (lock_spec hlock).2.2 (by omega) hwalk
        rw [hid] at hanc
        exact ⟨hr, hanc.trans (ancestor_previous item)⟩
    · next hle =>
      cases hwalk
      exact ⟨by omega, .refl⟩

/-- With the head on the branch of `x` and a known block of this number below `x`, the block that
`fetch_block_on_main_branch_by_number` finds is the latter: it is the only one, or the walk from the
head meets it. -/
theorem fetch_on_main_branch_spec (h : HeapOk Ok f.heap) {held : List Ptr} {m : ℕ} {x y : B.Id}
    (hhead : ∀ item, f.headItem = some item → f.OnBranch x item) (hy : Ancestor B y x)
    (hknown : f.Known y) (hnum : B.num_from_id y = m)
    (hfetch : f.fetch_block_on_main_branch_by_number held m = some item) : item.id = y := by
  obtain ⟨p, hp, item', hitem', rfl⟩ := hknown
  rw [← ForkItem.num_eq] at hnum
  have hmem : p ∈ f.fetch_block_by_number item'.num := by
    simp [fetch_block_by_number, hp, hitem']
  rw [hnum] at hmem
  unfold fetch_block_on_main_branch_by_number at hfetch
  split at hfetch
  · cases hfetch
  · next q hq =>
    rw [hq, List.mem_singleton] at hmem
    rw [← hmem, hitem'] at hfetch
    rw [Option.some.inj hfetch]
  · next hnil hone =>
    cases hh : f.headItem with
    | none => rw [hh] at hfetch; cases hfetch
    | some head =>
      rw [hh] at hfetch
      dsimp only at hfetch
      split at hfetch
      · cases hfetch
      · next hle =>
        obtain ⟨q, -, hq⟩ := Option.bind_eq_some_iff.1 hh
        obtain ⟨hr, hanc⟩ := walkMain_spec h hq (Nat.not_lt.1 hle) hfetch
        have hbranch : Ancestor B item.id x := by
          rcases hhead head hh with hx | ⟨-, hx, hlen⟩
          · exact hanc.trans hx
          · -- beside the branch the walk moves, as there are several items with the number
            have hlt : m < head.num := by
              refine lt_of_le_of_ne (Nat.not_lt.1 hle) fun heq => ?_
              rw [← heq] at hlen
              rcases hl : f.fetch_block_by_number m with _ | ⟨r, _ | ⟨r', l⟩⟩
              · exact hnil hl
              · exact hone r hl
              · rw [hl] at hlen
                exact absurd hlen (by simp)
            refine (hanc.previous (b := head.data) ?_).trans hx
            have hprev : head.num = B.num_from_id (B.previous head.data) + 1 := rfl
            rw [← item.num_eq, hr]
            omega
        refine hbranch.unique hy ?_
        rw [← ForkItem.num_eq, ← ForkItem.num_eq, hr, hnum]

theorem Closed.walkMain_isSome {k m : ℕ} (hc : f.Closed k) (hk : k < m) {held : List Ptr} {steps : ℕ}
    (hp : p ∈ f.index ∨ f.head = some p) (hitem : f.item? p = some item) (hm : m ≤ item.num)
    (hsteps : item.num < steps + m) : (f.walkMain held m steps item).isSome = true := by
  induction steps generalizing p item with
  | zero => omega
  | succ steps ih =>
    unfold walkMain
    split
    · next hgt =>
      obtain ⟨q, hq, hprev, prev, hqi, hid⟩ := hc p hp item hitem (by omega)
      have hlock : f.lock held item = some (q, prev) := by simp [lock, hprev, alive, hq, hqi]
      have hnum : prev.num + 1 = item.num := by
        rw [prev.num_eq, hid]
        rfl
      simp only [hlock]
      exact ih (.inl hq) hqi (by omega) (by omega)
    · rfl

/-- A block that is not hidden is found, if some block of its number is known. -/
theorem Closed.fetch_isSome {k m : ℕ} (hc : f.Closed k) (hhead : f.headItem = some head)
    (hknown : f.Known y) (hnum : B.num_from_id y = m) (hk : k < m) (hr : f.Reaches m)
    (held : List Ptr) : (f.fetch_block_on_main_branch_by_number held m).isSome = true := by
  obtain ⟨p, hp, item, hitem, rfl⟩ := hknown
  have hmem : p ∈ f.fetch_block_by_number m := by
    simp [fetch_block_by_number, hp, hitem, item.num_eq, hnum]
  obtain ⟨q, hq, hqi⟩ := Option.bind_eq_some_iff.1 hhead
  unfold fetch_block_on_main_branch_by_number
  split
  · next hnil =>
    rw [hnil] at hmem
    cases hmem
  · next r hr =>
    rw [hr, List.mem_singleton] at hmem
    rw [← hmem, hitem]
    rfl
  · next hnil hone =>
    have hm : m ≤ head.num := by
      refine Nat.not_lt.1 fun hlt => ?_
      have hlen := hr head hhead m hlt le_rfl
      rcases hl : f.fetch_block_by_number m with _ | ⟨r, _ | ⟨r', l⟩⟩
      · exact hnil hl
      · exact hone r hl
      · rw [hl] at hlen
        exact absurd hlen (by simp)
    simp only [hhead, if_neg (Nat.not_lt.2 hm)]
    exact hc.walkMain_isSome hk (.inr hq) hqi hm (by omega)

/-! ### Pushes -/

/-- The link of a new item, which only the first block and a block without a head to compare with do
not have. -/
theorem link_cases {prev : Option Ptr} (h : f.link b = .ok prev) :
    (∃ q, prev = some q ∧ q ∈ f.index ∧ ∃ item, f.item? q = some item ∧ item.id = B.previous b) ∨
      B.block_num b = 1 ∨ f.headItem = none := by
  cases prev with
  | some q => exact Or.inl ⟨q, rfl, fetch_block_spec (link_spec h)⟩
  | none =>
    refine Or.inr ?_
    unfold link at h
    split at h
    · exfalso
      cases hfetch : f.fetch_block (B.previous b) with
      | none => rw [hfetch] at h; cases h
      | some p =>
        rw [hfetch] at h
        dsimp only at h
        split at h <;> cases h
    · next hcond =>
      rcases not_and_or.1 hcond with hnone | hzero
      · right
        rw [headItem, Option.not_isSome_iff_eq_none.1 hnone]
        rfl
      · left
        rw [BlockSpec.block_num, not_not.1 hzero, B.num_zero]

theorem push_block_reached (h : f.push_block b = .ok f') (hp : p ∈ f'.index ∨ f'.head = some p)
    (hitem : f'.item? p = some item) :
    ((p ∈ f.index ∨ f.head = some p) ∧ f.item? p = some item) ∨
      ∃ prev, f.link b = .ok prev ∧ item = ⟨b, prev, false⟩ := by
  rcases push_block_items h hitem with hold | ⟨-, hnew⟩
  · left
    have hlt : p ≠ f.heap.length := ((List.getElem?_eq_some_iff.1 hold).1).ne
    refine ⟨?_, hold⟩
    rcases hp with hp | hp
    · exact (push_block_index h hp hitem).imp And.left fun hnew => absurd hnew.1 hlt
    · rcases push_block_head h with ⟨-, prev, hhead, -⟩ | ⟨item', -, -, hhead⟩
      · exact absurd (Option.some.inj (hp.symm.trans hhead)) hlt
      · exact Or.inr (hhead.symm.trans hp)
  · exact Or.inr hnew

/-- A push keeps the index closed, if the block builds on a known one as far as that is needed. -/
theorem Closed.push {k : ℕ} (hc : f.Closed k) (h : f.push_block b = .ok f')
    (hnone : f.headItem = none → B.block_num b ≤ k + 1) : f'.Closed k := by
  intro p hp item hitem hk
  have hkeep : ∀ {q : Ptr} {prev : ForkItem B}, q ∈ f.index → f.item? q = some prev →
      q ∈ f'.index ∧ f'.item? q = some prev :=
    fun hq hqi => ⟨push_block_index_subset h hq, push_block_item h hqi⟩
  rcases push_block_reached h hp hitem with ⟨hp0, hold⟩ | ⟨prev, hlink, rfl⟩
  · obtain ⟨q, hq, hprev, prev, hqi, hid⟩ := hc p hp0 item hold hk
    exact ⟨q, (hkeep hq hqi).1, hprev, prev, (hkeep hq hqi).2, hid⟩
  · have hnum : k + 1 < B.block_num b := hk
    rcases link_cases hlink with ⟨q, rfl, hq, prev, hqi, hid⟩ | hone | hhead
    · exact ⟨q, (hkeep hq hqi).1, rfl, prev, (hkeep hq hqi).2, hid⟩
    · omega
    · have hle := hnone hhead
      omega

theorem push_block_index_eq (h : f.push_block b = .ok f') :
    f'.index = f.index ∨ f'.index = f.index ++ [f.heap.length] := by
  obtain ⟨prev, -, rfl⟩ := push_block_ok h
  unfold insertIndex
  split <;> split <;> simp

/-- If the old items are lower, the new one is the only one of its number. -/
theorem push_block_alone (h : f.push_block b = .ok f') {m : ℕ}
    (hlow : ∀ p ∈ f.index, ∃ item, f.item? p = some item ∧ item.num < m) :
    (f'.fetch_block_by_number m).length ≤ 1 := by
  have hold : f.index.filter (fun p => (f'.item? p).any fun item => decide (item.num = m)) = [] := by
    refine List.filter_eq_nil_iff.2 fun p hp => ?_
    obtain ⟨item, hitem, hlt⟩ := hlow p hp
    rw [push_block_item h hitem]
    simp [hlt.ne]
  unfold fetch_block_by_number
  rcases push_block_index_eq h with heq | heq
  · rw [heq, hold]
    exact Nat.zero_le _
  · rw [heq, List.filter_append, hold, List.nil_append]
    exact List.length_filter_le _ _

/-- A bound on the numbers in the index that holds for the new block too. -/
theorem push_block_bounded (h : f.push_block b = .ok f') {m : ℕ}
    (hlow : ∀ p ∈ f.index, ∃ item, f.item? p = some item ∧ item.num ≤ m) (hb : B.block_num b ≤ m) :
    ∀ p ∈ f'.index, ∃ item, f'.item? p = some item ∧ item.num ≤ m := by
  have hold : ∀ p ∈ f.index, ∃ item, f'.item? p = some item ∧ item.num ≤ m := fun p hp => by
    obtain ⟨item, hitem, hnum⟩ := hlow p hp
    exact ⟨item, push_block_item h hitem, hnum⟩
  rcases push_block_index_eq h with heq | heq <;> rw [heq]
  · exact hold
  · obtain ⟨prev, hheap⟩ := push_block_heap h
    refine List.forall_mem_append.2 ⟨hold, List.forall_mem_singleton.2 ⟨⟨b, prev, false⟩, ?_, hb⟩⟩
    rw [item?, hheap, List.getElem?_concat_length]

/-! ### Pruning, pops and removals -/

theorem set_max_size_item (s : ℕ) (p : Ptr) : (f.set_max_size s).item? p = f.item? p :=
  item?_of_heap (set_max_size_heap f s) p

theorem set_max_size_headItem (s : ℕ) : (f.set_max_size s).headItem = f.headItem := by
  rw [headItem, set_max_size_head]
  exact congrArg f.head.bind (funext (set_max_size_item s))

/-- What leaves the index is more than `s` below the head. -/
theorem mem_set_max_size {s : ℕ} (hitem : f.item? p = some item) (hhead : f.headItem = some head) :
    p ∈ (f.set_max_size s).index ↔ p ∈ f.index ∧ head.num - s ≤ item.num := by
  simp [set_max_size, hhead, hitem]

theorem mem_of_set_max_size {s : ℕ} (hp : p ∈ (f.set_max_size s).index) : p ∈ f.index := by
  unfold set_max_size at hp
  split at hp
  · exact hp
  · exact List.mem_of_mem_filter hp

theorem Known.set_max_size {s : ℕ} (hy : f.Known y) (hhead : f.headItem = some head)
    (hs : head.num - s ≤ B.num_from_id y) :
    (f.set_max_size s).Known y := by
  obtain ⟨p, hp, item, hitem, rfl⟩ := hy
  refine ⟨p, (mem_set_max_size hitem hhead).2 ⟨hp, ?_⟩, item, ?_, rfl⟩
  · rw [item.num_eq]
    exact hs
  · rw [set_max_size_item]
    exact hitem

theorem Closed.set_max_size {s k k' : ℕ} (hc : f.Closed k) (hk : k ≤ k')
    (hhead : f.headItem = some head) (hs : head.num - s ≤ k' + 1) :
    (f.set_max_size s).Closed k' := by
  intro p hp item hitem hnum
  rw [set_max_size_item] at hitem
  rw [set_max_size_head, mem_set_max_size hitem hhead] at hp
  obtain ⟨q, hq, hprev, prev, hqi, hid⟩ := hc p (hp.imp_left And.left) item hitem (by omega)
  have hlow : item.num = prev.num + 1 := by
    rw [prev.num_eq, hid]
    rfl
  refine ⟨q, (mem_set_max_size hqi hhead).2 ⟨hq, by omega⟩, hprev, prev, ?_, hid⟩
  rw [set_max_size_item]
  exact hqi

theorem set_max_size_by_number (s m : ℕ) :
    ((f.set_max_size s).fetch_block_by_number m).length ≤ (f.fetch_block_by_number m).length := by
  unfold fetch_block_by_number
  simp only [set_max_size_item]
  refine (List.Sublist.filter _ ?_).length_le
  unfold set_max_size
  split
  · exact List.Sublist.refl _
  · exact List.filter_sublist

theorem OnBranch.set_max_size (h : f.OnBranch x item) (s : ℕ) :
    (f.set_max_size s).OnBranch x item :=
  h.imp_right fun ⟨hnum, hprev, hlen⟩ => ⟨hnum, hprev, (set_max_size_by_number s _).trans hlen⟩

theorem Reaches.set_max_size {k : ℕ} (h : f.Reaches k) (s : ℕ) : (f.set_max_size s).Reaches k := by
  intro head hhead m hlow hm
  rw [set_max_size_headItem] at hhead
  exact (set_max_size_by_number s m).trans (h head hhead m hlow hm)

theorem mem_remove (hitem : f.item? p = some item) :
    p ∈ (f.remove y).index ↔ p ∈ f.index ∧ item.id ≠ y := by
  simp [remove, hitem]

theorem Known.remove {z : B.Id} (hz : f.Known z) (hne : z ≠ y) : (f.remove y).Known z := by
  obtain ⟨p, hp, item, hitem, rfl⟩ := hz
  exact ⟨p, (mem_remove hitem).2 ⟨hp, hne⟩, item, hitem, rfl⟩

/-- A block leaves on which nothing is built. -/
theorem Closed.remove {k : ℕ} (hc : f.Closed k)
    (hno : ∀ p, p ∈ f.index ∨ f.head = some p → ∀ item, f.item? p = some item → k + 1 < item.num →
      item.previous_id ≠ y) : (f.remove y).Closed k := by
  intro p hp item hitem hnum
  change f.item? p = some item at hitem
  have hp0 : p ∈ f.index ∨ f.head = some p := hp.imp_left fun hp => ((mem_remove hitem).1 hp).1
  obtain ⟨q, hq, hprev, prev, hqi, hid⟩ := hc p hp0 item hitem hnum
  exact ⟨q, (mem_remove hqi).2 ⟨hq, hid ▸ hno p hp0 item hitem hnum⟩, hprev, prev, hqi, hid⟩

end ForkDatabase

/-! ## Following a branch -/

/-- A node on the way to the block `x`, with the stack `s` of applied blocks: the log holds the main
chain up to the last irreversible block, or up to `k` where it ended before, and the fork database has
all of the branch of `x` above the log. Its head is on that branch, at most one block above the head
of the tables. -/
structure Following (L : ChainLaws C) (x : B.Id) (k : ℕ) (s : SnapshotStack (Contents S))
    (n : Node C) : Prop where
  clean : CleanAt (Tracked.trivial L) s n
  log : LogBelow n.block_log (C.head_block_id s.cur.view)
  length : n.block_log.length = max k (C.last_irreversible_block_num s.cur.view)
  committed : n.block_log.length ≤ n.committed
  closed : n.fork.Closed n.block_log.length
  known : n.block_log.length < B.num_from_id x → n.fork.Known x
  index : ∀ p ∈ n.fork.index, ∃ item, n.fork.item? p = some item ∧ item.num ≤ B.num_from_id x
  head : ∃ item, n.fork.headItem = some item ∧ n.fork.OnBranch x item ∧
    item.num ≤ C.head_block_num s.cur.view + 1

namespace Following

variable {x : B.Id} {k : ℕ} {s : SnapshotStack (Contents S)} {n n' : Node C} {skip : SkipFlags}
  {b : B.Block} {held : List Ptr} {c' : Contents S}

section

variable (h : Following L x k s n)

include h

/-- The fork database gives the blocks of the branch by their numbers. -/
theorem fetch {y : B.Id} (hy : Ancestor B y x) {m : ℕ}
    (hlow : n.block_log.length < m) (hm : m ≤ B.num_from_id y)
    (hfetch : n.fork.fetch_block_on_main_branch_by_number held m = some item) :
    B.num_from_id item.id = m ∧ Ancestor B item.id y := by
  obtain ⟨F, hF, hFx, -⟩ := h.head
  have hmx : m ≤ B.num_from_id x := hm.trans hy.num_le
  obtain ⟨z, hz, hzx, hknown⟩ := h.closed.exists_known (h.known (hlow.trans_le hmx)) hlow hmx
  have hid : item.id = z := by
    refine ForkDatabase.fetch_on_main_branch_spec h.clean.2.1.heap ?_ hzx hknown hz hfetch
    intro item' hitem'
    rw [hF] at hitem'
    rw [← Option.some.inj hitem']
    exact hFx
  rw [hid]
  exact ⟨hz, hzx.of_le hy (hz.trans_le hm)⟩

theorem canLog (held : List Ptr) {lib : ℕ} (hx : lib ≤ B.num_from_id x) (hr : n.fork.Reaches lib) :
    n.CanLog skip held lib := by
  refine Or.inr fun m hm hlow => ?_
  rw [h.log.log_head_num] at hlow
  obtain ⟨F, hF, -⟩ := h.head
  have hmx := hm.trans hx
  obtain ⟨z, hz, -, hknown⟩ := h.closed.exists_known (h.known (hlow.trans_le hmx)) hlow hmx
  exact h.closed.fetch_isSome hF hknown hz hlow (hr.mono hm) held

/-- A block of the branch on top of the head: the log grows to the last irreversible block. -/
theorem apply (held : List Ptr) (hskip : skip.skip_block_log = false) (hb : Ancestor B (B.id b) x)
    (happ : Applied C skip s.cur b c')
    (hr : n.fork.Reaches (C.last_irreversible_block_num c'.view)) :
    ∃ n' s', applyInSession skip held b n = (.ok (), n') ∧ Following L x k s' n' ∧ s'.cur = c' ∧
      n'.fork.heap = n.fork.heap ∧ ∀ k, n.fork.Reaches k → n'.fork.Reaches k := by
  have hx : C.last_irreversible_block_num c'.view ≤ B.num_from_id x := by
    have hat := happ.atBlock h.clean.2.1.stack.inv_cur
    refine (L.lib_le hat.inv).trans ?_
    rw [L.head_num hat.inv, hat.id]
    exact hb.num_le
  obtain ⟨n', s', hres, hclean, rfl, hfork, hcommitted, blocks, hlogs, hlog⟩ :=
    applyInSession_of_applied h.clean happ (h.canLog held hx hr)
  have hbase := h.clean.2.1
  have hat := happ.atBlock hbase.stack.inv_cur
  have hnum : C.head_block_num s'.cur.view = C.head_block_num s.cur.view + 1 := by
    rw [hat.num, L.head_num hbase.stack.inv_cur, hat.previous]
    rfl
  have hidnum : B.num_from_id (B.id b) = C.head_block_num s'.cur.view := by
    rw [L.head_num hat.inv, hat.id]
  have hle := L.lib_le hat.inv
  have hlow := hat.lib_le
  have hlength := h.length
  have hold := h.committed
  have hbx := hb.num_le
  obtain ⟨F, hF, hFx, hFnum⟩ := h.head
  -- the log up to the last irreversible block
  have hbelow : LogBelow (n.block_log ++ blocks) (B.id b) := by
    refine (h.log.higher ?_).append hlogs fun m item hm1 hm2 => h.fetch hb hm1 (by omega)
    rw [hat.previous]
    exact .previous_id b
  have hlen : n'.block_log.length =
      max n.block_log.length (C.last_irreversible_block_num s'.cur.view) := by
    rw [hlog, List.length_append, hlogs.length hskip, h.log.log_head_num]
    omega
  refine ⟨n', s', hres, ⟨hclean, ?_, by omega, by omega, ?_, ?_, ?_, F, ?_, ?_, by omega⟩, rfl, ?_, ?_⟩
  · rw [hat.id, hlog]
    exact hbelow
  · rw [hfork]
    exact h.closed.set_max_size (by omega) hF (by omega)
  · intro hx
    have hFle := hFx.num_le
    rw [hfork]
    exact (h.known (by omega)).set_max_size hF (by omega)
  · intro p hp'
    rw [hfork] at hp' ⊢
    obtain ⟨item, hitem, hitemnum⟩ := h.index p (ForkDatabase.mem_of_set_max_size hp')
    exact ⟨item, (ForkDatabase.set_max_size_item _ p).trans hitem, hitemnum⟩
  · rw [hfork, ForkDatabase.set_max_size_headItem]
    exact hF
  · rw [hfork]
    exact hFx.set_max_size _
  · rw [hfork, ForkDatabase.set_max_size_heap]
  · rw [hfork]
    exact fun _ hr => hr.set_max_size _

theorem pushBranch (held second : List Ptr) (target : B.Id) {ps : List Ptr}
    (hskip : skip.skip_block_log = false)
    (hps : ∀ p ∈ ps, ∃ item, n.fork.item? p = some item ∧ Ancestor B item.id x)
    (hrun : (C.applyBlocks skip (n.fork.blocksOf ps)).run s.cur = (.ok (), c'))
    (hr : n.fork.Reaches (C.last_irreversible_block_num c'.view)) :
    ∃ n' s', Chain.pushBranch skip held second target ps n = (.ok (), n') ∧ Following L x k s' n' ∧
      s'.cur = c' := by
  induction ps generalizing n s with
  | nil =>
    cases hrun
    exact ⟨n, s, rfl, h, rfl⟩
  | cons p rest ih =>
    obtain ⟨⟨item, hitem, hanc⟩, hrest⟩ := List.forall_mem_cons.1 hps
    rw [ForkDatabase.Trail.blocksOf_cons hitem] at hrun
    obtain ⟨c1, happ, hrun⟩ := run_applyBlocks_cons.1 hrun
    have hat := happ.atBlock h.clean.2.1.stack.inv_cur
    have hle := (applyBlocks_spec hat.inv hrun).2.1
    obtain ⟨n1, s1, hres, h1, rfl, hheap, hreaches⟩ :=
      h.apply held hskip hanc happ (hr.mono hle)
    have hitems := ForkDatabase.item?_of_heap hheap
    obtain ⟨n', s', hres', h', hcur⟩ := ih h1 (fun q hq => by rw [hitems]; exact hrest q hq)
      (by simpa only [ForkDatabase.blocksOf, hitems] using hrun) (hreaches _ hr)
    refine ⟨n', s', ?_, h', hcur⟩
    have hfirst : applyItem skip held p n = (.ok (), n1) := by
      unfold applyItem
      rw [get_bind_apply, hitem]
      exact hres
    exact (bind_of_ok (attempt_of_ok hfirst)).trans hres'

end

/-- The old branch is popped: the head of the fork database goes back along its own branch. -/
theorem popped (h : Following L x k s n) (hk : n.block_log.length = k) {r : ℕ} {w : Ptr × ForkItem B}
    (hclean : CleanAt (Tracked.trivial L) (SnapshotStack.undo^[r] s) n')
    (hlog : n'.block_log = n.block_log) (hcommitted : n'.committed = n.committed)
    (hfork : n'.fork = { n.fork with head := some w.1 }) (hw : n.fork.item? w.1 = some w.2)
    (hin : w.1 ∈ n.fork.index) (hwx : Ancestor B w.2.id x) (hs : r ≤ s.saved.length)
    (hnum : w.2.num + r ≤ C.head_block_num s.cur.view + 1) :
    Following L x k (SnapshotStack.undo^[r] s) n' := by
  have hstack := h.clean.2.1.stack
  have hmem := s.iterate_undo_mem r
  have hheight := hclean.2.1.stack.height
  have hlib := hstack.lib_le_cur hmem
  have hlength := h.length
  rw [SnapshotStack.iterate_undo_saved, List.length_drop, hcommitted] at hheight
  have hheight0 := hstack.height
  refine ⟨hclean, ?_, by rw [hlog]; omega, by rw [hlog, hcommitted]; exact h.committed, ?_, ?_, ?_, w.2,
    ?_, .inl hwx, by omega⟩
  · rw [hlog]
    intro i b hb
    obtain ⟨hi, hanc⟩ := h.log i b hb
    have hlt := (List.getElem?_eq_some_iff.1 hb).1
    exact ⟨hi, (hstack.ancestor_iff (hi.trans_le (hlt.trans_le h.committed)) hmem).2 hanc⟩
  · rw [hfork, hlog]
    intro p hp item hitem hlow
    refine h.closed p (.inl (hp.elim id fun hp => ?_)) item hitem hlow
    rwa [← Option.some.inj hp]
  · rw [hfork, hlog]
    exact h.known
  · rw [hfork]
    exact h.index
  · rw [hfork]
    exact hw

/-- A switch to the block `x` on whose branch the blocks apply, with sessions for the old branch. -/
theorem switchForks {newHead : ForkItem B} {l r : List Ptr} (h : Following L newHead.id k s n)
    (hk : n.block_log.length = k) (hskip : skip.skip_block_log = false)
    (hhead : n.fork.head = some p) (hp : n.fork.fetch_block newHead.id = some p)
    (hfetch : n.fork.fetch_branch_from newHead.id n.head_block_id = .ok (l, r))
    (hnum : n.head_block_num < B.num_from_id newHead.id) (hs : r.length ≤ s.saved.length)
    (hrun : (C.applyBlocks skip (n.fork.blocksOf l).reverse).run (SnapshotStack.undo^[r.length] s).cur =
      (.ok (), c'))
    (hlib : C.last_irreversible_block_num c'.view + r.length ≤ B.num_from_id newHead.id ∨
      r.length = 1 ∧ (n.fork.fetch_block_by_number (B.num_from_id newHead.id)).length ≤ 1) :
    ∃ n' s', Chain.switchForks skip p newHead n = (.ok (), n') ∧ Following L newHead.id k s' n' ∧
      s'.cur = c' ∧ n'.head_block_id = newHead.id := by
  have hok := h.clean.2.1.heap
  obtain ⟨last, n1, w, hlast, hpop, hclean, -, hlog, hcommitted, hfork, hw, hwnum, hin, hanc⟩ :=
    popTo_of_branches h.clean hhead hp hfetch hnum hs
  have h1 : Following L newHead.id k (SnapshotStack.undo^[r.length] s) n1 := by
    refine h.popped hk hclean hlog hcommitted hfork hw hin hanc hs ?_
    obtain ⟨F, hF, -, hFnum⟩ := h.head
    obtain ⟨-, F', hF', hid⟩ := ForkDatabase.fetch_block_spec hp
    obtain rfl : F' = F := by
      rw [ForkDatabase.headItem, hhead, Option.bind_some, hF'] at hF
      exact Option.some.inj hF
    rw [hwnum, ← hid, ← F'.num_eq]
    exact hFnum
  have hitems : ∀ q, n1.fork.item? q = n.fork.item? q := fun q => by rw [hfork]; rfl
  have hblocks : n1.fork.blocksOf l.reverse = (n.fork.blocksOf l).reverse := by
    simp only [ForkDatabase.blocksOf, hitems, List.filterMap_reverse]
  obtain ⟨hbranch, q, item, hq, hitem, hid⟩ := ForkDatabase.fetch_branch_from_first hok hfetch
  have hfirst : (n.fork.blocksOf l).reverse.getLast? = some item.data := by
    obtain ⟨l', rfl⟩ := List.head?_eq_some_iff.1 hq
    rw [List.getLast?_reverse, ForkDatabase.Trail.blocksOf_cons hitem]
    rfl
  obtain ⟨hinv, -, hend⟩ := applyBlocks_spec hclean.2.1.stack.inv_cur hrun
  have hid' : C.head_block_id c'.view = newHead.id := (hend _ hfirst).trans hid
  -- the head of the fork database is left on the first block of the new branch
  have hreaches : n1.fork.Reaches (C.last_irreversible_block_num c'.view) := by
    intro F hF m hlow hm
    rw [hfork] at hF ⊢
    obtain rfl : w.2 = F := Option.some.inj (hw.symm.trans hF)
    rcases hlib with hlib | ⟨hone, hlen⟩
    · omega
    · have hle := L.lib_le hinv
      rw [L.head_num hinv, hid'] at hle
      obtain rfl : m = B.num_from_id newHead.id := by omega
      exact hlen
  obtain ⟨n', s', hpush, h', rfl⟩ := h1.pushBranch (p :: l ++ r) r last.previous_id hskip
    (fun q hq => by rw [hitems]; exact hbranch q (List.mem_reverse.1 hq))
    (by rw [hblocks]; exact hrun) hreaches
  refine ⟨n', s', ?_, h', rfl, h'.clean.nodeInvAt.head_block_id.trans hid'⟩
  unfold Chain.switchForks
  rw [get_bind_apply, bind_of_ok (liftFork_of_ok hfetch)]
  simp only [hlast]
  exact (bind_of_ok hpop).trans hpush

end Following

/-! ## Conditions on the node before a push -/

/-- The block comes on top of the head of the tables: it is built on it, or the head of the fork
database is a block that was refused there, and then `_push_block` applies what it is given. -/
def Node.OnTop (n : Node C) (b : B.Block) : Prop :=
  B.previous b = n.head_block_id ∨ ∃ item ∈ n.fork.headItem, item.previous_id = n.head_block_id

/-- The block is accepted on the tables of the head. -/
def Node.Takes (n : Node C) (skip : SkipFlags) (b : B.Block) : Prop :=
  ((C.applyBlock skip b).exec (n.tablesBelow 0)).1.isOk = true

/-- The block is refused there before it gets to the last irreversible block, and is not in the fork
database, from which it is removed. -/
def Node.Refuses (n : Node C) (skip : SkipFlags) (b : B.Block) : Prop :=
  ((C.beginBlock skip b).exec (n.tablesBelow 0)).1.isOk = false ∧ n.fork.fetch_block (B.id b) = none

/-- The new block `b` is higher than the head on another branch, and there are sessions for the `k`
blocks that a switch pops. -/
def Node.CanSwitch (n : Node C) (b : B.Block) (k : ℕ) : Prop :=
  n.fork.fetch_block (B.id b) = none ∧ B.previous b ≠ n.head_block_id ∧
    n.head_block_num < B.block_num b ∧ n.committed + k ≤ n.head_block_num

/-- The switch to the branch of `b` goes through: its blocks are accepted where the branches part, they
do not take the last irreversible block back, and do not move it beyond the head that the fork database
has after the pops, unless there is one pop only. -/
def Node.Switches (n : Node C) (skip : SkipFlags) (b : B.Block) (f : ForkDatabase B) : Prop :=
  ∃ lr ∈ (f.fetch_branch_from (B.id b) n.head_block_id).toOption, n.CanSwitch b lr.2.length ∧
    ((C.applyBlocks skip (f.blocksOf lr.1).reverse).exec (n.tablesBelow lr.2.length)).1.isOk = true ∧
    n.last_irreversible_block_num ≤ C.last_irreversible_block_num
      ((C.applyBlocks skip (f.blocksOf lr.1).reverse).exec (n.tablesBelow lr.2.length)).2.view ∧
    (C.last_irreversible_block_num
      ((C.applyBlocks skip (f.blocksOf lr.1).reverse).exec (n.tablesBelow lr.2.length)).2.view +
        lr.2.length ≤ B.block_num b ∨ lr.2.length = 1)

/-- The block is refused by the fork database, is accepted or refused on top of the head, waits on a
branch that is not higher, or starts a switch that goes through. -/
def Node.PushKeepsLog (n : Node C) (skip : SkipFlags) (b : B.Block) : Prop :=
  ∀ f ∈ (n.fork.push_block b).toOption,
    n.OnTop b ∧ (n.Takes skip b ∨ n.Refuses skip b) ∨
      ¬ n.OnTop b ∧ (B.block_num b ≤ n.head_block_num ∨ n.Switches skip b f)

theorem NodeInvAt.last_irreversible_block_num (h : NodeInvAt T s n) :
    n.last_irreversible_block_num = C.last_irreversible_block_num s.cur.view := by
  obtain ⟨d, hd, hview⟩ := h.sameHead
  rw [Node.last_irreversible_block_num, hview, hd.lib]

theorem Node.PushKeepsLog.pending {n' : Node C} (hb : n.PushKeepsLog skip b) (h : NodeInvAt T s n)
    (h' : NodeInvAt T s n') (hpart : n'.blockPart = n.blockPart) : n'.PushKeepsLog skip b := by
  obtain ⟨hfork, -, hcommitted⟩ := blockPart_eq hpart
  have hid := h'.head_block_id.trans h.head_block_id.symm
  have hnum := h'.head_block_num.trans h.head_block_num.symm
  have hlib := h'.last_irreversible_block_num.trans h.last_irreversible_block_num.symm
  simp only [PushKeepsLog, OnTop, Takes, Refuses, Switches, CanSwitch, h.exec_below,
    h.view_below] at hb
  simpa only [PushKeepsLog, OnTop, Takes, Refuses, Switches, CanSwitch, h'.exec_below,
    h'.view_below, hfork, hcommitted, hid, hnum, hlib] using hb

/-! ## Pushes -/

/-- The block log holds the main chain up to the last irreversible block, and the fork database has the
main chain above it and no higher block, apart from a head that was refused. -/
structure Node.LogKept (n : Node C) : Prop where
  log : LogBelow n.block_log n.head_block_id
  length : n.block_log.length = n.last_irreversible_block_num
  closed : n.fork.Closed n.block_log.length
  known : n.block_log.length < n.head_block_num → n.fork.Known n.head_block_id
  index : ∀ p ∈ n.fork.index, ∃ item, n.fork.item? p = some item ∧ item.num ≤ n.head_block_num
  head : ∀ item, n.fork.headItem = some item →
    item.num ≤ n.head_block_num ∨ item.previous_id = n.head_block_id
  headless : n.fork.headItem = none → n.fork.index = [] ∧ n.block_log.length = n.head_block_num

namespace Node.LogKept

variable {s : SnapshotStack (Contents S)} {n n' : Node C} {skip : SkipFlags} {b : B.Block}
  {f : ForkDatabase B}

theorem pending (h : n.LogKept) (hn : NodeInvAt T s n) (hn' : NodeInvAt T s n')
    (hfork : n'.fork = n.fork) (hlog : n'.block_log = n.block_log) : n'.LogKept := by
  have hid := hn'.head_block_id.trans hn.head_block_id.symm
  have hnum := hn'.head_block_num.trans hn.head_block_num.symm
  have hlib := hn'.last_irreversible_block_num.trans hn.last_irreversible_block_num.symm
  obtain ⟨h1, h2, h3, h4, h5, h6, h7⟩ := h
  rw [← hlog] at h1 h2 h3 h4 h7
  rw [← hfork] at h3 h4 h5 h6 h7
  rw [← hid] at h1 h4 h6
  rw [← hnum] at h4 h5 h6 h7
  rw [← hlib] at h2
  exact ⟨h1, h2, h3, h4, h5, h6, h7⟩

/-- Arrived, with a last irreversible block that is not below the old one. -/
theorem of_following {x : B.Id} {k : ℕ} (h : Following L x k s n) (hid : n.head_block_id = x)
    (hk : k ≤ n.last_irreversible_block_num) : n.LogKept := by
  have hn := h.clean.nodeInvAt
  have hnum : n.head_block_num = B.num_from_id x := by
    rw [hn.num_head_block_id, hid]
  have hlength := h.length
  rw [← hn.last_irreversible_block_num, max_eq_right hk] at hlength
  obtain ⟨item, hitem, hbranch, -⟩ := h.head
  refine ⟨?_, hlength, h.closed, ?_, ?_, ?_, ?_⟩
  · rw [hn.head_block_id]
    exact h.log
  · rw [hnum, hid]
    exact h.known
  · rw [hnum]
    exact h.index
  · intro item' hitem'
    obtain rfl : item = item' := Option.some.inj (hitem.symm.trans hitem')
    left
    rw [hnum]
    exact hbranch.num_le
  · intro hnone
    rw [hitem] at hnone
    cases hnone

variable (h : n.LogKept)

include h

/-- A block that links to a known one is at most one above the head. -/
theorem block_num_le (hpush : n.fork.push_block b = .ok f) {head : ForkItem B}
    (hhead : n.fork.headItem = some head) : B.block_num b ≤ n.head_block_num + 1 := by
  obtain ⟨prev, hlink, -⟩ := ForkDatabase.push_block_ok hpush
  rcases ForkDatabase.link_cases hlink with ⟨q, -, hq, item, hitem, hid⟩ | hone | hnone
  · obtain ⟨item', hitem', hle⟩ := h.index q hq
    obtain rfl : item = item' := Option.some.inj (hitem.symm.trans hitem')
    rw [item.num_eq, hid] at hle
    exact Nat.succ_le_succ hle
  · omega
  · rw [hhead] at hnone
    cases hnone

/-- A block above the head is the only one of its number. -/
theorem alone (hpush : n.fork.push_block b = .ok f) (hnum : B.block_num b = n.head_block_num + 1) :
    (f.fetch_block_by_number (B.block_num b)).length ≤ 1 := by
  refine ForkDatabase.push_block_alone hpush fun q hq => ?_
  obtain ⟨item, hitem, hle⟩ := h.index q hq
  exact ⟨item, hitem, by omega⟩

/-- The way to the block on top of the longest branch, once the fork database took it. -/
theorem following (hn : CleanAt (Tracked.trivial L) s n) (hpush : n.fork.push_block b = .ok f)
    {head : ForkItem B} (hhead : f.headItem = some head) (hbranch : f.OnBranch (B.id b) head)
    (hnum : B.block_num b = n.head_block_num + 1) :
    Following L (B.id b) n.block_log.length s { n with fork := f } := by
  have hid : B.num_from_id (B.id b) = n.head_block_num + 1 := (B.num_id b).trans hnum
  have hlib := hn.nodeInvAt.last_irreversible_block_num
  refine ⟨hn.pushFork True.intro hpush, ?_, ?_, ?_, ?_, ?_, ?_, head, hhead, hbranch, ?_⟩
  · rw [← hn.nodeInvAt.head_block_id]
    exact h.log
  · rw [← hlib, ← h.length, max_self]
  · dsimp only
    rw [h.length]
    exact hn.nodeInvAt.lib_le
  · refine h.closed.push hpush fun hnone => ?_
    rw [hnum, (h.headless hnone).2]
  · exact fun _ => ForkDatabase.push_block_known hpush
  · refine ForkDatabase.push_block_bounded hpush (fun p hp => ?_) (hid ▸ hnum.le)
    obtain ⟨item, hitem, hle⟩ := h.index p hp
    exact ⟨item, hitem, by omega⟩
  · rw [← hn.nodeInvAt.head_block_num, ← hid]
    exact hbranch.num_le

theorem stay (hpush : n.fork.push_block b = .ok f)
    (hnum : B.block_num b ≤ n.head_block_num) : Node.LogKept { n with fork := f } := by
  obtain ⟨head, hhead, hlow⟩ : ∃ item, f.headItem = some item ∧
      (item.num ≤ n.head_block_num ∨ item.previous_id = n.head_block_id) := by
    rcases ForkDatabase.push_block_head hpush with ⟨-, prev, hhead, hitem⟩ | ⟨item, hold, -, hhead⟩
    · refine ⟨⟨b, prev, false⟩, ?_, .inl hnum⟩
      simp only [ForkDatabase.headItem, hhead, Option.bind_some, hitem]
    · obtain ⟨p, hp, hitem⟩ := Option.bind_eq_some_iff.1 hold
      refine ⟨item, ?_, h.head item hold⟩
      simp only [ForkDatabase.headItem, hhead, hp, Option.bind_some]
      exact ForkDatabase.push_block_item hpush hitem
  refine ⟨h.log, h.length, ?_, fun hk => (h.known hk).push hpush,
    ForkDatabase.push_block_bounded hpush h.index hnum, ?_, ?_⟩
  · refine h.closed.push hpush fun hnone => ?_
    rw [(h.headless hnone).2]
    exact hnum.trans (Nat.le_succ _)
  · intro item hitem
    rw [← Option.some.inj (hhead.symm.trans hitem)]
    exact hlow
  · intro hnone
    rw [show f.headItem = some head from hhead] at hnone
    cases hnone

section

variable (hn : CleanAt (Tracked.trivial L) s n) (hpush : n.fork.push_block b = .ok f)

include hn hpush

/-- The head of the fork database is built on the head of the tables once it took a block on top: it is
the block, or the one that was refused. -/
theorem head_on_top (htop : n.OnTop b) : ∃ p head, f.head = some p ∧ f.item? p = some head ∧
    head.previous_id = n.head_block_id := by
  have hnum : ∀ {y : B.Id}, y = n.head_block_id → B.num_from_id y + 1 = n.head_block_num + 1 :=
    fun hy => by rw [hy, hn.nodeInvAt.num_head_block_id]
  rcases ForkDatabase.push_block_head hpush with ⟨hhigh, prev, hhead, hitem⟩ | ⟨head, hold, hle, hhead⟩
  · refine ⟨_, _, hhead, hitem, htop.resolve_right fun ⟨head, hold, hprev⟩ => ?_⟩
    have hlt := hhigh head hold
    have hle := h.block_num_le hpush hold
    have heq : head.num = n.head_block_num + 1 := hnum hprev
    omega
  · obtain ⟨p, hp, hitem⟩ := Option.bind_eq_some_iff.1 hold
    refine ⟨p, head, hhead.trans hp, ForkDatabase.push_block_item hpush hitem, ?_⟩
    rcases htop with hb | ⟨head', hold', hprev⟩
    · have heq : B.block_num b = n.head_block_num + 1 := hnum hb
      exact (h.head head hold).resolve_left (by omega)
    · rw [Option.some.inj (hold.symm.trans hold')]
      exact hprev

theorem take (hlog : skip.skip_block_log = false) (htop : n.OnTop b) (htakes : n.Takes skip b) :
    (extendHead skip b { n with fork := f }).2.LogKept := by
  obtain ⟨c', hrun, -⟩ := hn.nodeInvAt.run_below htakes
  have happ : Applied C skip s.cur b c' := applied_iff.2 hrun
  have hat := happ.atBlock hn.2.1.stack.inv_cur
  obtain ⟨p, head, hhead, hitem, hprev⟩ := h.head_on_top hn hpush htop
  have hbuilt : B.previous b = n.head_block_id := by
    rw [hn.nodeInvAt.head_block_id, hat.previous]
  have hnum : B.block_num b = n.head_block_num + 1 := by
    rw [BlockSpec.block_num, hbuilt, ← hn.nodeInvAt.num_head_block_id]
  have hheadNum : head.num = B.block_num b := by
    rw [BlockSpec.block_num, hbuilt, ← hprev]
    rfl
  have hfound : f.headItem = some head := by rw [ForkDatabase.headItem, hhead, Option.bind_some, hitem]
  -- the head is the block, or a block beside it that left the index
  have hbranch : f.OnBranch (B.id b) head := by
    refine Or.inr ⟨hheadNum.trans (B.num_id b).symm, ?_, ?_⟩
    · rw [hprev, ← hbuilt]
      exact .previous_id b
    · rw [hheadNum]
      exact h.alone hpush hnum
  obtain ⟨n', s', hres, h', rfl, -⟩ := (h.following hn hpush hfound hbranch hnum).apply
    [] hlog .refl happ (by
      intro head' hhead' m hlow hm
      have hle := hm.trans (L.lib_le hat.inv)
      rw [← Option.some.inj (hfound.symm.trans hhead'), hheadNum, ← hat.num] at hlow
      omega)
  have hext : extendHead skip b { n with fork := f } = (.ok false, n') := bind_of_ok (attempt_of_ok hres)
  rw [hext]
  refine of_following h' (h'.clean.nodeInvAt.head_block_id.trans hat.id) ?_
  rw [h.length, hn.nodeInvAt.last_irreversible_block_num,
    h'.clean.nodeInvAt.last_irreversible_block_num]
  exact hat.lib_le

/-- A block on top of the head leaves the index again, and may stay the head of the fork database. -/
theorem remove (htop : n.OnTop b) (hnew : n.fork.fetch_block (B.id b) = none) :
    Node.LogKept { n with fork := f.remove (B.id b) } := by
  have hunknown : ¬ n.fork.Known (B.id b) := by
    rintro ⟨p, hp, item, hitem, hid⟩
    have hfind := List.find?_eq_none.1 hnew p hp
    simp [hitem, hid] at hfind
  obtain ⟨p, head, hhead, hitem, hprev⟩ := h.head_on_top hn hpush htop
  have hfound : (f.remove (B.id b)).headItem = some head := by
    rw [ForkDatabase.headItem, show (f.remove (B.id b)).head = some p from hhead]
    exact hitem
  have hclosed : f.Closed n.block_log.length := by
    refine h.closed.push hpush fun hnone => ?_
    have hbuilt : B.previous b = n.head_block_id := by
      refine htop.resolve_right ?_
      rintro ⟨item, hitem, -⟩
      rw [hnone] at hitem
      cases hitem
    rw [(h.headless hnone).2, BlockSpec.block_num, hbuilt, hn.nodeInvAt.num_head_block_id]
  refine ⟨h.log, h.length, hclosed.remove ?_, fun hk => ?_, fun q hq => ?_, fun item hi => .inr ?_, ?_⟩
  · -- what is built on the block would be linked to it, in an index that does not have it
    intro q hq item hqi hnum heq
    rcases ForkDatabase.push_block_reached hpush hq hqi with ⟨hq0, hqi0⟩ | ⟨prev, -, rfl⟩
    · obtain ⟨r, hr, -, hprev⟩ := h.closed q hq0 item hqi0 hnum
      exact hunknown (heq ▸ ⟨r, hr, hprev⟩)
    · exact B.id_ne_previous b heq.symm
  · exact ((h.known hk).push hpush).remove fun heq => hunknown (heq ▸ h.known hk)
  · have hold : q ∈ n.fork.index → ∃ item, f.item? q = some item ∧ item.num ≤ n.head_block_num := by
      intro hq0
      obtain ⟨item, hitem, hle⟩ := h.index q hq0
      exact ⟨item, ForkDatabase.push_block_item hpush hitem, hle⟩
    have hmem : q ∈ f.index := List.mem_of_mem_filter hq
    obtain ⟨prev, hheap⟩ := ForkDatabase.push_block_heap hpush
    rcases ForkDatabase.push_block_index_eq hpush with heq | heq <;> rw [heq] at hmem
    · exact hold hmem
    · rcases List.mem_append.1 hmem with hmem | hmem
      · exact hold hmem
      · -- the new item is the one that leaves
        have hqi : f.item? q = some ⟨b, prev, false⟩ := by
          rw [List.mem_singleton.1 hmem, ForkDatabase.item?, hheap, List.getElem?_concat_length]
        exact absurd rfl ((ForkDatabase.mem_remove hqi).1 hq).2
  · rw [← Option.some.inj (hfound.symm.trans hi)]
    exact hprev
  · intro hnone
    rw [hfound] at hnone
    cases hnone

theorem refuse (htop : n.OnTop b) (hrefuses : n.Refuses skip b) :
    (extendHead skip b { n with fork := f }).2.LogKept := by
  obtain ⟨e, n', hres, hn', hfork, hblocks⟩ := applyInSession_of_refused []
    (hn.pushFork (b := b) True.intro hpush) (hn.nodeInvAt.not_began hrefuses.1)
  have hext : extendHead skip b { n with fork := f } =
      (.error e, { n' with fork := f.remove (B.id b) }) := by
    refine bind_of_error ?_
    rw [attempt_of_error hres, bind_of_ok (setFork_apply _ _), hfork]
    rfl
  have hheap := (hn.pushFork (b := b) True.intro hpush).2.1.heap
  have hleft : CleanAt (Tracked.trivial L) s { n with fork := f.remove (B.id b) } := hn.setFork hheap
  have hleft' : CleanAt (Tracked.trivial L) s { n' with fork := f.remove (B.id b) } :=
    hn'.setFork hheap
  rw [hext]
  exact (h.remove hn hpush htop hrefuses.2).pending hleft.nodeInvAt hleft'.nodeInvAt rfl hblocks

/-- A block of a higher branch is one above the head, if the branch meets the main chain. -/
theorem switch_num (hhigh : n.head_block_num < B.block_num b) {branches : List Ptr × List Ptr}
    (hfetch : f.fetch_branch_from (B.id b) n.head_block_id = .ok branches) :
    B.block_num b = n.head_block_num + 1 := by
  refine le_antisymm ?_ hhigh
  cases hhead : n.fork.headItem with
  | some head => exact h.block_num_le hpush hhead
  | none =>
    -- without a head the index has the block alone, which is not the head of the tables
    exfalso
    obtain ⟨-, p, hp⟩ := ForkDatabase.fetch_branch_from_spec (hn.2.1.heap.push True.intro hpush) hfetch
    obtain ⟨hmem, item, hitem, hid⟩ := ForkDatabase.fetch_block_spec hp
    rcases ForkDatabase.push_block_index hpush hmem hitem with ⟨hmem0, -⟩ | ⟨-, prev, -, rfl⟩
    · rw [(h.headless hhead).1] at hmem0
      cases hmem0
    · have hnum : n.head_block_num = B.block_num b := by
        rw [hn.nodeInvAt.num_head_block_id, ← hid]
        exact B.num_id b
      omega

theorem switch (hlog : skip.skip_block_log = false) {prev : Option Ptr}
    (hhead : f.head = some n.fork.heap.length)
    (hitem : f.item? n.fork.heap.length = some ⟨b, prev, false⟩) (hswitches : n.Switches skip b f) :
    (switchForks skip n.fork.heap.length ⟨b, prev, false⟩ { n with fork := f }).2.LogKept := by
  obtain ⟨⟨l, r⟩, hfetch, ⟨hnew, hprev, hhigh, hsessions⟩, hok, hlow, hlib⟩ := hswitches
  obtain ⟨c', hrun, hview⟩ := hn.nodeInvAt.run_below hok
  rw [hview] at hlow hlib
  have hfetch' : f.fetch_branch_from (B.id b) n.head_block_id = .ok (l, r) :=
    eq_ok_of_mem_toOption hfetch
  have hfound : f.headItem = some ⟨b, prev, false⟩ := by
    rw [ForkDatabase.headItem, hhead, Option.bind_some, hitem]
  have hs : r.length ≤ s.saved.length := by
    have hheight := hn.2.1.stack.height
    rw [← hn.nodeInvAt.head_block_num] at hheight
    dsimp only at hsessions
    omega
  have hnum := h.switch_num hn hpush hhigh hfetch'
  have hfollowing : Following L (ForkItem.id ⟨b, prev, false⟩) n.block_log.length s
      { n with fork := f } := h.following hn hpush hfound (.inl .refl) hnum
  obtain ⟨n', s', hres, h', rfl, hid⟩ := hfollowing.switchForks rfl hlog hhead
    (ForkDatabase.push_block_fetch hpush hnew) hfetch' ((B.num_id b).symm ▸ hhigh) hs hrun
    (hlib.imp (fun hle => (B.num_id b).symm ▸ hle) fun hone => ⟨hone, (B.num_id b).symm ▸ h.alone hpush hnum⟩)
  rw [hres]
  refine of_following h' hid ?_
  rw [h.length, h'.clean.nodeInvAt.last_irreversible_block_num]
  exact hlow

end

theorem _push_block (hn : CleanAt (Tracked.trivial L) s n) (hfork : skip.skip_fork_db = false)
    (hlog : skip.skip_block_log = false) (hb : n.PushKeepsLog skip b) :
    (Chain._push_block skip b n).2.LogKept := by
  cases hpush : n.fork.push_block b with
  | error e =>
    rw [_push_block_of_error hfork hpush]
    exact h
  | ok f =>
    rcases hb f (by rw [hpush]; rfl) with ⟨htop, hend⟩ | ⟨hside, hend⟩
    · obtain ⟨p, head, hhead, hitem, hprev⟩ := h.head_on_top hn hpush htop
      rw [_push_block_of_ok hfork hpush hhead hitem,
        followHead_of_extend (n := { n with fork := f }) hprev]
      rcases hend with htakes | hrefuses
      · exact h.take hn hpush hlog htop htakes
      · exact h.refuse hn hpush htop hrefuses
    · obtain ⟨hprev, hother⟩ := not_or.1 hside
      rcases ForkDatabase.push_block_head hpush with ⟨-, prev, hhead, hitem⟩ | ⟨item, hold, hle, hhead⟩
      · -- the new block is the head of the fork database
        rw [_push_block_of_ok hfork hpush hhead hitem]
        rcases hend with hlow | hswitches
        · rw [followHead_of_stay (n := { n with fork := f }) ⟨b, prev, false⟩ hprev hlow]
          exact h.stay hpush hlow
        · have hhigh : n.head_block_num < B.block_num b := hswitches.elim fun _ hs => hs.2.1.2.2.1
          rw [followHead_of_switch (n := { n with fork := f }) ⟨b, prev, false⟩ hprev hhigh,
            bind_pure_snd _ fun _ => true]
          exact h.switch hn hpush hlog hhead hitem hswitches
      · -- the old head stays, and is not above the head of the tables
        have hno : item.previous_id ≠ n.head_block_id := fun heq => hother ⟨item, hold, heq⟩
        have hlow := (h.head item hold).resolve_right hno
        obtain ⟨p, hp, hitem⟩ := Option.bind_eq_some_iff.1 hold
        rw [_push_block_of_ok hfork hpush (hhead.trans hp) (ForkDatabase.push_block_item hpush hitem),
          followHead_of_stay (n := { n with fork := f }) item hno hlow]
        exact h.stay hpush (hle.trans hlow)

end Node.LogKept

/-! ## Runs -/

/-- The block log is the main chain up to the last irreversible block: it has one block of each number,
in order, and each is built on the one before. -/
structure Node.LogIsChain (n : Node C) : Prop where
  length : n.block_log.length = n.last_irreversible_block_num
  main : ∀ i b, n.block_log[i]? = some b → n.MainBlock (i + 1) (B.id b)
  linked : n.block_log.IsChain fun b b' => B.previous b' = B.id b

/-- The step keeps the log: a push uses the fork database and the log and is one of those above, and
nothing is popped from outside. -/
def Call.KeepsLog : Node C → Call C → Prop :=
  Call.Keeps (fun n skip b => skip.skip_fork_db = false ∧ skip.skip_block_log = false ∧
    n.PushKeepsLog skip b) Node.CannotPop

instance (n : Node C) (b : B.Block) : Decidable (n.OnTop b) :=
  inferInstanceAs (Decidable (_ ∨ ∃ item ∈ _, _))

instance (n : Node C) (skip : SkipFlags) (b : B.Block) (f : ForkDatabase B) :
    Decidable (n.Switches skip b f) :=
  inferInstanceAs (Decidable (∃ lr ∈ _, (_ ∧ _ ∧ _ ∧ _) ∧ _ ∧ _ ∧ (_ ∨ _)))

instance (n : Node C) (skip : SkipFlags) (b : B.Block) : Decidable (n.PushKeepsLog skip b) :=
  inferInstanceAs (Decidable (∀ f ∈ _, n.OnTop b ∧ (_ = _ ∨ _ ∧ _) ∨
    ¬ n.OnTop b ∧ (_ ∨ n.Switches skip b f)))

instance (n : Node C) (call : Call C) : Decidable (call.KeepsLog n) :=
  inferInstanceAs (Decidable (call.Keeps _ _ n))

theorem Node.LogKept.logIsChain (h : n.LogKept) : n.LogIsChain :=
  ⟨h.length, h.log, h.log.isChain⟩

theorem run_logKept (hn : NodeInv (Tracked.trivial L) n) (h : n.LogKept)
    {calls : List (Call C)} (hcalls : Node.Along Call.KeepsLog n calls) : (n.run calls).LogKept := by
  refine run_keeps (P := Node.LogKept) (fun {_ n n'} hn hn' hpart => ⟨fun h => ?_, fun skip b hb => ?_⟩)
    (fun hn h hb => h._push_block hn hb.1 hb.2.1 hb.2.2) (fun {_ n} hn h hpop => ?_) hn h hcalls
  · obtain ⟨hfork, hlog, -⟩ := Node.blockPart_eq hpart
    exact h.pending hn hn' hfork hlog
  · exact ⟨hb.1, hb.2.1, hb.2.2.pending hn hn' hpart⟩
  · obtain ⟨n', e, heq, hn', hpart⟩ := pop_block_cannot hn hpop
    obtain ⟨hfork, hlog, -⟩ := Node.blockPart_eq hpart
    rw [heq]
    exact h.pending hn hn' hfork hlog

/-- At genesis nothing is in the log and in the fork database. -/
theorem Opened.logKept {n₀ : Node C} {c₀ : Contents S} (h₀ : Opened L n₀ c₀)
    (hgenesis : C.head_block_num c₀.view = 0) (hfork : n₀.fork = .init) (hlog : n₀.block_log = []) :
    n₀.LogKept := by
  have hnum : n₀.head_block_num = 0 := by
    rw [Node.head_block_num, h₀.db.view_eq]
    exact hgenesis
  have hlib : n₀.last_irreversible_block_num = 0 := by
    rw [Node.last_irreversible_block_num, h₀.db.view_eq]
    exact Nat.le_zero.1 (hgenesis ▸ L.lib_le h₀.inv)
  refine ⟨?_, ?_, ?_, ?_, ?_, ?_, ?_⟩ <;> simp only [hfork, hlog, hnum, hlib]
  · exact .nil _
  · rfl
  · intro p hp
    rcases hp with hp | hp <;> cases hp
  · intro hlt
    cases hlt
  · intro p hp
    cases hp
  · intro item hitem
    cases hitem
  · exact fun _ => ⟨rfl, rfl⟩

/-- In every run from genesis with an empty log whose steps all keep the log, fork switches among
them, the block log is the main chain up to the last irreversible block. -/
theorem run_logIsChain (L : ChainLaws C) {n₀ : Node C} {c₀ : Contents S} (h₀ : Opened L n₀ c₀)
    (hgenesis : C.head_block_num c₀.view = 0) (hfork : n₀.fork = .init) (hlog : n₀.block_log = [])
    (calls : List (Call C)) (hcalls : Node.Along Call.KeepsLog n₀ calls) : (n₀.run calls).LogIsChain :=
  (run_logKept (h₀.run_nodeInv []) (h₀.logKept hgenesis hfork hlog) hcalls).logIsChain

namespace HeaderChain

/-- The push of a block whose branch leaves the main chain below block 3 throws, with the node back at
block 3. The log holds the three blocks that were irreversible, but for the tables no block is. -/
theorem failed_push_log_ahead :
    ((genesisNode.run branchCalls).last_irreversible_block_num = 3 ∧
        (genesisNode.run branchCalls).block_log.length = 3) ∧
      (genesisNode.run (branchCalls ++ pushes [branchHead])).last_irreversible_block_num = 0 ∧
      (genesisNode.run (branchCalls ++ pushes [branchHead])).block_log.length = 3 := by
  decide +kernel

/-- A main chain of 23 blocks with a refused block beside the second one, a sibling of the last one, and
a block on the sibling, to which the node switches. -/
def siblingHeaders : List Header :=
  let main := headers .zero 1 0 23
  let last := main.getLast (List.cons_ne_nil _ _)
  main.take 1 ++ [⟨.block .zero 1 0, 0, 0⟩] ++ main.drop 1 ++
    [{ last with salt := 1 }, ⟨.block last.previous last.timestamp 1, 24, 1⟩]

theorem run_logIsChain_sibling :
    Node.Along Call.KeepsLog genesisNode (pushes siblingHeaders) ∧
      (genesisNode.run (pushes siblingHeaders)).LogIsChain ∧
      (genesisNode.run (pushes siblingHeaders)).block_log.length = 3 := by
  have h : Node.Along Call.KeepsLog genesisNode (pushes siblingHeaders) := by decide +kernel
  have hlength : (genesisNode.run (pushes siblingHeaders)).block_log.length = 3 := by decide +kernel
  exact ⟨h, run_logIsChain laws opened_genesis rfl rfl rfl _ h, hlength⟩

end HeaderChain

end Calibrd.Chain
