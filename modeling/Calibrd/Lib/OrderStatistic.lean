import Mathlib

/-!
# Order statistics of a list

`nthElement l k` is the entry at position `k` of the sorted list, as `std::nth_element` finds it.
`half_le_countP_middle` is about the middle entry of any arrangement that is sorted by a relation.
`Leading r pool n l` says that `l` holds the first `n` entries of `pool` in the order `r`.
-/

namespace Calibrd.Lib

variable {α : Type} [LinearOrder α] {l : List α} {k : ℕ}

def sorted (l : List α) : List α := l.insertionSort (· ≤ ·)

/-- The entry at position `k` of the sorted list, or `d` behind its end. -/
def nthElement (l : List α) (k : ℕ) (d : α) : α := (sorted l).getD k d

section Middle

variable {β : Type} {r : β → β → Prop} [DecidableRel r] {pool l : List β}

/-- At least half of a pool is at most the middle entry of a sorted arrangement and at least half of
it is at least that entry. -/
theorem half_le_countP_middle (hrefl : ∀ a, r a a) (hperm : l.Perm pool) (hl : l.Pairwise r)
    (hpool : pool ≠ []) (d : β) :
    pool.length ≤ 2 * pool.countP (fun a => decide (r a (l.getD (pool.length / 2) d))) ∧
      pool.length ≤ 2 * pool.countP (fun a => decide (r (l.getD (pool.length / 2) d) a)) := by
  have hpos : 0 < pool.length := List.length_pos_iff.2 hpool
  have hlen := hperm.length_eq
  have hk : pool.length / 2 < l.length := by omega
  have hle : ∀ i j (hi : i < l.length) (hj : j < l.length), i ≤ j → r l[i] l[j] := by
    intro i j hi hj hij
    rcases Nat.lt_or_ge i j with hlt | hge
    · exact List.pairwise_iff_getElem.1 hl i j hi hj hlt
    · obtain rfl : i = j := by omega
      exact hrefl _
  rw [List.getD_eq_getElem?_getD, List.getElem?_eq_getElem hk, Option.getD_some,
    ← hperm.countP_eq, ← hperm.countP_eq]
  have hsplit : ∀ n (p : β → Bool), l.countP p = (l.take n).countP p + (l.drop n).countP p := by
    intro n p
    rw [← List.countP_append, List.take_append_drop]
  constructor
  · have hall : ∀ x ∈ l.take (pool.length / 2 + 1), decide (r x l[pool.length / 2]) = true := by
      intro x hx
      obtain ⟨i, hi, rfl⟩ := List.getElem_of_mem hx
      rw [List.length_take] at hi
      rw [List.getElem_take, decide_eq_true_eq]
      exact hle i _ _ hk (by omega)
    rw [hsplit (pool.length / 2 + 1), List.countP_eq_length.2 hall, List.length_take]
    omega
  · have hall : ∀ x ∈ l.drop (pool.length / 2), decide (r l[pool.length / 2] x) = true := by
      intro x hx
      obtain ⟨i, hi, rfl⟩ := List.getElem_of_mem hx
      rw [List.getElem_drop, decide_eq_true_eq]
      exact hle _ _ hk _ (by omega)
    rw [hsplit (pool.length / 2), List.countP_eq_length.2 hall, List.length_drop]
    omega

end Middle

section Leading

variable {β : Type} {r : β → β → Prop} {pool : List β} {n : ℕ}

/-- The first `n` entries of the pool, in any order; all of them if there are no more. -/
structure Leading (r : β → β → Prop) (pool : List β) (n : ℕ) (l : List β) : Prop where
  nodup : l.Nodup
  subset : l ⊆ pool
  length_eq : l.length = min n pool.length
  before : ∀ a ∈ l, ∀ b ∈ pool, b ∉ l → r a b

theorem leading_take {l : List β} (hpool : pool.Nodup) (hperm : l.Perm pool) (hl : l.Pairwise r) :
    Leading r pool n (l.take n) where
  nodup := (hperm.nodup_iff.2 hpool).sublist (List.take_sublist n l)
  subset _ ha := hperm.mem_iff.1 (List.mem_of_mem_take ha)
  length_eq := by rw [List.length_take, hperm.length_eq]
  before a ha b hb hout := by
    rw [← hperm.mem_iff, ← List.take_append_drop n l, List.mem_append] at hb
    rw [← List.take_append_drop n l, List.pairwise_append] at hl
    exact hl.2.2 a ha b (hb.resolve_left hout)

end Leading

end Calibrd.Lib
