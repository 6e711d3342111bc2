import Mathlib

/-!
# A budget that refills

A bucket of fixed capacity is filled with the time that passes, up to its capacity, and whoever takes
from it takes at most what is there. `Budgeted` ties the bucket to the list of what was taken: in
every interval this is at most the capacity and one refill for the length of the interval
(`Budgeted.window`), however the takes are spread. The refill may be rounded: it only has to be
superadditive.
-/

namespace Calibrd.Lib

variable {G : Type} [AddCommGroup G]

/-- What was taken from time `t` on. -/
def takenFrom (t : ℕ) (log : List (ℕ × G)) : G :=
  ((log.filter fun e => t ≤ e.1).map Prod.snd).sum

/-- What was taken in the `d` seconds from time `t` on. -/
def takenIn (t d : ℕ) (log : List (ℕ × G)) : G :=
  ((log.filter fun e => t ≤ e.1 ∧ e.1 ≤ t + d).map Prod.snd).sum

section Taken

variable {t d now : ℕ} {log : List (ℕ × G)} {used : G}

theorem takenFrom_concat :
    takenFrom t (log ++ [(now, used)]) = takenFrom t log + if t ≤ now then used else 0 := by
  by_cases h : t ≤ now <;> simp [takenFrom, h]

theorem takenIn_concat : takenIn t d (log ++ [(now, used)]) =
    takenIn t d log + if t ≤ now ∧ now ≤ t + d then used else 0 := by
  by_cases h : t ≤ now ∧ now ≤ t + d <;> simp [takenIn, h]

theorem takenFrom_of_lt (h : ∀ e ∈ log, e.1 < t) : takenFrom t log = 0 := by
  have hnone : (log.filter fun e => decide (t ≤ e.1)) = [] :=
    List.filter_eq_nil_iff.2 fun e he => by simpa using h e he
  rw [takenFrom, hnone]
  rfl

theorem takenIn_of_le (h : ∀ e ∈ log, e.1 ≤ t + d) : takenIn t d log = takenFrom t log := by
  unfold takenIn takenFrom
  congr 2
  refine List.filter_congr fun e he => ?_
  simp [h e he]

end Taken

variable [LinearOrder G] [IsOrderedAddMonoid G]

/-- What times of different length refill. -/
structure Refills (refill : ℕ → G) : Prop where
  nonneg : ∀ d, 0 ≤ refill d
  add_le : ∀ d e, refill d + refill e ≤ refill (d + e)

structure Bucket (G : Type) where
  level : G
  /-- The time at which the level was this. -/
  last : ℕ

namespace Bucket

variable (capacity : G) (refill : ℕ → G)

/-- What is there at the time `now`. -/
def available (b : Bucket G) (now : ℕ) : G := min (b.level + refill (now - b.last)) capacity

def take (b : Bucket G) (now : ℕ) (used : G) : Bucket G := ⟨b.available capacity refill now - used, now⟩

end Bucket

/-- The bucket after the takes of the list. -/
structure Budgeted (capacity : G) (refill : ℕ → G) (b : Bucket G) (log : List (ℕ × G)) : Prop where
  nonneg : 0 ≤ b.level
  le : b.level ≤ capacity
  past : ∀ e ∈ log, e.1 ≤ b.last
  since : ∀ t, b.level + takenFrom t log ≤ capacity + refill (b.last - t)
  window : ∀ t d, takenIn t d log ≤ capacity + refill d

namespace Budgeted

variable {capacity : G} {refill : ℕ → G} {b : Bucket G} {log : List (ℕ × G)}

theorem full (hrefill : Refills refill) (hcapacity : 0 ≤ capacity) (last : ℕ) :
    Budgeted capacity refill ⟨capacity, last⟩ [] where
  nonneg := hcapacity
  le := le_rfl
  past := List.forall_mem_nil _
  since t := by
    rw [takenFrom_of_lt (List.forall_mem_nil _), add_zero]
    exact le_add_of_nonneg_right (hrefill.nonneg _)
  window t d := add_nonneg hcapacity (hrefill.nonneg d)

theorem take (hrefill : Refills refill) (h : Budgeted capacity refill b log) {now : ℕ} {used : G}
    (hnow : b.last ≤ now) (hnonneg : 0 ≤ used) (hused : used ≤ b.available capacity refill now) :
    Budgeted capacity refill (b.take capacity refill now used) (log ++ [(now, used)]) := by
  have hpast : ∀ e ∈ log ++ [(now, used)], e.1 ≤ now := by
    exact List.forall_mem_append.2
      ⟨fun e he => (h.past e he).trans hnow, List.forall_mem_singleton.2 le_rfl⟩
  have hle : b.available capacity refill now ≤ capacity := min_le_right _ _
  have hlevel : 0 ≤ (b.take capacity refill now used).level := sub_nonneg.2 hused
  have hsince : ∀ t, (b.take capacity refill now used).level + takenFrom t (log ++ [(now, used)]) ≤
      capacity + refill (now - t) := by
    intro t
    rw [takenFrom_concat]
    show b.available capacity refill now - used + _ ≤ _
    rcases le_or_gt t b.last with hlast | hlast
    · -- the refill since the last take and the one before it are one
      rw [if_pos (hlast.trans hnow), add_comm (takenFrom t log), ← add_assoc, sub_add_cancel]
      have hsplit : b.last - t + (now - b.last) = now - t := by omega
      calc b.available capacity refill now + takenFrom t log
          ≤ b.level + refill (now - b.last) + takenFrom t log := by gcongr; exact min_le_left _ _
        _ = b.level + takenFrom t log + refill (now - b.last) := add_right_comm _ _ _
        _ ≤ capacity + refill (b.last - t) + refill (now - b.last) := add_le_add (h.since t) le_rfl
        _ = capacity + (refill (b.last - t) + refill (now - b.last)) := add_assoc _ _ _
        _ ≤ capacity + refill (now - t) := by
          rw [← hsplit]
          gcongr
          exact hrefill.add_le _ _
    · -- nothing was taken before in this time, and the bucket holds no more than its capacity
      have hbefore : takenFrom t log = 0 :=
        takenFrom_of_lt fun e he => (h.past e he).trans_lt hlast
      rw [hbefore, zero_add]
      refine le_trans ?_ (le_add_of_nonneg_right (hrefill.nonneg _))
      split
      · rwa [sub_add_cancel]
      · rw [add_zero]
        exact (sub_le_self _ hnonneg).trans hle
  refine ⟨hlevel, (sub_le_self _ hnonneg).trans hle, hpast, hsince, fun t d => ?_⟩
  by_cases hin : t ≤ now ∧ now ≤ t + d
  · rw [takenIn_of_le fun e he => (hpast e he).trans hin.2]
    have hgrow : refill (now - t) ≤ refill d := by
      have hsplit : now - t + (t + d - now) = d := by omega
      rw [← hsplit]
      exact (le_add_of_nonneg_right (hrefill.nonneg _)).trans (hrefill.add_le _ _)
    exact (le_add_of_nonneg_left hlevel).trans ((hsince t).trans (by gcongr))
  · rw [takenIn_concat, if_neg hin, add_zero]
    exact h.window t d

end Budgeted

end Calibrd.Lib
