import Mathlib

/-!
# Forests given by parents

A partial map `parent` is followed upwards (`ancestor`). With weights on a finite set of nodes, the
weight that reaches a node from `k` levels below is its `level k`.

* A change of one weight changes the levels of the node's ancestors (`level_update`).
* Cutting a node off its parent takes its own levels out of those of its ancestors
  (`level_detach`); read the other way round, this is what a new parent adds.
* `above` adds up what a walk along the ancestors hands out.
-/

namespace Calibrd.Lib.Forest

variable {α : Type}

/-- The node `k` levels up. -/
def ancestor (parent : α → Option α) : ℕ → α → Option α
  | 0, x => some x
  | k + 1, x => (ancestor parent k x).bind parent

/-- Following the parents never leads back. -/
def Acyclic (parent : α → Option α) : Prop := ∀ x k, ancestor parent (k + 1) x ≠ some x

section Ancestor

variable {parent : α → Option α} {a x y : α} {i j k : ℕ}

@[simp] theorem ancestor_zero (parent : α → Option α) (x : α) : ancestor parent 0 x = some x := rfl

theorem ancestor_succ (parent : α → Option α) (k : ℕ) (x : α) :
    ancestor parent (k + 1) x = (ancestor parent k x).bind parent := rfl

theorem ancestor_add (parent : α → Option α) (i j : ℕ) (x : α) :
    ancestor parent (i + j) x = (ancestor parent i x).bind (ancestor parent j) := by
  induction j with
  | zero => cases ancestor parent i x <;> rfl
  | succ j ih =>
    rw [← Nat.add_assoc, ancestor_succ, ih, Option.bind_assoc]
    rfl

theorem ancestor_succ_left (parent : α → Option α) (k : ℕ) (x : α) :
    ancestor parent (k + 1) x = (parent x).bind (ancestor parent k) := by
  rw [Nat.add_comm, ancestor_add]
  rfl

theorem ancestor_of_some (h : ancestor parent i x = some a) (j : ℕ) :
    ancestor parent (i + j) x = ancestor parent j a := by
  rw [ancestor_add, h, Option.bind_some]

/-- A node is on the way up at one level at most. -/
theorem Acyclic.level_unique (h : Acyclic parent) (hi : ancestor parent i x = some a)
    (hj : ancestor parent j x = some a) : i = j := by
  -- from the lower occurrence the way leads up to the higher one
  have below : ∀ {i j : ℕ}, ancestor parent i x = some a → ancestor parent j x = some a →
      ¬ i < j := by
    intro i j hi hj hlt
    obtain ⟨d, rfl⟩ := Nat.exists_eq_add_of_lt hlt
    rw [Nat.add_assoc, ancestor_of_some hi] at hj
    exact h a d hj
  exact Nat.le_antisymm (Nat.not_lt.1 (below hj hi)) (Nat.not_lt.1 (below hi hj))

end Ancestor

section Above

variable [DecidableEq α] {parent : α → Option α} {a p x : α} {f : ℕ → ℤ} {n : ℕ}

/-- What arrives at `x` if each of the next `n` ancestors of `a` gets `f`, by distance. -/
def above (parent : α → Option α) (n : ℕ) (f : ℕ → ℤ) (a x : α) : ℤ :=
  ∑ d ∈ Finset.range n, if ancestor parent (d + 1) a = some x then f d else 0

theorem above_of_none (h : parent a = none) : above parent n f a x = 0 := by
  refine Finset.sum_eq_zero fun d _ => ?_
  rw [ancestor_succ_left, h, Option.bind_none, if_neg nofun]

theorem above_of_some (h : parent a = some p) :
    above parent (n + 1) f a x =
      (if p = x then f 0 else 0) + above parent n (fun d => f (d + 1)) p x := by
  have hstep : ∀ d, ancestor parent (d + 1) a = ancestor parent d p := by
    intro d
    rw [ancestor_succ_left, h, Option.bind_some]
  rw [above, Finset.sum_range_succ', add_comm]
  simp only [hstep, ancestor_zero, Option.some.injEq]
  rfl

theorem above_congr {g : ℕ → ℤ} (h : ∀ d < n, f d = g d) :
    above parent n f a x = above parent n g a x := by
  refine Finset.sum_congr rfl fun d hd => ?_
  rw [h d (Finset.mem_range.1 hd)]

/-- Only the nearest `m` ancestors get something. -/
theorem above_truncate {m : ℕ} (h : m ≤ n) :
    above parent n (fun d => if d < m then f d else 0) a x = above parent m f a x := by
  rw [above, ← Finset.sum_subset (Finset.range_subset_range.2 h)]
  · refine Finset.sum_congr rfl fun d hd => ?_
    rw [if_pos (Finset.mem_range.1 hd)]
  · intro d _ hd
    rw [if_neg fun hlt => hd (Finset.mem_range.2 hlt), ite_self]

/-- Sums that get shorter with the distance, added up level by level. -/
theorem above_sum (n : ℕ) :
    above parent n (fun d => ∑ i ∈ Finset.range (n - d), f i) a x =
      ∑ k ∈ Finset.range (n + 1), above parent k (fun d => f (k - 1 - d)) a x := by
  induction n with
  | zero => simp [above]
  | succ n ih =>
    have hsplit : ∀ d < n + 1, ∑ i ∈ Finset.range (n + 1 - d), f i =
        (if d < n then ∑ i ∈ Finset.range (n - d), f i else 0) + f (n - d) := by
      intro d hd
      rw [Nat.succ_sub (Nat.lt_succ_iff.1 hd), Finset.sum_range_succ]
      split
      · rfl
      · rw [show n - d = 0 by omega, Finset.sum_range_zero]
    have hadd : ∀ g h : ℕ → ℤ, above parent (n + 1) (fun d => g d + h d) a x =
        above parent (n + 1) g a x + above parent (n + 1) h a x := by
      intro g h
      rw [above, above, above, ← Finset.sum_add_distrib]
      refine Finset.sum_congr rfl fun d _ => ?_
      split <;> simp
    rw [Finset.sum_range_succ, ← ih, above_congr hsplit, hadd, above_truncate n.le_succ]
    rfl

end Above

section Detach

variable [DecidableEq α] {parent : α → Option α} {a : α}

/-- The forest with `a` cut off its parent. -/
def detach (parent : α → Option α) (a : α) : α → Option α := Function.update parent a none

/-- The way up ends at `a`, and is as before otherwise. -/
theorem ancestor_detach (parent : α → Option α) (a : α) (k : ℕ) (x : α) :
    ((∃ i < k, ancestor parent i x = some a) ∧ ancestor (detach parent a) k x = none) ∨
      (∀ i < k, ancestor parent i x ≠ some a) ∧
        ancestor (detach parent a) k x = ancestor parent k x := by
  induction k with
  | zero => exact Or.inr ⟨fun i hi => absurd hi (Nat.not_lt_zero i), rfl⟩
  | succ k ih =>
    rcases ih with ⟨⟨i, hi, ha⟩, hnone⟩ | ⟨hno, hsame⟩
    · exact Or.inl ⟨⟨i, Nat.lt_succ_of_lt hi, ha⟩, by rw [ancestor_succ, hnone, Option.bind_none]⟩
    · by_cases hk : ancestor parent k x = some a
      · refine Or.inl ⟨⟨k, Nat.lt_succ_self k, hk⟩, ?_⟩
        rw [ancestor_succ, hsame, hk, Option.bind_some]
        exact Function.update_self ..
      · refine Or.inr ⟨?_, ?_⟩
        · intro i hi
          rcases Nat.lt_succ_iff_lt_or_eq.1 hi with hi | rfl
          · exact hno i hi
          · exact hk
        · rw [ancestor_succ, ancestor_succ, hsame]
          cases hx : ancestor parent k x with
          | none => rfl
          | some y =>
            have hy : y ≠ a := fun e => hk (by rw [hx, e])
            exact Function.update_of_ne hy _ _

theorem Acyclic.detach (h : Acyclic parent) (a : α) : Acyclic (detach parent a) := by
  intro x k
  rcases ancestor_detach parent a (k + 1) x with ⟨-, hnone⟩ | ⟨-, hsame⟩
  · rw [hnone]
    exact nofun
  · rw [hsame]
    exact h x k

/-- A new parent `b` for the root `a` makes no cycle if `a` is not above `b`. -/
theorem Acyclic.attach (h : Acyclic parent) {b : α} (ha : parent a = none)
    (hb : ∀ k, ancestor parent k b ≠ some a) : Acyclic (Function.update parent a (some b)) := by
  have hdetach : Forest.detach (Function.update parent a (some b)) a = parent := by
    rw [Forest.detach, Function.update_idem, ← ha, Function.update_eq_self]
  -- above `b` the new forest is the old one
  have habove : ∀ k, ancestor (Function.update parent a (some b)) k b = ancestor parent k b := by
    intro k
    induction k with
    | zero => rfl
    | succ k ih =>
      rw [ancestor_succ, ancestor_succ, ih]
      cases hx : ancestor parent k b with
      | none => rfl
      | some y =>
        have hy : y ≠ a := fun e => hb k (by rw [hx, e])
        exact Function.update_of_ne hy _ _
  intro x k hcycle
  rcases ancestor_detach (Function.update parent a (some b)) a (k + 1) x with
    ⟨⟨i, hi, hia⟩, -⟩ | ⟨-, hsame⟩
  · -- the cycle runs through `a`, so `a` is above `b`
    obtain ⟨d, hd⟩ := Nat.exists_eq_add_of_lt hi
    have hx : ancestor (Function.update parent a (some b)) (d + 1) a = some x := by
      rw [← ancestor_of_some hia, ← hcycle, hd]
      congr 1
    have hloop : ancestor (Function.update parent a (some b)) (d + 1 + i) a = some a := by
      rw [ancestor_of_some hx, hia]
    rw [show d + 1 + i = (d + i) + 1 by omega, ancestor_succ_left, Function.update_self,
      Option.bind_some, habove] at hloop
    exact hb _ hloop
  · rw [hdetach] at hsame
    exact h x k (hsame.trans hcycle)

end Detach

section Level

variable [DecidableEq α] {parent : α → Option α} {nodes : Finset α} {w : α → ℤ} {a : α}

/-- The weight of the nodes whose `k`-th ancestor is `p`. -/
def level (parent : α → Option α) (nodes : Finset α) (w : α → ℤ) (k : ℕ) (p : α) : ℤ :=
  ∑ x ∈ nodes, if ancestor parent k x = some p then w x else 0

theorem level_zero (hp : a ∈ nodes) : level parent nodes w 0 a = w a := by
  simp only [level, ancestor_zero, Option.some.injEq]
  rw [Finset.sum_ite_eq' nodes a w, if_pos hp]

/-- More weight at `a` reaches the ancestors of `a`. -/
theorem level_update (ha : a ∈ nodes) (d : ℤ) (k : ℕ) (p : α) :
    level parent nodes (Function.update w a (w a + d)) k p =
      level parent nodes w k p + if ancestor parent k a = some p then d else 0 := by
  have hpoint : ∀ x ∈ nodes,
      (if ancestor parent k x = some p then Function.update w a (w a + d) x else 0) =
        (if ancestor parent k x = some p then w x else 0) +
          if x = a then (if ancestor parent k a = some p then d else 0) else 0 := by
    intro x _
    by_cases hx : x = a
    · subst hx
      rw [Function.update_self, if_pos rfl]
      split <;> simp
    · rw [Function.update_of_ne hx, if_neg hx, add_zero]
  rw [level, Finset.sum_congr rfl hpoint, Finset.sum_add_distrib, Finset.sum_ite_eq' nodes a,
    if_pos ha]
  rfl

/-- What passes through `a` on its way to `p`: its levels, each as far below `a` as `p` is above. -/
theorem level_detach (h : Acyclic parent) (k : ℕ) (p : α) :
    level parent nodes w k p = level (detach parent a) nodes w k p +
      above parent k (fun d => level parent nodes w (k - 1 - d) a) a p := by
  -- the sum by the level below `a` instead of the distance above it
  have hreflect : above parent k (fun d => level parent nodes w (k - 1 - d) a) a p =
      ∑ i ∈ Finset.range k,
        if ancestor parent (k - i) a = some p then level parent nodes w i a else 0 := by
    rw [above, ← Finset.sum_range_reflect]
    refine Finset.sum_congr rfl fun i hi => ?_
    have hik := Finset.mem_range.1 hi
    rw [show k - 1 - i + 1 = k - i by omega, show k - 1 - (k - 1 - i) = i by omega]
  rw [hreflect]
  have hpoint : ∀ x ∈ nodes, (if ancestor parent k x = some p then w x else 0) =
      (if ancestor (detach parent a) k x = some p then w x else 0) +
        ∑ i ∈ Finset.range k, if ancestor parent (k - i) a = some p then
          (if ancestor parent i x = some a then w x else 0) else 0 := by
    intro x _
    rcases ancestor_detach parent a k x with ⟨⟨i, hi, hia⟩, hnone⟩ | ⟨hno, hsame⟩
    · -- `a` is met once, at level `i`
      have hk : ancestor parent k x = ancestor parent (k - i) a := by
        rw [← ancestor_of_some hia, Nat.add_sub_cancel' hi.le]
      have hothers : ∀ j ∈ Finset.range k, j ≠ i → (if ancestor parent (k - j) a = some p then
          (if ancestor parent j x = some a then w x else 0) else 0) = 0 := by
        intro j _ hj
        rw [if_neg fun hja => hj (h.level_unique hja hia), ite_self]
      rw [Finset.sum_eq_single_of_mem i (Finset.mem_range.2 hi) hothers, hnone, if_pos hia, hk]
      simp
    · have hzero : ∀ i ∈ Finset.range k, (if ancestor parent (k - i) a = some p then
          (if ancestor parent i x = some a then w x else 0) else 0) = 0 := by
        intro i hi
        rw [if_neg (hno i (Finset.mem_range.1 hi)), ite_self]
      rw [Finset.sum_eq_zero hzero, add_zero, hsame]
  have hswap : ∀ i, (∑ x ∈ nodes, if ancestor parent (k - i) a = some p then
      (if ancestor parent i x = some a then w x else 0) else 0) =
        if ancestor parent (k - i) a = some p then level parent nodes w i a else 0 := by
    intro i
    split
    · rfl
    · exact Finset.sum_const_zero
  rw [level, Finset.sum_congr rfl hpoint, Finset.sum_add_distrib, Finset.sum_comm,
    Finset.sum_congr rfl fun i _ => hswap i]
  rfl

/-- What is below `a` does not depend on its parent. -/
theorem level_detach_self (h : Acyclic parent) (k : ℕ) :
    level (detach parent a) nodes w k a = level parent nodes w k a := by
  have hzero : above parent k (fun d => level parent nodes w (k - 1 - d) a) a a = 0 := by
    refine Finset.sum_eq_zero fun d _ => ?_
    rw [if_neg (h a d)]
  rw [level_detach (a := a) h k a, hzero, add_zero]

/-- Nothing is below a node without children. -/
theorem level_of_no_child {p : α} (h : ∀ x, parent x ≠ some p) (k : ℕ) :
    level parent nodes w (k + 1) p = 0 := by
  refine Finset.sum_eq_zero fun x _ => ?_
  refine if_neg fun hp => ?_
  rw [ancestor_succ] at hp
  obtain ⟨y, -, hy⟩ := Option.bind_eq_some_iff.1 hp
  exact h y hy

/-- Weights outside the forest's ways do not matter: a new node without weight or children. -/
theorem level_insert (ha : a ∉ nodes) (hw : w a = 0) (k : ℕ) (p : α) :
    level parent (insert a nodes) w k p = level parent nodes w k p := by
  rw [level, Finset.sum_insert ha, hw, ite_self, zero_add]
  rfl

theorem level_mul (m : ℤ) (k : ℕ) (p : α) :
    level parent nodes (fun x => w x * m) k p = level parent nodes w k p * m := by
  rw [level, level, Finset.sum_mul]
  refine Finset.sum_congr rfl fun x _ => ?_
  rw [ite_mul, zero_mul]

end Level

end Calibrd.Lib.Forest
