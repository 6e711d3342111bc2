import Mathlib

/-!
# Hash trees

The root of a list of leaves: neighbours are combined level by level, and an odd last node is
promoted unchanged. When the combination is injective and makes no leaf, the root determines the
leaves, whatever their number (`treeRoot_injOn`).
-/

namespace Calibrd.Lib

variable {α : Type*} (node : α × α → α)

/-- One level up: neighbours are combined, an odd last node is promoted unchanged. -/
def pairUp : List α → List α
  | a :: b :: rest => node (a, b) :: pairUp rest
  | [last] => [last]
  | [] => []

theorem length_pairUp (l : List α) : (pairUp node l).length = (l.length + 1) / 2 := by
  fun_induction pairUp node l with
  | case1 a b rest ih =>
    simp only [List.length_cons, ih]
    omega
  | case2 => simp
  | case3 => simp

/-- The level above the nodes `f 0`, …, `f (n - 1)`, by index. -/
theorem pairUp_range (f : ℕ → α) (n : ℕ) :
    pairUp node ((List.range n).map f) = (List.range ((n + 1) / 2)).map fun j =>
      if 2 * j + 1 < n then node (f (2 * j), f (2 * j + 1)) else f (2 * j) := by
  induction n using Nat.twoStepInduction generalizing f with
  | zero => rfl
  | one => rfl
  | more n ih =>
    rw [show (n + 2 + 1) / 2 = (n + 1) / 2 + 1 by omega, List.range_succ_eq_map (n := (n + 1) / 2),
      List.range_succ_eq_map, List.range_succ_eq_map]
    simp only [List.map_cons, List.map_map, pairUp]
    refine congrArg₂ List.cons (if_pos (by omega)).symm ?_
    refine (ih fun j => f (j + 2)).trans (List.map_congr_left fun j _ => ?_)
    have hshift : 2 * (j + 1) + 1 < n + 2 ↔ 2 * j + 1 < n := by omega
    exact (if_congr hshift rfl rfl).symm

/-- The last node that is left, if there is a leaf at all. -/
def treeRoot : List α → Option α
  | [] => none
  | [root] => some root
  | a :: b :: rest => treeRoot (pairUp node (a :: b :: rest))
termination_by l => l.length
decreasing_by
  rw [length_pairUp]
  simp only [List.length_cons]
  omega

/-! ## The root determines the leaves -/

/-- `a` is the root of some tree over `leaves`. -/
inductive Spells (IsLeaf : α → Prop) : α → List α → Prop
  | leaf {a : α} : IsLeaf a → Spells IsLeaf a [a]
  | node {a b : α} {l l' : List α} : Spells IsLeaf a l → Spells IsLeaf b l' →
      Spells IsLeaf (node (a, b)) (l ++ l')

variable {node} {IsLeaf : α → Prop}

theorem Spells.unique (hnode : node.Injective) (hleaf : ∀ a p, IsLeaf a → a ≠ node p) {a : α}
    {l l' : List α} (h : Spells node IsLeaf a l) (h' : Spells node IsLeaf a l') : l = l' := by
  induction h generalizing l' with
  | leaf ha =>
    cases h' with
    | leaf => rfl
    | node => exact absurd rfl (hleaf _ _ ha)
  | node _ _ ih ih' =>
    generalize hb : node _ = b at h'
    cases h' with
    | leaf hb' => exact absurd hb.symm (hleaf _ _ hb')
    | node h1 h2 =>
      obtain ⟨rfl, rfl⟩ := Prod.mk.inj (hnode hb)
      rw [ih h1, ih' h2]

/-- A level spells the same leaves as the level below it. -/
theorem spells_pairUp {level : List α} {leaves : List (List α)}
    (h : List.Forall₂ (Spells node IsLeaf) level leaves) :
    ∃ leaves', List.Forall₂ (Spells node IsLeaf) (pairUp node level) leaves' ∧
      leaves'.flatten = leaves.flatten := by
  fun_induction pairUp node level generalizing leaves with
  | case1 a b rest ih =>
    obtain ⟨l, _, ha, hlevel, rfl⟩ := List.forall₂_cons_left_iff.1 h
    obtain ⟨l', _, hb, hbelow, rfl⟩ := List.forall₂_cons_left_iff.1 hlevel
    obtain ⟨leaves', hrest, heq⟩ := ih hbelow
    exact ⟨_, .cons (.node ha hb) hrest, by simp [heq]⟩
  | case2 | case3 => exact ⟨leaves, h, rfl⟩

theorem spells_treeRoot {level : List α} {leaves : List (List α)} {root : α}
    (h : List.Forall₂ (Spells node IsLeaf) level leaves) (hroot : treeRoot node level = some root) :
    Spells node IsLeaf root leaves.flatten := by
  fun_induction treeRoot node level generalizing leaves with
  | case1 => cases hroot
  | case2 a =>
    cases hroot
    obtain - | ⟨ha, hnil⟩ := h
    cases hnil
    simpa using ha
  | case3 a b rest ih =>
    obtain ⟨leaves', hlevel, heq⟩ := spells_pairUp h
    exact heq ▸ ih hlevel hroot

theorem treeRoot_pairUp (level : List α) : treeRoot node (pairUp node level) = treeRoot node level := by
  match level with
  | [] | [_] => rfl
  | a :: b :: rest => rw [← treeRoot]

theorem treeRoot_eq_none {level : List α} : treeRoot node level = none ↔ level = [] := by
  fun_induction treeRoot node level with
  | case1 => simp
  | case2 => simp
  | case3 a b rest ih =>
    rw [ih]
    simp [pairUp]

/-- Lists of leaves with one root are equal, also when their lengths were not known to be. -/
theorem treeRoot_injOn (hnode : node.Injective) (hleaf : ∀ a p, IsLeaf a → a ≠ node p)
    {l l' : List α} (hl : ∀ a ∈ l, IsLeaf a) (hl' : ∀ a ∈ l', IsLeaf a)
    (h : treeRoot node l = treeRoot node l') : l = l' := by
  have hspells {l : List α} {root : α} (hl : ∀ a ∈ l, IsLeaf a) (h : treeRoot node l = some root) :
      Spells node IsLeaf root l := by
    have hlevel : List.Forall₂ (Spells node IsLeaf) l (l.map fun a => [a]) :=
      List.forall₂_map_right_iff.2 (List.forall₂_same.2 fun a ha => .leaf (hl a ha))
    simpa [← List.flatMap_def] using spells_treeRoot hlevel h
  cases hroot : treeRoot node l with
  | none => rw [treeRoot_eq_none.1 hroot, treeRoot_eq_none.1 (h.symm.trans hroot)]
  | some root => exact (hspells hl hroot).unique hnode hleaf (hspells hl' (h.symm.trans hroot))

end Calibrd.Lib
