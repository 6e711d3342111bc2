import Calibrd.Chain.ForkDatabase
import Calibrd.Lib.Check

/-!
# Branches of the block tree

The blocks below a block, by their ids. An id belongs to one header, so the block of a given number
below a block is unique.

The loops of `fetch_branch_from` follow the links between items. A `Trail` is such a walk with the
pointers it passed; its length is the difference of the two numbers, so the loops end, and they only
throw where the walk leaves the database. Both branches end at the same height, so a block that is on
both is above both ends, and the ends are then the same block (`Ancestor.unique`): this happens only
when one of the two given blocks is below the other.
-/

namespace Calibrd.Chain

open Calibrd.Lib

variable {B : BlockSpec}

/-- The id `y` is that of the block `x` itself or of a block below it. -/
inductive Ancestor (B : BlockSpec) (y : B.Id) : B.Id → Prop where
  | refl : Ancestor B y y
  | block (b : B.Block) : Ancestor B y (B.previous b) → Ancestor B y (B.id b)

namespace Ancestor

variable {x y z : B.Id}

theorem previous_id (b : B.Block) : Ancestor B (B.previous b) (B.id b) := .block b .refl

theorem num_le (h : Ancestor B y x) : B.num_from_id y ≤ B.num_from_id x := by
  induction h with
  | refl => exact le_rfl
  | block b _ ih =>
    rw [B.num_id]
    exact ih.trans (Nat.le_succ _)

theorem trans (h1 : Ancestor B z y) (h2 : Ancestor B y x) : Ancestor B z x := by
  induction h2 with
  | refl => exact h1
  | block b _ ih => exact .block b ih

/-- What is below a block and not the block itself is below its previous block. -/
theorem previous {b : B.Block} (h : Ancestor B y (B.id b))
    (hnum : B.num_from_id y ≤ B.num_from_id (B.previous b)) : Ancestor B y (B.previous b) := by
  generalize hx : B.id b = x at h
  cases h with
  | refl =>
    subst hx
    rw [B.num_id] at hnum
    omega
  | block b' h' =>
    rw [B.previous_of_id b b' hx]
    exact h'

/-- Of two blocks below a block, the one with the smaller number is below the other. -/
theorem of_le (h : Ancestor B y x) (hz : Ancestor B z x)
    (hnum : B.num_from_id y ≤ B.num_from_id z) : Ancestor B y z := by
  induction hz with
  | refl => exact h
  | block b hb ih => exact ih (h.previous (hnum.trans hb.num_le))

theorem eq_of_num_eq (h : Ancestor B y x) (hnum : B.num_from_id y = B.num_from_id x) : y = x := by
  cases h with
  | refl => rfl
  | block b hb =>
    have hle := hb.num_le
    rw [B.num_id] at hnum
    omega

/-- There is one block of each number below a block. -/
theorem unique (h : Ancestor B y x) (hz : Ancestor B z x)
    (hnum : B.num_from_id y = B.num_from_id z) : y = z :=
  (h.of_le hz hnum.le).eq_of_num_eq hnum

/-- Between two blocks of a branch there is a block of every number. -/
theorem between (h : Ancestor B y x) {k : ℕ} (hy : B.num_from_id y ≤ k)
    (hx : k ≤ B.num_from_id x) : ∃ z, B.num_from_id z = k ∧ Ancestor B z x := by
  induction h with
  | refl => exact ⟨y, le_antisymm hy hx, .refl⟩
  | block b hb ih =>
    by_cases hk : k ≤ B.num_from_id (B.previous b)
    · obtain ⟨z, hz, hzb⟩ := ih hk
      exact ⟨z, hz, .block b hzb⟩
    · refine ⟨B.id b, ?_, .refl⟩
      rw [B.num_id] at hx ⊢
      omega

end Ancestor

theorem ForkItem.num_eq (item : ForkItem B) : item.num = B.num_from_id item.id :=
  (B.num_id item.data).symm

theorem ForkItem.num_pos (item : ForkItem B) : 0 < item.num := Nat.succ_pos _

namespace ForkDatabase

variable {f : ForkDatabase B} {Ok : B.Block → Prop}

theorem lock_spec {held : List Ptr} {item prev : ForkItem B} {p : Ptr}
    (h : f.lock held item = some (p, prev)) :
    item.prev = some p ∧ f.alive held p = true ∧ f.item? p = some prev := by
  unfold lock at h
  cases hprev : item.prev with
  | none => simp [hprev] at h
  | some q =>
    by_cases halive : f.alive held q = true
    · simp only [hprev, Option.bind_eq_bind, Option.bind_some, halive, if_true] at h
      cases hq : f.item? q with
      | none => simp [hq] at h
      | some item' =>
        simp only [hq, Option.bind_some, Option.pure_def, Option.some.injEq, Prod.mk.injEq] at h
        obtain ⟨rfl, rfl⟩ := h
        exact ⟨rfl, halive, hq⟩
    · simp [hprev, halive] at h

theorem HeapOk.lock_id (h : HeapOk Ok f.heap) {held : List Ptr} {item prev : ForkItem B} {p q : Ptr}
    (hitem : f.item? q = some item) (hlock : f.lock held item = some (p, prev)) :
    prev.id = item.previous_id := by
  obtain ⟨hp, -, hprev⟩ := lock_spec hlock
  obtain ⟨prev', hprev', hid⟩ := h.links item (List.mem_of_getElem? hitem) p hp
  obtain rfl : prev' = prev := Option.some.inj (hprev'.symm.trans hprev)
  exact hid

theorem ancestor_previous (item : ForkItem B) : Ancestor B item.previous_id item.id :=
  .previous_id item.data

variable {x y z : Ptr × ForkItem B}

/-- A walk along the links from `x` to `y`, with the pointers it passes before `y`. -/
inductive Trail (f : ForkDatabase B) : Ptr × ForkItem B → List Ptr → Ptr × ForkItem B → Prop
  | nil (x : Ptr × ForkItem B) : Trail f x [] x
  | cons {x x' y : Ptr × ForkItem B} {l : List Ptr} (hlock : f.lock [] x.2 = some x')
      (hrest : Trail f x' l y) : Trail f x (x.1 :: l) y

/-- The item `z` is `x` or linked below it. -/
def Below (f : ForkDatabase B) (z x : Ptr × ForkItem B) : Prop := ∃ l, f.Trail x l z

/-- Below `x` there is an item whose predecessor is not in the database. -/
def Leaves (f : ForkDatabase B) (x : Ptr × ForkItem B) : Prop :=
  ∃ y, f.Below y x ∧ f.lock [] y.2 = none

/-- The item of the index with this id. -/
def find (f : ForkDatabase B) (id : B.Id) : Option (Ptr × ForkItem B) :=
  (f.fetch_block id).bind f.entry?

/-- The blocks of some items. -/
def blocksOf (f : ForkDatabase B) (l : List Ptr) : List B.Block :=
  l.filterMap fun p => (f.item? p).map ForkItem.data

/-! ## Trails -/

namespace Trail

variable {l l' : List Ptr}

theorem append (h : f.Trail x l y) (h' : f.Trail y l' z) : f.Trail x (l ++ l') z := by
  induction h with
  | nil => exact h'
  | cons hlock _ ih => exact .cons hlock (ih h')

theorem item (h : f.Trail x l y) (hx : f.item? x.1 = some x.2) : f.item? y.1 = some y.2 := by
  induction h with
  | nil => exact hx
  | cons hlock _ ih => exact ih (lock_spec hlock).2.2

theorem blocksOf_cons {p : Ptr} {i : ForkItem B} (hp : f.item? p = some i) (l : List Ptr) :
    f.blocksOf (p :: l) = i.data :: f.blocksOf l := by
  rw [blocksOf, List.filterMap_cons, hp]
  rfl

variable (hok : HeapOk Ok f.heap) (hx : f.item? x.1 = some x.2)

include hok hx

theorem num_of_lock (hlock : f.lock [] x.2 = some y) : y.2.num + 1 = x.2.num := by
  rw [ForkItem.num_eq, hok.lock_id hx hlock]
  rfl

theorem num (h : f.Trail x l y) : y.2.num + l.length = x.2.num := by
  induction h with
  | nil => rfl
  | cons hlock _ ih =>
    have hstep := num_of_lock hok hx hlock
    have hrest := ih (lock_spec hlock).2.2
    rw [List.length_cons]
    omega

theorem eq_of_num (h : f.Trail x l z) (hnum : x.2.num ≤ z.2.num) : x = z := by
  have hlength := h.num hok hx
  cases h with
  | nil => rfl
  | cons =>
    rw [List.length_cons] at hlength
    omega

/-- Of two walks from an item, the one that ends higher leads on to the end of the other. -/
theorem leads_on (h : f.Trail x l y) (hz : f.Below z x) (hnum : z.2.num ≤ y.2.num) :
    f.Below z y := by
  induction h with
  | nil => exact hz
  | cons hlock hrest ih =>
    have hitem := (lock_spec hlock).2.2
    obtain ⟨l', hz⟩ := hz
    cases hz with
    | nil =>
      have hstep := num_of_lock hok hx hlock
      have hlow := hrest.num hok hitem
      omega
    | cons hlock' hrest' =>
      cases hlock.symm.trans hlock'
      exact ih hitem ⟨_, hrest'⟩ hnum

/-- The walk goes on while it is above an item linked below its start. -/
theorem links (h : f.Trail x l y) (hz : f.Below z x) (hlt : z.2.num < y.2.num) :
    f.lock [] y.2 ≠ none := by
  obtain ⟨l', hy⟩ := h.leads_on hok hx hz hlt.le
  cases hy with
  | nil => exact absurd hlt (lt_irrefl _)
  | cons hlock =>
    rw [hlock]
    exact Option.some_ne_none _

/-- The blocks of a trail with its end: from parent to parent. -/
theorem blocks (h : f.Trail x l y) :
    (f.blocksOf (l ++ [y.1])).head? = some x.2.data ∧
      (f.blocksOf (l ++ [y.1])).getLast? = some y.2.data ∧
      (f.blocksOf (l ++ [y.1])).IsChain fun b c => B.previous b = B.id c := by
  induction h with
  | nil x =>
    rw [List.nil_append, blocksOf_cons hx]
    exact ⟨rfl, rfl, List.IsChain.singleton _⟩
  | cons hlock hrest ih =>
    obtain ⟨hhead, hlast, hchain⟩ := ih (lock_spec hlock).2.2
    have hparent := hok.lock_id hx hlock
    rw [List.cons_append, blocksOf_cons hx]
    refine ⟨rfl, ?_, ?_⟩
    · rw [List.getLast?_cons, hlast]
      rfl
    · refine List.isChain_cons.2 ⟨fun c hc => ?_, hchain⟩
      rw [hhead] at hc
      cases hc
      exact hparent.symm

/-- A block of a trail is between its ends. -/
theorem between (h : f.Trail x l y) {b : B.Block} (hb : b ∈ f.blocksOf (l ++ [y.1])) :
    Ancestor B y.2.id (B.id b) ∧ Ancestor B (B.id b) x.2.id := by
  induction h generalizing b with
  | nil x =>
    rw [List.nil_append, blocksOf_cons hx] at hb
    cases List.mem_singleton.1 hb
    exact ⟨.refl, .refl⟩
  | @cons x x' y l hlock hrest ih =>
    have hparent := hok.lock_id hx hlock
    have hitem := (lock_spec hlock).2.2
    rw [List.cons_append, blocksOf_cons hx] at hb
    rcases List.mem_cons.1 hb with rfl | hb
    · refine ⟨?_, .refl⟩
      obtain ⟨hhead, -, -⟩ := hrest.blocks hok hitem
      have hfirst := (ih hitem (List.mem_of_mem_head? hhead)).1
      have hid : Ancestor B y.2.id x.2.previous_id := by
        rw [← hparent]
        exact hfirst
      exact .block _ hid
    · obtain ⟨hlow, hhigh⟩ := ih hitem hb
      have hid : Ancestor B (B.id b) x.2.previous_id := by
        rw [← hparent]
        exact hhigh
      exact ⟨hlow, .block _ hid⟩

theorem ancestor (h : f.Trail x l y) : Ancestor B y.2.id x.2.id := by
  obtain ⟨hhead, -, -⟩ := h.blocks hok hx
  exact (h.between hok hx (List.mem_of_mem_head? hhead)).1

/-- The items of a trail are below its start, which comes first. -/
theorem items (h : f.Trail x l y) :
    (l ++ [y.1]).head? = some x.1 ∧
      ∀ p ∈ l ++ [y.1], ∃ i, f.item? p = some i ∧ Ancestor B i.id x.2.id := by
  induction h with
  | nil x => exact ⟨rfl, List.forall_mem_singleton.2 ⟨x.2, hx, .refl⟩⟩
  | @cons x x' y l hlock hrest ih =>
    refine ⟨rfl, fun p hp => ?_⟩
    rcases List.mem_cons.1 hp with rfl | hp
    · exact ⟨x.2, hx, .refl⟩
    · obtain ⟨i, hi, hanc⟩ := (ih (lock_spec hlock).2.2).2 p hp
      rw [hok.lock_id hx hlock] at hanc
      exact ⟨i, hi, hanc.trans (ancestor_previous x.2)⟩

end Trail

/-! ## The first two loops -/

/-- What the first two loops come to: the item of the given height, or one above it whose predecessor
is not in the database. -/
inductive WalkDown (f : ForkDatabase B) (num : ℕ) (x : Ptr × ForkItem B) :
    Except ForkError (List Ptr × (Ptr × ForkItem B)) → Prop
  | ends {l : List Ptr} {y : Ptr × ForkItem B} (htrail : f.Trail x l y)
      (hnum : y.2.num = min x.2.num num) : f.WalkDown num x (.ok (l, y))
  | leaves {l : List Ptr} {y : Ptr × ForkItem B} {e : ForkError} (htrail : f.Trail x l y)
      (hlock : f.lock [] y.2 = none) (hnum : num < y.2.num) : f.WalkDown num x (.error e)

/-- Two branches of the same length to items with the same previous block. -/
structure Meet (f : ForkDatabase B) (x y : Ptr × ForkItem B) (l r : List Ptr)
    (x' y' : Ptr × ForkItem B) : Prop where
  first : f.Trail x l x'
  second : f.Trail y r y'
  length : l.length = r.length
  previous : x'.2.previous_id = y'.2.previous_id
  /-- The loop stops before the branches come together. -/
  apart : l ≠ [] → x'.2.id ≠ y'.2.id

/-- What the third loop comes to. -/
inductive WalkBoth (f : ForkDatabase B) (x y : Ptr × ForkItem B) :
    Except ForkError (List Ptr × List Ptr) → Prop
  | meets {l r : List Ptr} {x' y' : Ptr × ForkItem B} (h : f.Meet x y l r x' y') :
      f.WalkBoth x y (.ok (l ++ [x'.1], r ++ [y'.1]))
  | leaves {l r : List Ptr} {x' y' : Ptr × ForkItem B} {e : ForkError} (hx' : f.Trail x l x')
      (hy' : f.Trail y r y') (hlength : l.length = r.length) (hdiffer : x'.2.previous_id ≠ y'.2.previous_id)
      (hlock : f.lock [] x'.2 = none ∨ f.lock [] y'.2 = none) : f.WalkBoth x y (.error e)

section Walks

variable (hok : HeapOk Ok f.heap) (hx : f.item? x.1 = some x.2)

include hok hx

theorem walkDown_outcome (num steps : ℕ) (hsteps : x.2.num ≤ steps) :
    f.WalkDown num x (f.walkDown num steps x) := by
  induction steps generalizing x with
  | zero => exact absurd hsteps (Nat.not_le.2 x.2.num_pos)
  | succ steps ih =>
    obtain ⟨p, item⟩ := x
    simp only [walkDown]
    split
    · rename_i hgt
      cases hlock : f.lock [] item with
      | none => exact .leaves (.nil _) hlock hgt
      | some prev =>
        have hprev := Trail.num_of_lock hok (x := (p, item)) hx hlock
        dsimp only at hprev hsteps ⊢
        have hrest := ih (lock_spec hlock).2.2 (by omega)
        generalize f.walkDown num steps prev = result at hrest ⊢
        cases hrest with
        | ends htrail hnum =>
          refine .ends (.cons (x := (p, item)) hlock htrail) ?_
          dsimp only
          omega
        | leaves htrail hl hnum => exact .leaves (.cons (x := (p, item)) hlock htrail) hl hnum
    · rename_i hle
      exact .ends (.nil _) (min_eq_left (Nat.le_of_not_lt hle)).symm

/-! ## The third loop -/

theorem walkBoth_outcome (steps : ℕ) (hy : f.item? y.1 = some y.2) (hsteps : x.2.num ≤ steps) :
    f.WalkBoth x y (f.walkBoth steps x y) := by
  induction steps generalizing x y with
  | zero => exact absurd hsteps (Nat.not_le.2 x.2.num_pos)
  | succ steps ih =>
    obtain ⟨p, first⟩ := x
    obtain ⟨q, second⟩ := y
    simp only [walkBoth]
    split
    · rename_i hsame
      exact .meets (l := []) (r := []) ⟨.nil _, .nil _, rfl, hsame, fun h => absurd rfl h⟩
    · rename_i hdiffer
      cases hl : f.lock [] first with
      | none => exact .leaves (.nil _) (.nil _) rfl hdiffer (.inl hl)
      | some first' =>
        cases hr : f.lock [] second with
        | none => exact .leaves (.nil _) (.nil _) rfl hdiffer (.inr hr)
        | some second' =>
          have hprev := Trail.num_of_lock hok (x := (p, first)) hx hl
          dsimp only at hprev hsteps ⊢
          have hrest := ih (lock_spec hl).2.2 (lock_spec hr).2.2 (by omega)
          generalize f.walkBoth steps first' second' = result at hrest ⊢
          cases hrest with
          | @meets l0 r0 _ _ hmeet =>
            refine .meets (l := p :: l0) (r := q :: r0) ⟨.cons (x := (p, first)) hl hmeet.first,
              .cons (x := (q, second)) hr hmeet.second, congrArg (· + 1) hmeet.length,
              hmeet.previous, fun _ => ?_⟩
            by_cases hl0 : l0 = []
            · -- the ends are the predecessors, which differ
              have hr0 : r0 = [] := by
                rw [← List.length_eq_zero_iff, ← hmeet.length, hl0]
                rfl
              subst hl0 hr0
              cases hmeet.first
              cases hmeet.second
              rw [hok.lock_id (q := p) hx hl, hok.lock_id (q := q) hy hr]
              exact hdiffer
            · exact hmeet.apart hl0
          | leaves hx' hy' hlength hd hlock =>
            exact .leaves (.cons (x := (p, first)) hl hx') (.cons (x := (q, second)) hr hy')
              (congrArg (· + 1) hlength) hd hlock

end Walks

/-! ## The branches -/

/-- The list `l` is one block, which ends `r` as well and is the only one on both. -/
structure EndsIn (first : B.Id) (l r : List B.Block) : Prop where
  single : l.map B.id = [first]
  last : r.getLast?.map B.id = some first
  shared : ∀ b ∈ l, ∀ c ∈ r, B.id b = B.id c → B.id b = first

/-- Two lists of blocks, each from parent to parent and both to the same previous block. They have no
block in common, unless they start with blocks of which one is the other one or below it. -/
structure Branches (first second : B.Id) (l r : List B.Block) : Prop where
  first_start : l.head?.map B.id = some first
  second_start : r.head?.map B.id = some second
  first_parents : l.IsChain fun b c => B.previous b = B.id c
  second_parents : r.IsChain fun b c => B.previous b = B.id c
  ends : ∃ b c, l.getLast? = some b ∧ r.getLast? = some c ∧ B.previous b = B.previous c
  unrelated : ¬Ancestor B first second → ¬Ancestor B second first →
    ∀ b ∈ l, ∀ c ∈ r, B.id b ≠ B.id c
  first_below : Ancestor B first second → EndsIn first l r
  second_below : Ancestor B second first → EndsIn second r l

/-- Two walks down to items of one height with the same previous block. They come to the same block
only if one of them has not moved. -/
structure Met (f : ForkDatabase B) (x y : Ptr × ForkItem B) (l r : List Ptr)
    (x' y' : Ptr × ForkItem B) : Prop where
  first : f.Trail x l x'
  second : f.Trail y r y'
  level : x'.2.num = y'.2.num
  previous : x'.2.previous_id = y'.2.previous_id
  same : x'.2.id = y'.2.id → l = [] ∨ r = []

namespace Met

variable {x' y' : Ptr × ForkItem B} {l r : List Ptr}

theorem symm (h : f.Met x y l r x' y') : f.Met y x r l y' x' :=
  ⟨h.second, h.first, h.level.symm, h.previous.symm, fun hid => (h.same hid.symm).symm⟩

theorem of_meet (hok : HeapOk Ok f.heap) (hx : f.item? x.1 = some x.2) (hy : f.item? y.1 = some y.2)
    {l1 r1 l0 r0 : List Ptr} {x1 y1 : Ptr × ForkItem B} (hx1 : f.Trail x l1 x1)
    (hy1 : f.Trail y r1 y1) (hnum : x1.2.num = min x.2.num y.2.num) (hlevel : x1.2.num = y1.2.num)
    (h : f.Meet x1 y1 l0 r0 x' y') : f.Met x y (l1 ++ l0) (r1 ++ r0) x' y' := by
  have hlow1 := h.first.num hok (hx1.item hx)
  have hlow2 := h.second.num hok (hy1.item hy)
  have hlength := h.length
  refine ⟨hx1.append h.first, hy1.append h.second, by omega, h.previous, fun hid => ?_⟩
  have hl0 : l0 = [] := by
    by_contra hne
    exact h.apart hne hid
  have hr0 : r0 = [] := by
    rw [← List.length_eq_zero_iff, ← hlength, hl0]
    rfl
  rw [hl0, hr0, List.append_nil, List.append_nil]
  -- the lower of the two items has not moved
  have hlen1 := hx1.num hok hx
  have hlen2 := hy1.num hok hy
  rcases le_total x.2.num y.2.num with hle | hle
  · exact .inl (List.length_eq_zero_iff.1 (by omega))
  · exact .inr (List.length_eq_zero_iff.1 (by omega))

section

variable (hok : HeapOk Ok f.heap) (hx : f.item? x.1 = some x.2) (hy : f.item? y.1 = some y.2)
include hok hx hy

variable (h : f.Met x y l r x' y')

include h

/-- A block on both walks is above both ends, so these are the same block. -/
theorem same_end {b c : B.Block} (hb : b ∈ f.blocksOf (l ++ [x'.1]))
    (hc : c ∈ f.blocksOf (r ++ [y'.1])) (hsame : B.id b = B.id c) : x'.2.id = y'.2.id := by
  have hx' := (h.first.between hok hx hb).1
  have hy' := (h.second.between hok hy hc).1
  rw [hsame] at hx'
  refine hx'.unique hy' ?_
  rw [← ForkItem.num_eq, ← ForkItem.num_eq]
  exact h.level

/-- If `x` is on the branch of `y`, its walk has not moved, and the other one ends there. -/
theorem of_ancestor (hanc : Ancestor B x.2.id y.2.id) :
    l = [] ∧ y'.2.id = x.2.id := by
  have hlow1 := h.first.num hok hx
  have hlow2 := h.second.num hok hy
  have hlevel := h.level
  have hle := hanc.num_le
  rw [← ForkItem.num_eq, ← ForkItem.num_eq] at hle
  have hid : x'.2.id = y'.2.id := by
    refine ((h.first.ancestor hok hx).trans hanc).unique (h.second.ancestor hok hy) ?_
    rw [← ForkItem.num_eq, ← ForkItem.num_eq]
    exact hlevel
  have hl : l = [] := by
    rcases h.same hid with hl | hr
    · exact hl
    · rw [hr, List.length_nil] at hlow2
      exact List.length_eq_zero_iff.1 (by omega)
  refine ⟨hl, ?_⟩
  have hfirst := h.first
  rw [hl] at hfirst
  cases hfirst
  exact hid.symm

theorem endsIn (hanc : Ancestor B x.2.id y.2.id) :
    EndsIn x.2.id (f.blocksOf (l ++ [x'.1])) (f.blocksOf (r ++ [y'.1])) := by
  obtain ⟨rfl, hy'⟩ := h.of_ancestor hok hx hy hanc
  obtain ⟨-, hlast, -⟩ := h.second.blocks hok hy
  have hsingle : f.blocksOf ([] ++ [x'.1]) = [x.2.data] := by
    cases h.first
    exact Trail.blocksOf_cons hx []
  refine ⟨?_, ?_, fun b hb _ _ _ => ?_⟩
  · rw [hsingle]
    rfl
  · rw [hlast]
    exact congrArg some hy'
  · rw [hsingle] at hb
    cases List.mem_singleton.1 hb
    rfl

theorem branches :
    Branches x.2.id y.2.id (f.blocksOf (l ++ [x'.1])) (f.blocksOf (r ++ [y'.1])) := by
  obtain ⟨hhead1, hlast1, hchain1⟩ := h.first.blocks hok hx
  obtain ⟨hhead2, hlast2, hchain2⟩ := h.second.blocks hok hy
  constructor
  case first_start => rw [hhead1]; rfl
  case second_start => rw [hhead2]; rfl
  case first_parents => exact hchain1
  case second_parents => exact hchain2
  case ends => exact ⟨_, _, hlast1, hlast2, h.previous⟩
  case unrelated =>
    intro hfirst hsecond b hb c hc hsame
    have hid := h.same_end hok hx hy hb hc hsame
    rcases h.same hid with rfl | rfl
    · cases h.first
      exact hfirst (hid ▸ h.second.ancestor hok hy)
    · cases h.second
      exact hsecond (hid ▸ h.first.ancestor hok hx)
  case first_below => exact h.endsIn hok hx hy
  case second_below => exact h.symm.endsIn hok hy hx

end

end Met

theorem bind_entry_spec {o : Option Ptr} {x : Ptr × ForkItem B} (h : o.bind f.entry? = some x) :
    o = some x.1 ∧ f.item? x.1 = some x.2 := by
  cases o with
  | none => cases h
  | some p =>
    simp only [Option.bind_some, entry?, Option.map_eq_some_iff] at h
    obtain ⟨item, hitem, rfl⟩ := h
    exact ⟨rfl, hitem⟩

theorem find_spec {id : B.Id} (h : f.find id = some x) :
    f.fetch_block id = some x.1 ∧ f.item? x.1 = some x.2 ∧ x.2.id = id := by
  obtain ⟨hfetch, hitem⟩ := bind_entry_spec h
  obtain ⟨-, item, hitem', hid⟩ := fetch_block_spec hfetch
  rw [hitem] at hitem'
  cases hitem'
  exact ⟨hfetch, hitem, hid⟩

/-- The three loops of `fetch_branch_from`: they meet, or one of the walks leaves the database, and then
no item is linked below both blocks. -/
inductive Fetched (f : ForkDatabase B) (x y : Ptr × ForkItem B) :
    Except ForkError (List Ptr × List Ptr) → Prop
  | met {l r : List Ptr} {x' y' : Ptr × ForkItem B} (h : f.Met x y l r x' y') :
      f.Fetched x y (.ok (l ++ [x'.1], r ++ [y'.1]))
  | leaves {e : ForkError} (hleaves : f.Leaves x ∨ f.Leaves y)
      (hshared : ∀ z, f.Below z x → ¬f.Below z y) : f.Fetched x y (.error e)

section Fetch

variable {first second : B.Id} {e : ForkError}

variable (hok : HeapOk Ok f.heap)

include hok

theorem fetch_branch_from_outcome (hx : f.find first = some x) (hy : f.find second = some y) :
    f.Fetched x y (f.fetch_branch_from first second) := by
  obtain ⟨-, hxi, -⟩ := find_spec hx
  obtain ⟨-, hyi, -⟩ := find_spec hy
  unfold find at hx hy
  simp only [fetch_branch_from, hx, hy]
  have hdown1 := walkDown_outcome hok hxi y.2.num (x.2.num + y.2.num + 1) (by omega)
  generalize f.walkDown y.2.num (x.2.num + y.2.num + 1) x = down1 at hdown1 ⊢
  cases hdown1 with
  | leaves ht hlock hnum =>
    refine .leaves (.inl ⟨_, ⟨_, ht⟩, hlock⟩) fun z hzx ⟨l, hzy⟩ => ht.links hok hxi hzx ?_ hlock
    have hz := hzy.num hok hyi
    omega
  | @ends l1 x' ht1 hn1 =>
  have hdown2 := walkDown_outcome hok hyi x'.2.num (x.2.num + y.2.num + 1) (by omega)
  dsimp only
  generalize f.walkDown x'.2.num (x.2.num + y.2.num + 1) y = down2 at hdown2 ⊢
  cases hdown2 with
  | leaves ht hlock hnum =>
    refine .leaves (.inr ⟨_, ⟨_, ht⟩, hlock⟩) fun z ⟨l, hzx⟩ hzy => ht.links hok hyi hzy ?_ hlock
    have hz := hzx.num hok hxi
    have hlow := ht.num hok hyi
    omega
  | @ends r1 y' ht2 hn2 =>
  have hboth := walkBoth_outcome hok (ht1.item hxi) (x.2.num + y.2.num + 1) (ht2.item hyi) (by omega)
  dsimp only
  generalize f.walkBoth (x.2.num + y.2.num + 1) x' y' = both at hboth ⊢
  cases hboth with
  | meets hmeet =>
    dsimp only
    rw [← List.append_assoc, ← List.append_assoc]
    exact .met (.of_meet hok hxi hyi ht1 ht2 hn1 (by omega) hmeet)
  | @leaves l r x'' y'' _ hx'' hy'' hlength hdiffer hlock =>
    have htx := ht1.append hx''
    have hty := ht2.append hy''
    have hlow1 := hx''.num hok (ht1.item hxi)
    have hlow2 := hy''.num hok (ht2.item hyi)
    refine .leaves (hlock.imp (fun h => ⟨_, ⟨_, htx⟩, h⟩) fun h => ⟨_, ⟨_, hty⟩, h⟩)
      fun z hzx hzy => ?_
    by_cases hlt : z.2.num < x''.2.num
    · rcases hlock with h | h
      · exact htx.links hok hxi hzx hlt h
      · exact hty.links hok hyi hzy (by omega) h
    · -- below an item linked below both blocks, the walks are at the same item
      obtain ⟨lx, hzx⟩ := hzx
      obtain ⟨ly, hzy⟩ := hzy
      obtain ⟨_, hx''⟩ := hzx.leads_on hok hxi ⟨_, htx⟩ (by omega)
      obtain ⟨_, hy''⟩ := hzy.leads_on hok hyi ⟨_, hty⟩ (by omega)
      obtain ⟨_, hxy⟩ := hx''.leads_on hok (hzx.item hxi) ⟨_, hy''⟩ (by omega)
      exact hdiffer (congrArg (fun w => w.2.previous_id)
        (hxy.eq_of_num hok (htx.item hxi) (by omega)))

/-- What is returned are the walks of the loops. -/
theorem fetch_branch_from_met {l r : List Ptr} (h : f.fetch_branch_from first second = .ok (l, r)) :
    ∃ x y l' r' x' y', f.find first = some x ∧ f.find second = some y ∧ f.Met x y l' r' x' y' ∧
      l = l' ++ [x'.1] ∧ r = r' ++ [y'.1] := by
  cases hx : f.find first with
  | none =>
    unfold find at hx
    simp [fetch_branch_from, hx] at h
  | some x =>
  cases hy : f.find second with
  | none =>
    unfold find at hx hy
    simp [fetch_branch_from, hx, hy] at h
  | some y =>
  have hfetched := fetch_branch_from_outcome hok hx hy
  rw [h] at hfetched
  cases hfetched with
  | met hmet => exact ⟨x, y, _, _, _, _, rfl, rfl, hmet, rfl, rfl⟩

theorem fetch_branch_from_branches {l r : List Ptr}
    (h : f.fetch_branch_from first second = .ok (l, r)) :
    Branches first second (f.blocksOf l) (f.blocksOf r) := by
  obtain ⟨x, y, l', r', x', y', hx, hy, hmet, rfl, rfl⟩ := fetch_branch_from_met hok h
  obtain ⟨-, hxi, rfl⟩ := find_spec hx
  obtain ⟨-, hyi, rfl⟩ := find_spec hy
  exact hmet.branches hok hxi hyi

/-- The second branch ends with an item whose previous block is below the first id. -/
theorem fetch_branch_from_spec {l r : List Ptr}
    (hfetch : f.fetch_branch_from first second = .ok (l, r)) :
    (∃ q last, r.getLast? = some q ∧ f.item? q = some last ∧ Ancestor B last.previous_id first) ∧
      ∃ p, f.fetch_block second = some p := by
  obtain ⟨x, y, l', r', x', y', hx, hy, hmet, -, rfl⟩ := fetch_branch_from_met hok hfetch
  obtain ⟨-, hxi, rfl⟩ := find_spec hx
  obtain ⟨hfy, hyi, -⟩ := find_spec hy
  refine ⟨⟨y'.1, y'.2, List.getLast?_concat, hmet.second.item hyi, ?_⟩, y.1, hfy⟩
  rw [← hmet.previous]
  exact (ancestor_previous x'.2).trans (hmet.first.ancestor hok hxi)

/-- The first branch consists of blocks below the first id, and starts with its item. -/
theorem fetch_branch_from_first {l r : List Ptr}
    (hfetch : f.fetch_branch_from first second = .ok (l, r)) :
    (∀ p ∈ l, ∃ item, f.item? p = some item ∧ Ancestor B item.id first) ∧
      ∃ p item, l.head? = some p ∧ f.item? p = some item ∧ item.id = first := by
  obtain ⟨x, y, l', r', x', y', hx, -, hmet, rfl, -⟩ := fetch_branch_from_met hok hfetch
  obtain ⟨-, hxi, rfl⟩ := find_spec hx
  obtain ⟨hhead, hitems⟩ := hmet.first.items hok hxi
  exact ⟨hitems, x.1, x.2, hhead, hxi, rfl⟩

/-- The loops do not go below an item that is linked below both blocks. -/
theorem fetch_branch_from_ok (hx : f.find first = some x)
    (hy : f.find second = some y) (hxz : f.Below z x) (hyz : f.Below z y) :
    ∃ lr, f.fetch_branch_from first second = .ok lr := by
  have hfetched := fetch_branch_from_outcome hok hx hy
  generalize f.fetch_branch_from first second = result at hfetched ⊢
  cases hfetched with
  | met => exact ⟨_, rfl⟩
  | leaves _ hshared => exact absurd hyz (hshared z hxz)

/-- It throws only for an id that is not known, or where a walk leaves the database. -/
theorem fetch_branch_from_error (h : f.fetch_branch_from first second = .error e) :
    f.find first = none ∨ f.find second = none ∨
      ∃ x, (f.find first = some x ∨ f.find second = some x) ∧ f.Leaves x := by
  cases hx : f.find first with
  | none => exact .inl rfl
  | some x =>
  cases hy : f.find second with
  | none => exact .inr (.inl rfl)
  | some y =>
  refine .inr (.inr ?_)
  have hfetched := fetch_branch_from_outcome hok hx hy
  rw [h] at hfetched
  cases hfetched with
  | leaves hleaves =>
    rcases hleaves with hl | hl
    · exact ⟨x, .inl rfl, hl⟩
    · exact ⟨y, .inr rfl, hl⟩

end Fetch

end ForkDatabase

end Calibrd.Chain
