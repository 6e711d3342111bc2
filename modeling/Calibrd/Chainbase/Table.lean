import Calibrd.Chainbase.Squash
import Calibrd.Lib.SnapshotStack

/-!
# A table as a stack of snapshots

`Table` is the contents of an index with the facts every call keeps. A modifier that leaves the
unique keys of its object alone cannot hand a key over, so on tables that are only modified this way
`generic_index` with its change logs behaves as a stack of snapshots of the table (`Refines`), and
`undo` does not fail.
-/

namespace Calibrd.Chainbase

open Calibrd.Lib GenericIndex

variable {V : Type}

/-- The contents of a table: the ids in use were given out and the unique keys are unique. -/
structure Table (ks : List (UniqueKey V)) where
  rows : OrdMap ℕ V
  next_id : ℕ
  below : IdsBelow rows next_id
  unique : KeysUnique ks rows

/-- A modifier that leaves the unique keys of its object alone. -/
def KeepsKeys (ks : List (UniqueKey V)) (f : V → V) : Prop :=
  ∀ k ∈ ks, ∀ i v, k.key i (f v) = k.key i v

theorem sameKey_congr {ks : List (UniqueKey V)} {i j : ℕ} {v v' w : V}
    (h : ∀ k ∈ ks, k.key i v = k.key i v') : sameKey ks i v j w = sameKey ks i v' j w := by
  induction ks with
  | nil => rfl
  | cons k ks ih =>
    have hk := h k List.mem_cons_self
    have hks := ih fun k' hk' => h k' (List.mem_cons_of_mem _ hk')
    simp only [sameKey, List.any_cons] at hks ⊢
    rw [hks, hk]

variable {g : GenericIndex V} {i n : ℕ} {m : OrdMap ℕ V} {f : V → V} {us : List (UndoState V)}
  {v : V}

namespace Table

variable {ks : List (UniqueKey V)}

theorem ext {S T : Table ks} (hr : S.rows = T.rows) (hn : S.next_id = T.next_id) : S = T := by
  obtain ⟨rows, n, _, _⟩ := S
  obtain ⟨rows', n', _, _⟩ := T
  cases hr
  cases hn
  rfl

instance [DecidableEq V] : DecidableEq (Table ks) := fun S T =>
  decidable_of_iff (S.rows = T.rows ∧ S.next_id = T.next_id)
    ⟨fun h => ext h.1 h.2, fun h => h ▸ ⟨rfl, rfl⟩⟩

def empty : Table ks :=
  ⟨.empty, 0, fun _ _ h => (by cases h), fun _ _ _ _ h => (by cases h)⟩

instance : Inhabited (Table ks) := ⟨empty⟩

def find? (T : Table ks) (i : ℕ) : Option V := T.rows.find? i

theorem idsBelow_insert (h : IdsBelow m n) (hi : i < n) :
    IdsBelow (m.insert i v) n :=
  OrdMap.forall_insert h hi

/-- A new object under the next id, unless one of its unique keys is taken. -/
def create (T : Table ks) (v : V) : Option (Table ks) :=
  if h : taken ks T.rows T.next_id v = false then
    some ⟨T.rows.insert T.next_id v, T.next_id + 1,
      idsBelow_insert (fun i w hi => Nat.lt_succ_of_lt (T.below i w hi)) (Nat.lt_succ_self _),
      keysUnique_insert ks T.unique h⟩
  else none

theorem taken_of_keepsKeys (T : Table ks) (hf : KeepsKeys ks f) (hi : T.rows.find? i = some v) :
    taken ks T.rows i (f v) = false := by
  rw [taken_eq_false_iff]
  intro j w hj hne
  rw [sameKey_congr fun k hk => hf k hk i v]
  exact T.unique i v j w hi hj (Ne.symm hne)

/-- The object `i` is modified, if there is one. -/
def modify (T : Table ks) (i : ℕ) (f : V → V) (hf : KeepsKeys ks f) : Option (Table ks) :=
  match h : T.rows.find? i with
  | none => none
  | some v => some ⟨T.rows.insert i (f v), T.next_id, idsBelow_insert T.below (T.below i v h),
      keysUnique_insert ks T.unique (taken_of_keepsKeys T hf h)⟩

/-- The object `i` is removed, if there is one. -/
def remove (T : Table ks) (i : ℕ) : Option (Table ks) :=
  match T.rows.find? i with
  | none => none
  | some _ => some ⟨T.rows.erase i, T.next_id, fun j w hj => T.below j w (OrdMap.find?_of_erase hj),
      fun a x b y ha hb hne =>
        T.unique a x b y (OrdMap.find?_of_erase ha) (OrdMap.find?_of_erase hb) hne⟩

theorem create_eq_some {T T' : Table ks} (h : T.create v = some T') :
    taken ks T.rows T.next_id v = false ∧ T'.rows = T.rows.insert T.next_id v ∧
      T'.next_id = T.next_id + 1 := by
  unfold create at h
  split at h
  · next hf => cases h; exact ⟨hf, rfl, rfl⟩
  · cases h

theorem modify_eq_some {T T' : Table ks} {hf : KeepsKeys ks f} (h : T.modify i f hf = some T') :
    ∃ v, T.rows.find? i = some v ∧ T'.rows = T.rows.insert i (f v) ∧ T'.next_id = T.next_id := by
  unfold modify at h
  split at h
  · cases h
  · next v hv => cases h; exact ⟨v, hv, rfl, rfl⟩

theorem modify_eq_none {T : Table ks} {hf : KeepsKeys ks f} (h : T.modify i f hf = none) :
    T.rows.find? i = none := by
  unfold modify at h
  split at h
  · next hn => exact hn
  · cases h

theorem remove_eq_some {T T' : Table ks} (h : T.remove i = some T') :
    (∃ v, T.rows.find? i = some v) ∧ T'.rows = T.rows.erase i ∧ T'.next_id = T.next_id := by
  unfold remove at h
  split at h
  · cases h
  · next v hv => cases h; exact ⟨⟨v, hv⟩, rfl, rfl⟩

theorem remove_eq_none {T : Table ks} (h : T.remove i = none) :
    T.rows.find? i = none := by
  unfold remove at h
  split at h
  · next hn => exact hn
  · cases h

end Table

/-! ## Refinement -/

/-- An object that is in both tables has the same unique keys in both. -/
def SameKeys (ks : List (UniqueKey V)) (m0 m : OrdMap ℕ V) : Prop :=
  ∀ i v w, m0.find? i = some v → m.find? i = some w → ∀ k ∈ ks, k.key i v = k.key i w

variable {ks : List (UniqueKey V)}

theorem SameKeys.handOverFree {m0 m : OrdMap ℕ V} (h : SameKeys ks m0 m)
    (hu : KeysUnique ks m) : HandOverFree ks m0 m := by
  intro i v hi hin j w hj hne _
  obtain ⟨x, hx⟩ := Option.isSome_iff_exists.1 hin
  rw [sameKey_congr (h i v x hi hx)]
  exact hu i x j w hx hj (Ne.symm hne)

/-- Each undo state leads from a saved table to the one above it. -/
def Layers : List (UndoState V) → List (ℤ × Table ks) → OrdMap ℕ V → ℕ → Prop
  | [], [], _, _ => True
  | u :: us, p :: ps, m, n =>
    u.revision = p.1 ∧ Covers u p.2.rows p.2.next_id m n ∧ SameKeys ks p.2.rows m ∧
      Layers us ps p.2.rows p.2.next_id
  | _, _, _, _ => False

/-- The index looks like the stack of snapshots `s`. -/
structure Refines (g : GenericIndex V) (s : SnapshotStack (Table ks)) : Prop where
  rows : g.indices = s.cur.rows
  next_id : g.next_id = s.cur.next_id
  revision : g.revision = s.revision
  layers : Layers g.stack s.saved g.indices g.next_id

variable {s : SnapshotStack (Table ks)} {ps : List (ℤ × Table ks)} {T : Table ks}

theorem Refines.wf (h : Refines g s) :
    Wf ks g := by
  refine ⟨?_, ?_⟩
  · rw [h.rows, h.next_id]
    exact s.cur.below
  · rw [h.rows]
    exact s.cur.unique

theorem Refines.start (h : Refines g s) :
    Refines g.start_undo_session s.start := by
  refine ⟨h.rows, h.next_id, ?_, ?_⟩
  · exact congrArg (· + 1) h.revision
  · refine ⟨congrArg (· + 1) h.revision, ?_, ?_, ?_⟩
    · show Covers _ s.cur.rows s.cur.next_id g.indices g.next_id
      rw [← h.rows, ← h.next_id]
      exact Covers.start _ _ _
    · intro i v w hv hw k _
      have he : s.cur.rows.find? i = some w := by rw [← h.rows]; exact hw
      have hvw : some v = some w := hv.symm.trans he
      cases hvw
      rfl
    · show Layers g.stack s.saved s.cur.rows s.cur.next_id
      rw [← h.rows, ← h.next_id]
      exact h.layers

/-- `undo` does not fail and brings the saved table back. -/
theorem Refines.undo (h : Refines g s) :
    ∃ g', GenericIndex.undo ks g = .ok g' ∧ Refines g' s.undo := by
  obtain ⟨cur, saved, revision⟩ := s
  have hl := h.layers
  cases hst : g.stack with
  | nil =>
    cases saved with
    | nil => exact ⟨g, by simp [GenericIndex.undo, hst], h⟩
    | cons p ps => rw [hst] at hl; exact hl.elim
  | cons u us =>
    cases saved with
    | nil => rw [hst] at hl; exact hl.elim
    | cons p ps =>
      rw [hst] at hl
      obtain ⟨-, hcov, hkeys, hrest⟩ := hl
      let g0 : GenericIndex V := ⟨us, g.revision - 1, p.2.next_id, p.2.rows⟩
      have hg0 : Wf ks g0 := ⟨p.2.below, p.2.unique⟩
      have hs : InSession ks g0 u g :=
        ⟨hst, (sub_add_cancel g.revision 1).symm, hcov, h.wf⟩
      refine ⟨g0, (hs.undo hg0).1 (hkeys.handOverFree h.wf.unique), ?_⟩
      exact ⟨rfl, rfl, congrArg (· - 1) h.revision, hrest⟩

theorem SameKeys.trans {m0 m1 m2 : OrdMap ℕ V} (h0 : SameKeys ks m0 m1) (h1 : SameKeys ks m1 m2)
    (hmid : ∀ i v w, m0.find? i = some v → m2.find? i = some w → (m1.find? i).isSome) :
    SameKeys ks m0 m2 := by
  intro i v w hv hw k hk
  obtain ⟨x, hx⟩ := Option.isSome_iff_exists.1 (hmid i v w hv hw)
  exact (h0 i v x hv hx k hk).trans (h1 i x w hx hw k hk)

/-- Between two tables that a log covers, an id that is in the first and in the third was never
away: removed ids are not given out again. -/
theorem Covers.present_between {u : UndoState V} {m0 m m' : OrdMap ℕ V} {n0 n : ℕ}
    (h : Covers u m n m' n0) {k : ℕ} (hb : IdsBelow m0 k) (hk : k ≤ n) :
    ∀ i v w, m0.find? i = some v → m'.find? i = some w → (m.find? i).isSome := by
  intro i v w hv hw
  have ht := h.takes i
  cases he : u.entry i with
  | nop => rw [he] at ht; rw [show m.find? i = m'.find? i from ht, hw]; rfl
  | new =>
    have hle := h.fresh i he
    have hlt := hb i v hv
    omega
  | upd was => rw [he] at ht; rw [ht.1]; rfl
  | del was => rw [he] at ht; rw [ht.1]; rfl

theorem Refines.squash (h : Refines g s) :
    Refines g.squash s.squash := by
  obtain ⟨cur, saved, revision⟩ := s
  obtain ⟨stack, rev, next, indices⟩ := g
  have hl := h.layers
  match stack, saved, hl with
  | [], [], _ => exact h
  | [_], [_], _ => exact ⟨h.rows, h.next_id, h.revision, trivial⟩
  | u2 :: u1 :: us, p2 :: p1 :: ps, ⟨_, hcov2, hkeys2, hrev1, hcov1, hkeys1, hrest⟩ =>
    refine ⟨h.rows, h.next_id, congrArg (· - 1) h.revision, ?_, ?_, ?_, hrest⟩
    · rw [(UndoState.mergeState_next u1 u2).2]
      exact hrev1
    · exact hcov1.merge hcov2 p1.2.below
    · exact hkeys1.trans hkeys2 (hcov2.present_between p1.2.below hcov1.le)

theorem Layers.take (h : Layers us ps m n) (k : ℕ) : Layers (us.take k) (ps.take k) m n := by
  induction k generalizing us ps m n with
  | zero => trivial
  | succ k ih =>
    match us, ps, h with
    | [], [], _ => trivial
    | u :: us, p :: ps, ⟨hrev, hcov, hkeys, hrest⟩ => exact ⟨hrev, hcov, hkeys, ih hrest⟩

theorem Layers.revisions (h : Layers us ps m n) : us.map UndoState.revision = ps.map Prod.fst := by
  induction us generalizing ps m n with
  | nil =>
    match ps, h with
    | [], _ => rfl
  | cons u us ih =>
    match ps, h with
    | p :: ps, ⟨hrev, _, _, hrest⟩ =>
      rw [List.map_cons, List.map_cons, hrev, ih hrest]

private theorem rdropWhile_eq_take {α : Type} (f : α → ℤ) (l : List α) (c : ℤ) :
    l.rdropWhile (fun a => decide (f a ≤ c)) =
      l.take ((l.map f).rdropWhile fun r => decide (r ≤ c)).length := by
  have hmap := SnapshotStack.rdropWhile_map f (fun r => decide (r ≤ c))
    (fun a => decide (f a ≤ c)) (fun _ => rfl) l
  rw [hmap, List.length_map]
  exact List.prefix_iff_eq_take.1 (List.rdropWhile_prefix _ l)

theorem Refines.commit (h : Refines g s) (r : ℤ) : Refines (g.commit r) (s.commit r) := by
  refine ⟨h.rows, h.next_id, h.revision, ?_⟩
  show Layers (g.stack.rdropWhile _) (s.saved.rdropWhile _) g.indices g.next_id
  rw [rdropWhile_eq_take UndoState.revision, rdropWhile_eq_take Prod.fst, h.layers.revisions]
  exact h.layers.take _

/-! ## Calls -/

/-- A logged change that keeps the unique keys is a change of the current table. -/
theorem Refines.logged {g g' : GenericIndex V} (h : Refines g s) {e : ℕ → Entry V}
    {f : UndoState V → UndoState V} (hl : LoggedBy e f g g')
    (hrows : g'.indices = T.rows) (hnext : g'.next_id = T.next_id)
    (hkeys : SameKeys ks g.indices g'.indices) : Refines g' (s.setCur T) := by
  refine ⟨hrows, hnext, hl.revision.trans h.revision, ?_⟩
  obtain ⟨cur, saved, revision⟩ := s
  obtain ⟨stack, rev, next, indices⟩ := g
  have hlay := h.layers
  rw [hl.stack]
  match stack, saved, hlay with
  | [], [], _ => trivial
  | u :: us, p :: ps, ⟨hrev, hcov, hk, hrest⟩ =>
    refine ⟨(hl.top_revision u).trans hrev, ?_, hk.trans hkeys ?_, hrest⟩
    · exact hcov.apply p.2.below e hl.takes hl.fresh hl.next_le (hl.top_next u) (hl.top_slot u)
    · intro i v w hv hw
      have ht := hl.takes i
      cases he : e i with
      | nop => rw [he] at ht; rw [show indices.find? i = _ from ht, hw]; rfl
      | new =>
        have hle := hl.fresh i he
        have hlt := p.2.below i v hv
        have := hcov.le
        omega
      | upd was => rw [he] at ht; rw [ht.1]; rfl
      | del was => rw [he] at ht; rw [ht.1]; rfl

theorem Refines.create (h : Refines g s) (hc : s.cur.create v = some T) :
    ∃ g', GenericIndex.emplace ks g v = .ok g' ∧ Refines g' (s.setCur T) := by
  obtain ⟨hfree, hrows, hnext⟩ := Table.create_eq_some hc
  have hout : g.indices.contains g.next_id = false := by
    rw [h.rows, h.next_id]
    cases hx : s.cur.rows.find? s.cur.next_id with
    | none => simp [OrdMap.contains, hx]
    | some x => exact absurd (s.cur.below _ x hx) (lt_irrefl _)
  have hemp : ∃ g', GenericIndex.emplace ks g v = .ok g' ∧
      g'.indices = g.indices.insert g.next_id v ∧ g'.next_id = g.next_id + 1 := by
    rw [← h.rows, ← h.next_id] at hfree
    refine ⟨{ g with
        indices := g.indices.insert g.next_id v
        next_id := g.next_id + 1
        stack := onTop (recordCreate · g.next_id) g.stack }, ?_, rfl, rfl⟩
    simp only [GenericIndex.emplace, containerEmplace, hout, hfree, Bool.or_self,
      Bool.false_eq_true, ↓reduceIte]
  obtain ⟨g', hg', hi, hn⟩ := hemp
  obtain ⟨-, e, f, hl⟩ := call_logged ks h.wf (c := .emplace v) hg'
  refine ⟨g', hg', h.logged hl ?_ ?_ ?_⟩
  · rw [hi, hrows, h.rows, h.next_id]
  · rw [hn, hnext, h.next_id]
  · intro i x y hx hy k _
    rw [hi, OrdMap.find?_insert] at hy
    split at hy
    · next he =>
      subst he
      simp [OrdMap.contains, hx] at hout
    · have hxy : some x = some y := hx.symm.trans hy
      cases hxy
      rfl

theorem Refines.create_fails (h : Refines g s) (hc : s.cur.create v = none) :
    GenericIndex.emplace ks g v = .error .insert_failed := by
  have htaken : taken ks g.indices g.next_id v = true := by
    rw [h.rows, h.next_id]
    unfold Table.create at hc
    split at hc
    · cases hc
    · next hf => simpa using hf
  simp [GenericIndex.emplace, containerEmplace, htaken]

theorem Refines.modify (h : Refines g s) {hf : KeepsKeys ks f} (hm : s.cur.modify i f hf = some T) :
    ∃ g', GenericIndex.modify ks g i f = .ok g' ∧ Refines g' (s.setCur T) := by
  obtain ⟨v, hv, hrows, hnext⟩ := Table.modify_eq_some hm
  have hfree := Table.taken_of_keepsKeys s.cur hf hv
  rw [← h.rows] at hv hfree
  have hmod : ∃ g', GenericIndex.modify ks g i f = .ok g' ∧
      g'.indices = g.indices.insert i (f v) ∧ g'.next_id = g.next_id := by
    refine ⟨{ g with
        indices := g.indices.insert i (f v)
        stack := onTop (recordModify · i v) g.stack }, ?_, rfl, rfl⟩
    simp only [GenericIndex.modify, hv, containerModify, hfree, Bool.false_eq_true, ↓reduceIte]
  obtain ⟨g', hg', hi, hn⟩ := hmod
  obtain ⟨-, e, f', hl⟩ := call_logged ks h.wf (c := .modify i f) hg'
  refine ⟨g', hg', h.logged hl ?_ ?_ ?_⟩
  · rw [hi, hrows, h.rows]
  · rw [hn, hnext, h.next_id]
  · intro j x y hx hy k hk
    rw [hi, OrdMap.find?_insert] at hy
    split at hy
    · next he =>
      subst he
      have hxv : some x = some v := hx.symm.trans hv
      cases hxv
      cases hy
      exact (hf k hk i v).symm
    · have hxy : some x = some y := hx.symm.trans hy
      cases hxy
      rfl

theorem Refines.modify_fails (h : Refines g s) {hf : KeepsKeys ks f}
    (hm : s.cur.modify i f hf = none) : GenericIndex.modify ks g i f = .error .end_iterator := by
  have hnone := Table.modify_eq_none hm
  rw [← h.rows] at hnone
  simp [GenericIndex.modify, hnone]

theorem Refines.remove (h : Refines g s) (hm : s.cur.remove i = some T) :
    ∃ g', GenericIndex.remove g i = .ok g' ∧ Refines g' (s.setCur T) := by
  obtain ⟨⟨v, hv⟩, hrows, hnext⟩ := Table.remove_eq_some hm
  rw [← h.rows] at hv
  have hrem : ∃ g', GenericIndex.remove g i = .ok g' ∧ g'.indices = g.indices.erase i ∧
      g'.next_id = g.next_id := by
    refine ⟨{ g with
        indices := g.indices.erase i
        stack := onTop (recordRemove · i v) g.stack }, ?_, rfl, rfl⟩
    simp only [GenericIndex.remove, hv]
  obtain ⟨g', hg', hi, hn⟩ := hrem
  obtain ⟨-, e, f', hl⟩ := call_logged ks h.wf (c := .remove i) hg'
  refine ⟨g', hg', h.logged hl ?_ ?_ ?_⟩
  · rw [hi, hrows, h.rows]
  · rw [hn, hnext, h.next_id]
  · intro j x y hx hy k _
    rw [hi] at hy
    have hxy : some x = some y := hx.symm.trans (OrdMap.find?_of_erase hy)
    cases hxy
    rfl

theorem Refines.remove_fails (h : Refines g s) (hm : s.cur.remove i = none) :
    GenericIndex.remove g i = .error .end_iterator := by
  have hnone := Table.remove_eq_none hm
  rw [← h.rows] at hnone
  simp [GenericIndex.remove, hnone]

theorem Layers.length_eq (h : Layers us ps m n) : us.length = ps.length := by
  simpa using congrArg List.length h.revisions

private theorem Refines.undoMany (h : Refines g s) (l : List (UndoState V)) :
    ∃ g', l.foldlM (fun g _ => GenericIndex.undo ks g) g = .ok g' ∧
      Refines g' (SnapshotStack.undo^[l.length] s) := by
  induction l generalizing g s with
  | nil => exact ⟨g, rfl, h⟩
  | cons u l ih =>
    obtain ⟨g1, hg1, h1⟩ := h.undo
    obtain ⟨g', hg', h'⟩ := ih h1
    refine ⟨g', ?_, h'⟩
    rw [List.foldlM_cons, hg1]
    exact hg'

theorem Refines.undo_all (h : Refines g s) :
    ∃ g', g.undo_all ks = .ok g' ∧ Refines g' s.undoAll := by
  rw [SnapshotStack.undoAll, ← h.layers.length_eq]
  exact h.undoMany g.stack

end Calibrd.Chainbase
