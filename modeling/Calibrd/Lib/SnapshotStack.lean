import Mathlib

/-!
# A stack of snapshots

What a versioned store with nested sessions is for: opening a session saves the current value under
the next revision, undoing it brings the value back, squashing it forgets the save, and committing a
revision forgets all saves up to it. The store itself may keep change logs instead of copies; this is
what it has to look like from outside.

A lone session is squashed without a change of the revision, as there is no session below it to
join.
-/

namespace Calibrd.Lib

universe u v

structure SnapshotStack (S : Type u) where
  cur : S
  saved : List (ℤ × S)
  revision : ℤ

namespace SnapshotStack

variable {S : Type u} {S' : Type v}

variable (s : SnapshotStack S)

def start : SnapshotStack S :=
  { s with saved := (s.revision + 1, s.cur) :: s.saved, revision := s.revision + 1 }

def undo : SnapshotStack S :=
  match s.saved with
  | [] => s
  | (_, c) :: rest => ⟨c, rest, s.revision - 1⟩

def squash : SnapshotStack S :=
  match s.saved with
  | [] => s
  | [_] => { s with saved := [] }
  | _ :: below :: rest => { s with saved := below :: rest, revision := s.revision - 1 }

def commit (revision : ℤ) : SnapshotStack S :=
  { s with saved := s.saved.rdropWhile fun p => decide (p.1 ≤ revision) }

/-- One undo for each save. -/
def undoAll : SnapshotStack S := undo^[s.saved.length] s

def setCur (c : S) : SnapshotStack S := { s with cur := c }

def map (f : S → S') (s : SnapshotStack S) : SnapshotStack S' :=
  ⟨f s.cur, s.saved.map fun p => (p.1, f p.2), s.revision⟩

variable (s : SnapshotStack S) {l : List (ℤ × S)} (f : S → S') {r : ℤ}

@[simp] theorem setCur_cur (c : S) : (s.setCur c).cur = c := rfl
@[simp] theorem setCur_saved (c : S) : (s.setCur c).saved = s.saved := rfl
@[simp] theorem setCur_revision (c : S) :
    (s.setCur c).revision = s.revision := rfl
@[simp] theorem setCur_self : s.setCur s.cur = s := rfl
@[simp] theorem setCur_setCur (c d : S) :
    (s.setCur c).setCur d = s.setCur d := rfl

@[simp] theorem commit_cur (r : ℤ) : (s.commit r).cur = s.cur := rfl
@[simp] theorem commit_revision (r : ℤ) :
    (s.commit r).revision = s.revision := rfl

@[simp] theorem start_cur : s.start.cur = s.cur := rfl

/-- A session that is undone leaves nothing behind, whatever was written in it. -/
@[simp] theorem undo_setCur_start (c : S) : (s.start.setCur c).undo = s := by
  simp [start, undo, setCur]

/-- A session inside a session that is squashed leaves its writes in the outer one. -/
@[simp] theorem squash_setCur_start_start (c d : S) :
    ((s.start.setCur c).start.setCur d).squash = s.start.setCur d := by
  simp [start, squash, setCur]

theorem undoAll_of_nil {s : SnapshotStack S} (h : s.saved = []) : s.undoAll = s := by
  rw [undoAll, h]
  rfl

/-- The first of all undos. -/
theorem undoAll_of_cons {s : SnapshotStack S} {p : ℤ × S} (h : s.saved = p :: l) :
    s.undoAll = s.undo.undoAll := by
  have hundo : s.undo.saved = l := by simp only [undo, h]
  rw [undoAll, undoAll, hundo, h]
  rfl

theorem undo_saved : s.undo.saved = s.saved.tail := by
  cases hl : s.saved with
  | nil => simp only [undo, hl, List.tail_nil]
  | cons p l => simp only [undo, hl, List.tail_cons]

theorem iterate_undo_saved (k : ℕ) : (undo^[k] s).saved = s.saved.drop k := by
  induction k generalizing s with
  | zero => rfl
  | succ k ih => rw [Function.iterate_succ_apply, ih, undo_saved, List.drop_tail]

theorem undoAll_saved : s.undoAll.saved = [] := by
  rw [undoAll, iterate_undo_saved, List.drop_length]

/-! ## Maps -/

@[simp] theorem map_start (s : SnapshotStack S) : s.start.map f = (s.map f).start := rfl

@[simp] theorem map_undo (s : SnapshotStack S) : s.undo.map f = (s.map f).undo := by
  obtain ⟨cur, saved, revision⟩ := s
  cases saved <;> rfl

@[simp] theorem map_undoAll (s : SnapshotStack S) :
    s.undoAll.map f = (s.map f).undoAll := by
  have hlen : (s.map f).saved.length = s.saved.length := List.length_map _
  have hiter : ∀ k (s : SnapshotStack S), (undo^[k] s).map f = undo^[k] (s.map f) := by
    intro k
    induction k with
    | zero => exact fun _ => rfl
    | succ k ih => exact fun s => (ih s.undo).trans (by rw [map_undo]; rfl)
  rw [undoAll, undoAll, hlen, hiter]

@[simp] theorem map_squash (s : SnapshotStack S) :
    s.squash.map f = (s.map f).squash := by
  obtain ⟨cur, saved, revision⟩ := s
  match saved with
  | [] => rfl
  | [_] => rfl
  | _ :: _ :: _ => rfl

theorem rdropWhile_map {α : Type u} {β : Type v} (g : α → β) (p : β → Bool) (q : α → Bool)
    (h : ∀ a, p (g a) = q a) (l : List α) :
    (l.map g).rdropWhile p = (l.rdropWhile q).map g := by
  have hq : q = p ∘ g := funext fun a => (h a).symm
  rw [hq, List.rdropWhile, List.rdropWhile, ← List.map_reverse, List.dropWhile_map,
    List.map_reverse]

@[simp] theorem map_commit (s : SnapshotStack S) (r : ℤ) :
    (s.commit r).map f = (s.map f).commit r := by
  simp only [commit, map]
  rw [rdropWhile_map _ _ (fun p : ℤ × S => decide (p.1 ≤ r)) (fun _ => rfl)]

/-! ## Revisions -/

/-- The revisions of the saves count down from `r`. -/
def Consecutive : ℤ → List (ℤ × S) → Prop
  | _, [] => True
  | r, p :: l => p.1 = r ∧ Consecutive (r - 1) l

theorem Consecutive.start {s : SnapshotStack S} (h : Consecutive s.revision s.saved) :
    Consecutive s.start.revision s.start.saved := by
  refine ⟨rfl, ?_⟩
  rw [show s.start.revision - 1 = s.revision from by simp [SnapshotStack.start]]
  exact h

theorem Consecutive.undo {s : SnapshotStack S} (h : Consecutive s.revision s.saved) :
    Consecutive s.undo.revision s.undo.saved := by
  obtain ⟨cur, saved, revision⟩ := s
  cases saved with
  | nil => exact h
  | cons p l => exact h.2

theorem Consecutive.take (h : Consecutive r l) (n : ℕ) :
    Consecutive r (l.take n) := by
  induction n generalizing r l with
  | zero => trivial
  | succ n ih =>
    cases l with
    | nil => trivial
    | cons p l => exact ⟨h.1, ih h.2⟩

/-- The numbers `r`, `r - 1`, ..., `count` of them. -/
def countDown (r : ℤ) (count : ℕ) : List ℤ := (List.range count).map fun i : ℕ => r - i

theorem Consecutive.revisions (h : Consecutive r l) :
    l.map Prod.fst = countDown r l.length := by
  induction l generalizing r with
  | nil => rfl
  | cons p l ih =>
    obtain ⟨hp, hl⟩ := h
    rw [List.map_cons, hp, ih hl, countDown, countDown, List.length_cons, List.range_succ_eq_map,
      List.map_cons, List.map_map]
    refine congrArg₂ List.cons (by simp) (List.map_congr_left fun i _ => ?_)
    simp only [Function.comp]
    omega

/-- Committing keeps the saves above the committed revision: the first ones, down to it. -/
theorem saved_commit_eq (h : Consecutive r l) (c : ℤ) :
    l.rdropWhile (fun p => decide (p.1 ≤ c)) = l.take (r - c).toNat := by
  induction l generalizing r with
  | nil => simp
  | cons p l ih =>
    obtain ⟨hp, hl⟩ := h
    have htail := ih hl
    by_cases hc : r ≤ c
    · -- the whole stack is at or below the committed revision
      have hzero : (r - c).toNat = 0 := by omega
      have hzero' : (r - 1 - c).toNat = 0 := by omega
      rw [hzero', List.take_zero, List.rdropWhile_eq_nil_iff] at htail
      rw [hzero, List.take_zero, List.rdropWhile_eq_nil_iff]
      exact List.forall_mem_cons.2 ⟨by simp [hp, hc], htail⟩
    · have hsucc : (r - c).toNat = (r - 1 - c).toNat + 1 := by omega
      rw [hsucc, List.take_succ_cons, ← htail]
      have hhead : ¬ decide (p.1 ≤ c) = true := by simp [hp]; omega
      rw [← List.singleton_append, List.rdropWhile, List.reverse_append, List.rdropWhile]
      rw [List.dropWhile_append]
      split
      · next hnil =>
        rw [List.isEmpty_iff] at hnil
        simp [hnil, hhead]
      · simp

theorem Consecutive.commit {s : SnapshotStack S} (h : Consecutive s.revision s.saved) (r : ℤ) :
    Consecutive (s.commit r).revision (s.commit r).saved := by
  simp only [SnapshotStack.commit]
  rw [saved_commit_eq h]
  exact h.take _

/-! ## Values -/

/-- The current value and the saved ones, newest first. -/
def values (s : SnapshotStack S) : List S := s.cur :: s.saved.map Prod.snd

theorem cur_mem_values : s.cur ∈ s.values := List.mem_cons_self

theorem values_undo_suffix : s.undo.values <:+ s.values := by
  obtain ⟨cur, saved, revision⟩ := s
  cases saved with
  | nil => exact List.suffix_rfl
  | cons p l => exact List.suffix_cons _ _

theorem iterate_undo_mem (k : ℕ) : (undo^[k] s).cur ∈ s.values := by
  induction k generalizing s with
  | zero => exact s.cur_mem_values
  | succ k ih => exact s.values_undo_suffix.subset (ih s.undo)

theorem values_commit_part (r : ℤ) :
    (s.commit r).values <:+: s.values := by
  have hsaved : (s.commit r).saved <+: s.saved := List.rdropWhile_prefix _ _
  have hmap := hsaved.map Prod.snd
  exact ((List.prefix_cons_inj s.cur).2 hmap).isInfix

end SnapshotStack

end Calibrd.Lib
