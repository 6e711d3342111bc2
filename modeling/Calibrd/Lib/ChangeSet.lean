import Mathlib

/-!
# Change entries

What an undo log knows about one key of a store is one of four things: the key was created, it was
updated and held `was` before, it was deleted and held `was` before, or nothing happened. An entry
relates the value before the logged interval to the value after it (`Entry.Takes`), and two entries
of consecutive intervals compose (`Entry.merge`). A delete followed by a create does not compose:
the stores this is used for never give a key out twice.
-/

namespace Calibrd.Lib

universe u

inductive Entry (α : Type u) where
  | nop
  | new
  | upd (was : α)
  | del (was : α)
deriving DecidableEq, Repr

namespace Entry

variable {α : Type u}

/-- The entry describes a step from the value `before` to the value `after`. -/
def Takes : Entry α → Option α → Option α → Prop
  | nop, before, after => before = after
  | new, before, after => before = none ∧ after.isSome
  | upd was, before, after => before = some was ∧ after.isSome
  | del was, before, after => before = some was ∧ after = none

/-- The composition of the entries of two consecutive intervals. The pairs that cannot follow one
another keep the first entry. -/
def merge : Entry α → Entry α → Entry α
  | nop, e => e
  | new, del _ => nop
  | upd was, del _ => del was
  | e, _ => e

theorem eq_new_of_merge_eq_new {e f : Entry α} (h : e.merge f = new) :
    e = new ∨ e = nop ∧ f = new := by
  cases e with
  | nop => exact Or.inr ⟨rfl, h⟩
  | new => exact Or.inl rfl
  | upd x => cases f <;> simp [merge] at h
  | del x => cases f <;> simp [merge] at h

/-- Two entries compose as the intervals they describe, unless a deleted key is created again. -/
theorem takes_merge {e f : Entry α} {before mid after : Option α} (he : e.Takes before mid)
    (hf : f.Takes mid after) (hfresh : f = new → before = none) :
    (e.merge f).Takes before after := by
  cases e with
  | nop =>
    cases (show before = mid from he)
    exact hf
  | new =>
    obtain ⟨hb, hm⟩ := he
    cases f with
    | nop => exact ⟨hb, (show mid = after from hf) ▸ hm⟩
    | new => exact ⟨hb, hf.2⟩
    | upd was => exact ⟨hb, hf.2⟩
    | del was => exact hb.trans hf.2.symm
  | upd x =>
    obtain ⟨hb, hm⟩ := he
    cases f with
    | nop => exact ⟨hb, (show mid = after from hf) ▸ hm⟩
    | new => exact ⟨hb, hf.2⟩
    | upd was => exact ⟨hb, hf.2⟩
    | del was => exact ⟨hb, hf.2⟩
  | del x =>
    obtain ⟨hb, hm⟩ := he
    cases f with
    | nop => exact ⟨hb, (show mid = after from hf) ▸ hm⟩
    | new => simp [hfresh rfl] at hb
    | upd was => simp [hm] at hf; exact absurd hf.1 (by simp)
    | del was => exact absurd (hm.symm.trans hf.1) (by simp)

end Entry

end Calibrd.Lib
