import Calibrd.Chainbase.GenericIndex

/-!
# The change log of a session

An undo state is read pointwise: what it holds about one id is a `Slot`, and a slot that is in at
most one of the three containers is one of the entries new, upd, del and nop of the table in
`squash`. Each hook applies one entry to the slot of its object, and `squash` applies the entries of
the inner state to the slots of the outer one, so one lemma (`Covers.apply`) carries both a call
inside a session and the merge of two sessions.
-/

namespace Calibrd.Chainbase

open Calibrd.Lib GenericIndex

variable {V : Type}

/-! ## Slots -/

/-- What an undo state holds about one id. -/
@[ext] structure Slot (V : Type) where
  new : Option Unit
  old : Option V
  removed : Option V

variable {i : ℕ} {was : V}

namespace Slot

/-- At most one container holds the id. -/
structure Ok (s : Slot V) : Prop where
  old_of_new : s.new.isSome → s.old = none
  removed_of_new : s.new.isSome → s.removed = none
  removed_of_old : s.old.isSome → s.removed = none

def entry (s : Slot V) : Entry V :=
  match s.new, s.old, s.removed with
  | some _, _, _ => .new
  | none, some was, _ => .upd was
  | none, none, some was => .del was
  | none, none, none => .nop

variable {s : Slot V}

theorem entry_eq_new_iff : s.entry = .new ↔ s.new.isSome := by
  obtain ⟨new, old, removed⟩ := s
  cases new <;> cases old <;> cases removed <;> simp [entry]

theorem entry_eq_upd_iff (hs : s.Ok) :
    s.entry = .upd was ↔ s.old = some was := by
  obtain ⟨new, old, removed⟩ := s
  have h := hs.old_of_new
  cases new <;> cases old <;> cases removed <;> simp_all [entry]

theorem entry_eq_del_iff (hs : s.Ok) :
    s.entry = .del was ↔ s.removed = some was := by
  obtain ⟨new, old, removed⟩ := s
  have h := hs.removed_of_new
  have h' := hs.removed_of_old
  cases new <;> cases old <;> cases removed <;> simp_all [entry]

/-- The effect of one entry on the slot of its id: the bodies of `on_modify`, `on_create` and
`on_remove`, and of the three loops of `squash`. -/
def apply (s : Slot V) : Entry V → Slot V
  | .nop => s
  | .new => { s with new := some () }
  | .upd v => if s.new.isSome then s else if s.old.isSome then s else { s with old := some v }
  | .del v =>
    if s.new.isSome then { s with new := none }
    else match s.old with
      | some was => { s with old := none, removed := some (s.removed.getD was) }
      | none => { s with removed := some (s.removed.getD v) }

@[simp] theorem apply_nop (s : Slot V) : s.apply .nop = s := rfl

/-- An entry may follow what the slot holds: nothing happens to a removed object, and only an id
that nothing is known about is created. -/
def Admits (s : Slot V) (e : Entry V) : Prop :=
  ((∃ was, s.entry = .del was) → e = .nop) ∧ (e = .new → s.entry = .nop)

theorem ok_apply {e : Entry V} (hs : s.Ok) (he : s.Admits e) : (s.apply e).Ok := by
  obtain ⟨new, old, removed⟩ := s
  obtain ⟨h1, h2, h3⟩ := hs
  obtain ⟨hdel, hnew⟩ := he
  cases new <;> cases old <;> cases removed <;> cases e <;>
    simp_all [apply, entry] <;> exact ⟨by simp, by simp, by simp⟩

/-- Applying an entry to a slot is merging it into the slot's entry. -/
theorem entry_apply {e : Entry V} (hs : s.Ok) (he : s.Admits e) :
    (s.apply e).entry = s.entry.merge e := by
  obtain ⟨new, old, removed⟩ := s
  obtain ⟨h1, h2, h3⟩ := hs
  obtain ⟨hdel, hnew⟩ := he
  cases new <;> cases old <;> cases removed <;> cases e <;>
    simp_all [apply, entry, Entry.merge]

end Slot

namespace UndoState

def slot (u : UndoState V) (i : ℕ) : Slot V :=
  ⟨u.new_ids.find? i, u.old_values.find? i, u.removed_values.find? i⟩

def entry (u : UndoState V) (i : ℕ) : Entry V := (u.slot i).entry

theorem entry_new_iff {u : UndoState V} : u.entry i = .new ↔ i ∈ u.new_ids.keys := by
  rw [OrdMap.mem_keys, entry, Slot.entry_eq_new_iff, Option.isSome_iff_exists]
  rfl

variable (u : UndoState V)

theorem slot_recordCreate (i j : ℕ) :
    (recordCreate u i).slot j = if i = j then (u.slot j).apply .new else u.slot j := by
  by_cases h : i = j <;> simp [recordCreate, slot, Slot.apply, h]

theorem slot_recordModify (i j : ℕ) (v : V) :
    (recordModify u i v).slot j = if i = j then (u.slot j).apply (.upd v) else u.slot j := by
  unfold recordModify
  by_cases h : i = j
  · subst h
    cases hn : u.new_ids.find? i with
    | some w => simp [OrdMap.contains, slot, Slot.apply, hn]
    | none =>
      cases ho : u.old_values.find? i with
      | some was => simp [OrdMap.contains, slot, Slot.apply, hn, ho]
      | none => simp [OrdMap.contains, slot, Slot.apply, hn, ho]
  · split
    · simp
    · split <;> simp [slot, h]

theorem find?_emplaceMap (m : OrdMap ℕ V) (i j : ℕ) (v : V) :
    (emplaceMap m i v).find? j = if i = j then some ((m.find? j).getD v) else m.find? j := by
  unfold emplaceMap
  by_cases h : i = j
  · subst h
    cases hm : m.find? i with
    | none => simp [OrdMap.contains, hm]
    | some w => simp [OrdMap.contains, hm]
  · split <;> simp [h]

theorem slot_recordRemove (i j : ℕ) (v : V) :
    (recordRemove u i v).slot j = if i = j then (u.slot j).apply (.del v) else u.slot j := by
  unfold recordRemove
  by_cases h : i = j
  · subst h
    cases hn : u.new_ids.find? i with
    | some w => simp [OrdMap.contains, slot, Slot.apply, hn]
    | none =>
      cases ho : u.old_values.find? i with
      | some was => simp [OrdMap.contains, slot, Slot.apply, hn, ho, find?_emplaceMap]
      | none =>
        cases hr : u.removed_values.find? i with
        | some was => simp [OrdMap.contains, slot, Slot.apply, hn, ho, hr]
        | none => simp [OrdMap.contains, slot, Slot.apply, hn, ho, hr, find?_emplaceMap]
  · split
    · simp [slot, h]
    · split
      · simp [slot, h, find?_emplaceMap]
      · split <;> simp [slot, h, find?_emplaceMap]

/-! ## The merge of two states -/

theorem slot_mergeRemoved (obj : ℕ × V) (j : ℕ) :
    (mergeRemoved u obj).slot j =
      if obj.1 = j then (u.slot j).apply (.del obj.2) else u.slot j := by
  rw [← slot_recordRemove]
  unfold mergeRemoved recordRemove
  split
  · rfl
  · split
    · rfl
    · split
      · next hr => simp [emplaceMap, hr]
      · rfl

/-- A loop whose rounds each touch the slot of their own id does nothing to the other slots. -/
theorem slot_foldl_of_not_mem {β : Type} (round : UndoState V → β → UndoState V) (id : β → ℕ)
    (hframe : ∀ u b j, id b ≠ j → (round u b).slot j = u.slot j) (l : List β) (u : UndoState V)
    (j : ℕ) (hj : j ∉ l.map id) : (l.foldl round u).slot j = u.slot j := by
  induction l generalizing u with
  | nil => rfl
  | cons b l ih =>
    simp only [List.map_cons, List.mem_cons, not_or] at hj
    rw [List.foldl_cons, ih _ hj.2, hframe u b j (Ne.symm hj.1)]

/-- Such a loop over rows with distinct ids runs the round of each id once, on the slot the loop
started with. -/
theorem slot_foldl_of_mem {β : Type} (round : UndoState V → β → UndoState V) (id : β → ℕ)
    (e : β → Entry V)
    (hround : ∀ u b j, (round u b).slot j = if id b = j then (u.slot j).apply (e b) else u.slot j)
    (l : List β) (hl : (l.map id).Nodup) (u : UndoState V) {b : β} (hb : b ∈ l) :
    (l.foldl round u).slot (id b) = (u.slot (id b)).apply (e b) := by
  have hframe : ∀ u b j, id b ≠ j → (round u b).slot j = u.slot j := by
    intro u b j h
    rw [hround, if_neg h]
  induction l generalizing u with
  | nil => cases hb
  | cons c l ih =>
    simp only [List.map_cons, List.nodup_cons] at hl
    rw [List.foldl_cons]
    rcases List.mem_cons.1 hb with rfl | hb
    · rw [slot_foldl_of_not_mem round id hframe l _ _ hl.1, hround, if_pos rfl]
    · have hne : id c ≠ id b := fun h => hl.1 (h ▸ List.mem_map_of_mem hb)
      rw [ih hl.2 _ hb, hframe u c _ hne]

/-- The entry for the value a map may hold. -/
private def ofOption {α : Type} (e : α → Entry V) : Option α → Entry V
  | none => .nop
  | some v => e v

private theorem slot_foldl_rows {α : Type} (round : UndoState V → ℕ × α → UndoState V)
    (e : α → Entry V)
    (hround : ∀ u b j, (round u b).slot j =
      if b.1 = j then (u.slot j).apply (e b.2) else u.slot j)
    (m : OrdMap ℕ α) (u : UndoState V) (j : ℕ) :
    (m.rows.foldl round u).slot j = (u.slot j).apply (ofOption e (m.find? j)) := by
  cases hj : m.find? j with
  | some v =>
    have hmem : (j, v) ∈ m.rows := OrdMap.mem_rows.2 hj
    exact slot_foldl_of_mem round Prod.fst (fun b => e b.2) hround m.rows m.nodup_keys u hmem
  | none =>
    have hnot : j ∉ m.rows.map Prod.fst := by
      intro h
      obtain ⟨v, hv⟩ := OrdMap.mem_keys.1 h
      rw [hj] at hv
      cases hv
    apply slot_foldl_of_not_mem round Prod.fst _ m.rows u j hnot
    intro u b j h
    rw [hround, if_neg h]

/-- `squash` replays the inner log on the outer one: at every id the entry of the inner state is
applied to the slot of the outer state. -/
theorem slot_mergeState (prev state : UndoState V) (j : ℕ) (hs : (state.slot j).Ok) :
    (mergeState prev state).slot j = (prev.slot j).apply (state.entry j) := by
  have hkeys : ∀ u : UndoState V, state.new_ids.keys.foldl mergeNew u =
      state.new_ids.rows.foldl (fun u b => mergeNew u b.1) u := by
    intro u
    rw [OrdMap.keys, List.foldl_map]
  unfold mergeState
  rw [slot_foldl_rows mergeRemoved .del slot_mergeRemoved, hkeys,
    slot_foldl_rows (fun u b => mergeNew u b.1) (fun _ => .new)
      (fun u b j => slot_recordCreate u b.1 j),
    slot_foldl_rows mergeOld .upd (fun u b j => slot_recordModify u b.1 j b.2)]
  -- the inner slot is in at most one container, so at most one of the three loops does anything
  obtain ⟨h1, h2, h3⟩ := hs
  simp only [slot] at h1 h2 h3
  unfold entry Slot.entry slot
  cases hn : state.new_ids.find? j with
  | some w => simp only [h1 (by simp [hn]), h2 (by simp [hn]), ofOption, Slot.apply_nop]
  | none =>
    cases ho : state.old_values.find? j with
    | some was => simp only [h3 (by simp [ho]), ofOption, Slot.apply_nop]
    | none => cases hr : state.removed_values.find? j <;> simp only [ofOption, Slot.apply_nop]

private theorem mergeOld_foldl_next (l : List (ℕ × V)) (u : UndoState V) :
    (l.foldl mergeOld u).old_next_id = u.old_next_id ∧
      (l.foldl mergeOld u).revision = u.revision := by
  induction l generalizing u with
  | nil => exact ⟨rfl, rfl⟩
  | cons b l ih =>
    rw [List.foldl_cons, (ih _).1, (ih _).2]
    unfold mergeOld
    split
    · exact ⟨rfl, rfl⟩
    · split <;> exact ⟨rfl, rfl⟩

private theorem mergeNew_foldl_next (l : List ℕ) (u : UndoState V) :
    (l.foldl mergeNew u).old_next_id = u.old_next_id ∧
      (l.foldl mergeNew u).revision = u.revision := by
  induction l generalizing u with
  | nil => exact ⟨rfl, rfl⟩
  | cons b l ih => rw [List.foldl_cons, (ih _).1, (ih _).2]; exact ⟨rfl, rfl⟩

private theorem mergeRemoved_foldl_next (l : List (ℕ × V)) (u : UndoState V) :
    (l.foldl mergeRemoved u).old_next_id = u.old_next_id ∧
      (l.foldl mergeRemoved u).revision = u.revision := by
  induction l generalizing u with
  | nil => exact ⟨rfl, rfl⟩
  | cons b l ih =>
    rw [List.foldl_cons, (ih _).1, (ih _).2]
    unfold mergeRemoved
    split
    · exact ⟨rfl, rfl⟩
    · split <;> exact ⟨rfl, rfl⟩

/-- The merged state keeps the next id and the revision of the outer one. -/
theorem mergeState_next (prev state : UndoState V) :
    (mergeState prev state).old_next_id = prev.old_next_id ∧
      (mergeState prev state).revision = prev.revision := by
  unfold mergeState
  rw [(mergeRemoved_foldl_next _ _).1, (mergeRemoved_foldl_next _ _).2,
    (mergeNew_foldl_next _ _).1, (mergeNew_foldl_next _ _).2]
  exact mergeOld_foldl_next _ _

end UndoState

/-! ## Sessions -/

/-- Every object has an id that was given out. -/
def IdsBelow (m : OrdMap ℕ V) (n : ℕ) : Prop := ∀ i v, m.find? i = some v → i < n

/-- The undo state `u` leads from the contents `m0` with next id `n0`, at the start of its session,
to the contents `m` with next id `n`. -/
structure Covers (u : UndoState V) (m0 : OrdMap ℕ V) (n0 : ℕ) (m : OrdMap ℕ V) (n : ℕ) :
    Prop where
  next : u.old_next_id = n0
  ok : ∀ i, (u.slot i).Ok
  takes : ∀ i, (u.entry i).Takes (m0.find? i) (m.find? i)
  fresh : ∀ i, u.entry i = .new → n0 ≤ i
  le : n0 ≤ n

namespace Covers

variable {u u' : UndoState V} {m0 m m' : OrdMap ℕ V} {n0 n n' : ℕ}

section

variable (h : Covers u m0 n0 m n)

include h

theorem entry_upd_iff :
    u.entry i = .upd was ↔ u.old_values.find? i = some was :=
  Slot.entry_eq_upd_iff (h.ok i)

theorem entry_del_iff :
    u.entry i = .del was ↔ u.removed_values.find? i = some was :=
  Slot.entry_eq_del_iff (h.ok i)

theorem old_eq_none (hi : ∀ was, u.entry i ≠ .upd was) :
    u.old_values.find? i = none :=
  Option.eq_none_iff_forall_ne_some.2 fun was hw => hi was (h.entry_upd_iff.2 hw)

theorem removed_eq_none (hi : ∀ was, u.entry i ≠ .del was) :
    u.removed_values.find? i = none :=
  Option.eq_none_iff_forall_ne_some.2 fun was hw => hi was (h.entry_del_iff.2 hw)

end

theorem start (m : OrdMap ℕ V) (n : ℕ) (r : ℤ) : Covers ⟨.empty, .empty, .empty, n, r⟩ m n m n where
  next := rfl
  ok _ := ⟨fun _ => rfl, fun _ => rfl, fun _ => rfl⟩
  takes _ := rfl
  fresh _ h := by cases h
  le := le_refl n

/-- A change of the contents whose entries are applied to the log is covered by the new log. -/
theorem apply (h : Covers u m0 n0 m n) (hbelow : IdsBelow m0 n0) (e : ℕ → Entry V)
    (htakes : ∀ i, (e i).Takes (m.find? i) (m'.find? i)) (hfresh : ∀ i, e i = .new → n ≤ i)
    (hn : n ≤ n') (hnext : u'.old_next_id = u.old_next_id)
    (hslot : ∀ i, u'.slot i = (u.slot i).apply (e i)) : Covers u' m0 n0 m' n' := by
  have hnone : ∀ i, e i = .new → m0.find? i = none := by
    intro i hi
    cases hm : m0.find? i with
    | none => rfl
    | some v =>
      have hlt := hbelow i v hm
      have hle := hfresh i hi
      have := h.le
      omega
  have hadmits : ∀ i, (u.slot i).Admits (e i) := by
    intro i
    have ht := h.takes i
    have ht' := htakes i
    refine ⟨?_, ?_⟩
    · -- a removed object is not in the table, and its id is not fresh
      rintro ⟨was, hdel⟩
      rw [UndoState.entry, hdel] at ht
      obtain ⟨hb, ha⟩ := ht
      rw [ha] at ht'
      cases he : e i with
      | nop => rfl
      | new => rw [hnone i he] at hb; cases hb
      | upd w => rw [he] at ht'; cases ht'.1
      | del w => rw [he] at ht'; cases ht'.1
    · -- a created object was in neither table before
      intro hnew
      rw [hnew] at ht'
      rw [hnone i hnew, ht'.1] at ht
      show u.entry i = .nop
      cases he : u.entry i with
      | nop => rfl
      | new => rw [he] at ht; cases ht.2
      | upd w => rw [he] at ht; cases ht.1
      | del w => rw [he] at ht; cases ht.1
  have hentry : ∀ i, u'.entry i = (u.entry i).merge (e i) := by
    intro i
    unfold UndoState.entry
    rw [hslot, Slot.entry_apply (h.ok i) (hadmits i)]
  refine ⟨hnext.trans h.next, ?_, ?_, ?_, h.le.trans hn⟩
  · intro i
    rw [hslot]
    exact Slot.ok_apply (h.ok i) (hadmits i)
  · intro i
    rw [hentry]
    exact Entry.takes_merge (h.takes i) (htakes i) (hnone i)
  · intro i hi
    rw [hentry] at hi
    rcases Entry.eq_new_of_merge_eq_new hi with hu | ⟨-, he⟩
    · exact h.fresh i hu
    · exact h.le.trans (hfresh i he)

/-- Two nested sessions merge into one. -/
theorem merge {m1 m2 : OrdMap ℕ V} {n1 n2 : ℕ} (h : Covers u m0 n0 m1 n1)
    (h' : Covers u' m1 n1 m2 n2) (hbelow : IdsBelow m0 n0) :
    Covers (mergeState u u') m0 n0 m2 n2 :=
  h.apply hbelow u'.entry h'.takes h'.fresh h'.le (UndoState.mergeState_next u u').1
    fun i => UndoState.slot_mergeState u u' i (h'.ok i)

end Covers

end Calibrd.Chainbase
