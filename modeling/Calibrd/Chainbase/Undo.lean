import Calibrd.Chainbase.ChangeLog

/-!
# `undo` restores the table

`undo` first writes the old values back in id order, then erases the created objects, then puts the
removed ones back. While it writes an old value back, the objects created in the session and the
modified objects with larger ids still hold their new keys. So it fails exactly when one of them
holds a unique key that the object had when the session started (`HandOverFree`); when it does not
fail it restores the table, the next id, the revision and the rest of the stack.
-/

namespace Calibrd.Chainbase

open Calibrd.Lib GenericIndex

variable {V : Type} (ks : List (UniqueKey V))

theorem taken_eq_false_iff (m : OrdMap ℕ V) (i : ℕ) (v : V) :
    taken ks m i v = false ↔
      ∀ j w, m.find? j = some w → j ≠ i → sameKey ks i v j w = false := by
  unfold taken
  rw [List.any_eq_false]
  constructor
  · intro h j w hj hne
    have := h (j, w) (OrdMap.mem_rows.2 hj)
    simpa [hne] using this
  · rintro h ⟨j, w⟩ hj
    by_cases hne : j = i
    · simp [hne]
    · simp [hne, h j w (OrdMap.mem_rows.1 hj) hne]

theorem sameKey_comm (i : ℕ) (v : V) (j : ℕ) (w : V) :
    sameKey ks i v j w = sameKey ks j w i v := by
  unfold sameKey
  congr 1
  funext k
  exact decide_eq_decide.2 eq_comm

/-- The facts about a table that every call keeps: the ids in use were given out, and the unique
keys are unique. -/
structure Wf (g : GenericIndex V) : Prop where
  below : IdsBelow g.indices g.next_id
  unique : KeysUnique ks g.indices

/-! ## One call -/

/-- A call that changes the contents as the entries `e` say and logs them by `f`. -/
structure LoggedBy (e : ℕ → Entry V) (f : UndoState V → UndoState V) (g g' : GenericIndex V) :
    Prop where
  takes : ∀ i, (e i).Takes (g.indices.find? i) (g'.indices.find? i)
  fresh : ∀ i, e i = .new → g.next_id ≤ i
  next_le : g.next_id ≤ g'.next_id
  revision : g'.revision = g.revision
  stack : g'.stack = onTop f g.stack
  top_next : ∀ u, (f u).old_next_id = u.old_next_id
  top_revision : ∀ u, (f u).revision = u.revision
  top_slot : ∀ u i, (f u).slot i = (u.slot i).apply (e i)

variable {l : List (ℕ × V)} {m m0 : OrdMap ℕ V} {u : UndoState V} {i : ℕ}

theorem keysUnique_insert {v : V} (h : KeysUnique ks m) (hfree : taken ks m i v = false) :
    KeysUnique ks (m.insert i v) := by
  rw [taken_eq_false_iff] at hfree
  intro a x b y ha hb hne
  rw [OrdMap.find?_insert] at ha hb
  by_cases hia : i = a
  · subst hia
    rw [if_pos rfl] at ha
    rw [if_neg hne] at hb
    cases ha
    exact hfree b y hb (Ne.symm hne)
  · rw [if_neg hia] at ha
    by_cases hib : i = b
    · subst hib
      rw [if_pos rfl] at hb
      cases hb
      rw [sameKey_comm]
      exact hfree a x ha (Ne.symm hia)
    · rw [if_neg hib] at hb
      exact h a x b y ha hb hne

theorem recordModify_next (u : UndoState V) (i : ℕ) (v : V) :
    (recordModify u i v).old_next_id = u.old_next_id ∧
      (recordModify u i v).revision = u.revision := by
  unfold recordModify
  split
  · exact ⟨rfl, rfl⟩
  · split <;> exact ⟨rfl, rfl⟩

theorem recordRemove_next (u : UndoState V) (i : ℕ) (v : V) :
    (recordRemove u i v).old_next_id = u.old_next_id ∧
      (recordRemove u i v).revision = u.revision := by
  unfold recordRemove
  split
  · exact ⟨rfl, rfl⟩
  · split
    · exact ⟨rfl, rfl⟩
    · split <;> exact ⟨rfl, rfl⟩

private theorem emplace_logged {g g' : GenericIndex V} {v : V} (hg : Wf ks g)
    (h : emplace ks g v = .ok g') :
    Wf ks g' ∧ LoggedBy (fun j => if g.next_id = j then .new else .nop)
      (recordCreate · g.next_id) g g' := by
  unfold emplace containerEmplace at h
  split at h
  · cases h
  · next m hm =>
    cases h
    simp only [Option.ite_none_left_eq_some, Bool.not_eq_true, Bool.or_eq_false_iff,
      Option.some.injEq] at hm
    obtain ⟨⟨habs, hfree⟩, rfl⟩ := hm
    have hnone : g.indices.find? g.next_id = none := by
      simpa [OrdMap.contains] using habs
    refine ⟨⟨?_, keysUnique_insert ks hg.unique hfree⟩, ?_⟩
    · exact OrdMap.forall_insert (fun i w hi => (hg.below i w hi).trans (Nat.lt_succ_self _))
        (Nat.lt_succ_self _)
    · refine ⟨?_, ?_, Nat.le_succ _, rfl, rfl, fun _ => rfl, fun _ => rfl, ?_⟩
      · intro i
        by_cases he : g.next_id = i
        · subst he; simp [Entry.Takes, hnone]
        · simp [Entry.Takes, he]
      · intro i hi
        by_cases he : g.next_id = i
        · exact he.le
        · simp [he] at hi
      · intro u i
        rw [UndoState.slot_recordCreate]
        by_cases he : g.next_id = i <;> simp [he]

private theorem modify_logged {g g' : GenericIndex V} {f : V → V} (hg : Wf ks g)
    (h : GenericIndex.modify ks g i f = .ok g') :
    Wf ks g' ∧ ∃ v, LoggedBy (fun j => if i = j then .upd v else .nop)
      (recordModify · i v) g g' := by
  unfold GenericIndex.modify containerModify at h
  split at h
  · cases h
  · next v hv =>
    by_cases hfree : taken ks g.indices i (f v) = true
    · simp [hfree] at h
    · simp only [hfree, Bool.false_eq_true, ↓reduceIte, Except.ok.injEq] at h
      subst h
      refine ⟨⟨?_, keysUnique_insert ks hg.unique (by simpa using hfree)⟩, v, ?_⟩
      · exact OrdMap.forall_insert hg.below (hg.below i v hv)
      · refine ⟨?_, ?_, le_refl _, rfl, rfl, fun u => (recordModify_next u i v).1,
          fun u => (recordModify_next u i v).2, ?_⟩
        · intro j
          by_cases he : i = j
          · subst he; simp [Entry.Takes, hv]
          · simp [Entry.Takes, he]
        · intro j hj
          by_cases he : i = j <;> simp [he] at hj
        · intro u j
          rw [UndoState.slot_recordModify]
          by_cases he : i = j <;> simp [he]

private theorem remove_logged {g g' : GenericIndex V} (hg : Wf ks g) (h : remove g i = .ok g') :
    Wf ks g' ∧ ∃ v, LoggedBy (fun j => if i = j then .del v else .nop)
      (recordRemove · i v) g g' := by
  unfold remove at h
  split at h
  · cases h
  · next v hv =>
    cases h
    refine ⟨⟨fun j w hj => hg.below j w (OrdMap.find?_of_erase hj), ?_⟩, v, ?_⟩
    · intro a x b y ha hb hne
      exact hg.unique a x b y (OrdMap.find?_of_erase ha) (OrdMap.find?_of_erase hb) hne
    · refine ⟨?_, ?_, le_refl _, rfl, rfl, fun u => (recordRemove_next u i v).1,
        fun u => (recordRemove_next u i v).2, ?_⟩
      · intro j
        by_cases he : i = j
        · subst he; simp [Entry.Takes, hv]
        · simp [Entry.Takes, he]
      · intro j hj
        by_cases he : i = j <;> simp [he] at hj
      · intro u j
        rw [UndoState.slot_recordRemove]
        by_cases he : i = j <;> simp [he]

/-- Everything a successful call does. -/
theorem call_logged {g g' : GenericIndex V} {c : Call V} (hg : Wf ks g)
    (h : call ks g c = .ok g') : Wf ks g' ∧ ∃ e f, LoggedBy e f g g' := by
  cases c with
  | emplace v =>
    obtain ⟨hw, hl⟩ := emplace_logged ks hg h
    exact ⟨hw, _, _, hl⟩
  | modify i f =>
    obtain ⟨hw, v, hl⟩ := modify_logged ks hg h
    exact ⟨hw, _, _, hl⟩
  | remove i =>
    obtain ⟨hw, v, hl⟩ := remove_logged ks hg h
    exact ⟨hw, _, _, hl⟩

/-! ## A run of calls inside a session -/

/-- `g` is inside a session that was opened at `g0`. -/
structure InSession (g0 : GenericIndex V) (u : UndoState V) (g : GenericIndex V) : Prop where
  stack : g.stack = u :: g0.stack
  revision : g.revision = g0.revision + 1
  covers : Covers u g0.indices g0.next_id g.indices g.next_id
  wf : Wf ks g

theorem InSession.start {g : GenericIndex V} (hg : Wf ks g) :
    InSession ks g ⟨.empty, .empty, .empty, g.next_id, g.revision + 1⟩ g.start_undo_session :=
  ⟨rfl, rfl, Covers.start _ _ _, ⟨hg.below, hg.unique⟩⟩

variable {ks}

theorem InSession.call {g0 g g' : GenericIndex V} {c : Call V} (hg0 : Wf ks g0)
    (h : InSession ks g0 u g) (hc : call ks g c = .ok g') :
    ∃ u', InSession ks g0 u' g' := by
  obtain ⟨hw, e, f, hl⟩ := call_logged ks h.wf hc
  refine ⟨f u, ?_, hl.revision.trans h.revision, ?_, hw⟩
  · rw [hl.stack, h.stack]
    rfl
  · exact h.covers.apply hg0.below e hl.takes hl.fresh hl.next_le (hl.top_next u) (hl.top_slot u)

theorem InSession.calls {g0 g' : GenericIndex V} {cs : List (Call V)} (hg0 : Wf ks g0) :
    ∀ {g : GenericIndex V} {u : UndoState V}, InSession ks g0 u g →
      GenericIndex.calls ks g cs = .ok g' → ∃ u', InSession ks g0 u' g' := by
  induction cs with
  | nil =>
    intro g u h hc
    cases hc
    exact ⟨u, h⟩
  | cons c cs ih =>
    intro g u h hc
    rw [GenericIndex.calls, List.foldlM_cons] at hc
    cases hg1 : GenericIndex.call ks g c with
    | error x => rw [hg1] at hc; cases hc
    | ok g1 =>
      rw [hg1] at hc
      obtain ⟨u1, h1⟩ := h.call hg0 hg1
      exact ih h1 hc

variable (ks)

/-! ## The first loop: old values -/

/-- Every old value finds its unique keys free when the loop reaches it. -/
def Fits : List (ℕ × V) → OrdMap ℕ V → Prop
  | [], _ => True
  | (i, was) :: rest, m => taken ks m i was = false ∧ Fits rest (m.insert i was)

private theorem contains_insert {i j : ℕ} {v : V} (h : (m.find? j).isSome) :
    ((m.insert i v).find? j).isSome := by
  rw [OrdMap.find?_insert]
  split
  · rfl
  · exact h

theorem restoreOld_of_fits (hin : ∀ r ∈ l, (m.find? r.1).isSome) (h : Fits ks l m) :
    restoreOld ks l m = .ok (l.foldl (fun m r => m.insert r.1 r.2) m) := by
  induction l generalizing m with
  | nil => rfl
  | cons r l ih =>
    obtain ⟨hfree, hrest⟩ := h
    obtain ⟨x, hx⟩ := Option.isSome_iff_exists.1 (hin r List.mem_cons_self)
    have hin' : ∀ s ∈ l, ((m.insert r.1 r.2).find? s.1).isSome :=
      fun s hs => contains_insert (hin s (List.mem_cons_of_mem _ hs))
    simp only [restoreOld, hx, containerModify, hfree, Bool.false_eq_true, ↓reduceIte,
      List.foldl_cons]
    exact ih hin' hrest

theorem restoreOld_of_not_fits (hin : ∀ r ∈ l, (m.find? r.1).isSome) (h : ¬ Fits ks l m) :
    restoreOld ks l m = .error .modify_failed := by
  induction l generalizing m with
  | nil => exact absurd trivial h
  | cons r l ih =>
    obtain ⟨x, hx⟩ := Option.isSome_iff_exists.1 (hin r List.mem_cons_self)
    by_cases hfree : taken ks m r.1 r.2 = false
    · have hrest : ¬ Fits ks l (m.insert r.1 r.2) := fun hr => h ⟨hfree, hr⟩
      have hin' : ∀ s ∈ l, ((m.insert r.1 r.2).find? s.1).isSome :=
        fun s hs => contains_insert (hin s (List.mem_cons_of_mem _ hs))
      simp only [restoreOld, hx, containerModify, hfree, Bool.false_eq_true, ↓reduceIte]
      exact ih hin' hrest
    · simp only [Bool.not_eq_false] at hfree
      simp only [restoreOld, hx, containerModify, hfree, ↓reduceIte]

/-- The table in the middle of the first loop, with the rows `l` still to restore: `m0` is the table
at the start of the session and `m1` the one at the call of `undo`. -/
private structure Midway (m0 m1 : OrdMap ℕ V) (l : List (ℕ × V)) (m : OrdMap ℕ V) : Prop where
  was : ∀ r ∈ l, m0.find? r.1 = some r.2
  todo : ∀ r ∈ l, m.find? r.1 = m1.find? r.1
  new : ∀ j, m0.find? j = none → m.find? j = m1.find? j
  done : ∀ j w, m0.find? j ≠ none → j ∉ l.map Prod.fst → m.find? j = some w →
    m0.find? j = some w

/-- No row of `l` finds one of its keys at a created object or at a later row of `l`. -/
private def RowsFree (m0 m1 : OrdMap ℕ V) (l : List (ℕ × V)) : Prop :=
  ∀ r ∈ l, ∀ j w, m1.find? j = some w → j ≠ r.1 →
    (m0.find? j = none ∨ r.1 < j ∧ j ∈ l.map Prod.fst) → sameKey ks r.1 r.2 j w = false

variable {ks}

private theorem Midway.tail {m0 m1 m : OrdMap ℕ V} {r : ℕ × V}
    (hs : (r :: l).Pairwise (fun a b => a.1 < b.1)) (h : Midway m0 m1 (r :: l) m) :
    Midway m0 m1 l (m.insert r.1 r.2) := by
  rcases List.pairwise_cons.1 hs with ⟨hr, -⟩
  have hwas := h.was r List.mem_cons_self
  refine ⟨fun s hs' => h.was s (List.mem_cons_of_mem _ hs'), ?_, ?_, ?_⟩
  · intro s hs'
    rw [OrdMap.find?_insert_ne m r.2 (hr s hs').ne]
    exact h.todo s (List.mem_cons_of_mem _ hs')
  · intro j hj
    have hne : r.1 ≠ j := by
      rintro rfl
      rw [hwas] at hj
      cases hj
    rw [OrdMap.find?_insert_ne m r.2 hne]
    exact h.new j hj
  · intro j w hj hnot hw
    rw [OrdMap.find?_insert] at hw
    split at hw
    · next he =>
      cases hw
      exact he ▸ hwas
    · next hne =>
      refine h.done j w hj ?_ hw
      simp only [List.map_cons, List.mem_cons, not_or]
      exact ⟨Ne.symm hne, hnot⟩

/-- In the middle of the loop a row finds its keys free exactly if no created object and no later
row holds one: the restored and the untouched rows are rows of `m0`, whose keys are unique. -/
private theorem Midway.taken_iff {m0 m1 m : OrdMap ℕ V} {r : ℕ × V} (hu : KeysUnique ks m0)
    (hs : (r :: l).Pairwise (fun a b => a.1 < b.1)) (h : Midway m0 m1 (r :: l) m) :
    taken ks m r.1 r.2 = false ↔ ∀ j w, m1.find? j = some w → j ≠ r.1 →
      (m0.find? j = none ∨ r.1 < j ∧ j ∈ (r :: l).map Prod.fst) →
      sameKey ks r.1 r.2 j w = false := by
  rcases List.pairwise_cons.1 hs with ⟨hr, -⟩
  have hwas := h.was r List.mem_cons_self
  rw [taken_eq_false_iff]
  constructor
  · intro hfree j w hj hne hcase
    apply hfree j w _ hne
    rcases hcase with hnew | ⟨-, hmem⟩
    · rw [h.new j hnew, hj]
    · obtain ⟨s, hs', rfl⟩ := List.mem_map.1 hmem
      rw [h.todo s hs', hj]
  · intro hfree j w hj hne
    by_cases hnew : m0.find? j = none
    · exact hfree j w (by rw [← h.new j hnew, hj]) hne (Or.inl hnew)
    · by_cases hmem : j ∈ (r :: l).map Prod.fst
      · obtain ⟨s, hs', rfl⟩ := List.mem_map.1 hmem
        have hlt : r.1 < s.1 := by
          rcases List.mem_cons.1 hs' with rfl | hs'
          · exact absurd rfl hne
          · exact hr s hs'
        exact hfree s.1 w (by rw [← h.todo s hs', hj]) hne (Or.inr ⟨hlt, hmem⟩)
      · exact hu r.1 r.2 j w hwas (h.done j w hnew hmem hj) (Ne.symm hne)

private theorem Midway.fits_iff {m0 m1 m : OrdMap ℕ V} (hu : KeysUnique ks m0)
    (hs : l.Pairwise (fun a b => a.1 < b.1)) (h : Midway m0 m1 l m) :
    Fits ks l m ↔ RowsFree ks m0 m1 l := by
  induction l generalizing m with
  | nil => simp [Fits, RowsFree]
  | cons r l ih =>
    rcases List.pairwise_cons.1 hs with ⟨hr, hl⟩
    have htaken := h.taken_iff hu hs
    have hrest := ih hl (h.tail hs)
    show (taken ks m r.1 r.2 = false ∧ Fits ks l (m.insert r.1 r.2)) ↔ _
    rw [htaken, hrest]
    constructor
    · rintro ⟨hhead, htail⟩ s hs' j w hj hne hcase
      rcases List.mem_cons.1 hs' with rfl | hs''
      · exact hhead j w hj hne hcase
      · -- a later row has no larger id at the head
        refine htail s hs'' j w hj hne (hcase.imp_right fun ⟨hlt, hmem⟩ => ⟨hlt, ?_⟩)
        rcases List.mem_cons.1 hmem with rfl | hmem
        · exact absurd hlt (lt_asymm (hr s hs''))
        · exact hmem
    · intro hall
      refine ⟨hall r List.mem_cons_self, ?_⟩
      intro s hs' j w hj hne hcase
      exact hall s (List.mem_cons_of_mem _ hs') j w hj hne
        (hcase.imp_right fun ⟨hlt, hmem⟩ => ⟨hlt, List.mem_cons_of_mem _ hmem⟩)

/-! ## The other two loops -/

theorem eraseNew_eq {l : List ℕ} (hl : l.Nodup) (hin : ∀ i ∈ l, (m.find? i).isSome) :
    eraseNew l m = .ok (l.foldl (fun m i => m.erase i) m) := by
  induction l generalizing m with
  | nil => rfl
  | cons i l ih =>
    rcases List.nodup_cons.1 hl with ⟨hi, hl⟩
    obtain ⟨x, hx⟩ := Option.isSome_iff_exists.1 (hin i List.mem_cons_self)
    simp only [eraseNew, hx, List.foldl_cons]
    refine ih hl fun j hj => ?_
    have hne : i ≠ j := fun e => hi (e ▸ hj)
    simpa [hne] using hin j (List.mem_cons_of_mem _ hj)

/-- Removed objects go back into a part of the table they come from. -/
theorem restoreRemoved_eq (hu : KeysUnique ks m0) (hs : l.Pairwise (fun a b => a.1 < b.1))
    (hwas : ∀ r ∈ l, m0.find? r.1 = some r.2) (hout : ∀ r ∈ l, m.find? r.1 = none)
    (hsub : ∀ j w, m.find? j = some w → m0.find? j = some w) :
    restoreRemoved ks l m = .ok (l.foldl (fun m r => m.insert r.1 r.2) m) := by
  induction l generalizing m with
  | nil => rfl
  | cons r l ih =>
    rcases List.pairwise_cons.1 hs with ⟨hr, hl⟩
    have hw := hwas r List.mem_cons_self
    have hfree : taken ks m r.1 r.2 = false := by
      rw [taken_eq_false_iff]
      intro j w hj hne
      exact hu r.1 r.2 j w hw (hsub j w hj) (Ne.symm hne)
    simp only [restoreRemoved, containerEmplace, OrdMap.contains, hout r List.mem_cons_self, hfree,
      Option.isSome_none, Bool.or_self, Bool.false_eq_true, ↓reduceIte, List.foldl_cons]
    refine ih hl (fun s hs' => hwas s (List.mem_cons_of_mem _ hs')) ?_ ?_
    · intro s hs'
      rw [OrdMap.find?_insert_ne m r.2 (hr s hs').ne]
      exact hout s (List.mem_cons_of_mem _ hs')
    · exact OrdMap.forall_insert hsub hw

variable (ks)

/-! ## Undo -/

/-- No object that outlives the session had, when the session started, a unique key that is now held
by an object created in the session or by one with a larger id. -/
def HandOverFree (m0 m : OrdMap ℕ V) : Prop :=
  ∀ i v, m0.find? i = some v → (m.find? i).isSome → ∀ j w, m.find? j = some w → j ≠ i →
    (m0.find? j = none ∨ i < j) → sameKey ks i v j w = false

variable {ks}

private theorem rowsFree_iff {n0 n : ℕ} (h : Covers u m0 n0 m n) (hu0 : KeysUnique ks m0)
    (hu : KeysUnique ks m) :
    RowsFree ks m0 m u.old_values.rows ↔ HandOverFree ks m0 m := by
  constructor
  · intro hfree i v hi hin j w hj hne hcase
    have hti := h.takes i
    cases hei : u.entry i with
    | nop =>
      rw [hei] at hti
      exact hu i v j w (hti ▸ hi) hj (Ne.symm hne)
    | new => rw [hei, hi] at hti; cases hti.1
    | del was => rw [hei] at hti; rw [hti.2] at hin; cases hin
    | upd was =>
      rw [hei, hi] at hti
      cases hti.1
      have hrow : (i, v) ∈ u.old_values.rows :=
        OrdMap.mem_rows.2 (h.entry_upd_iff.1 hei)
      rcases hcase with hnew | hlt
      · exact hfree (i, v) hrow j w hj hne (Or.inl hnew)
      · have htj := h.takes j
        cases hej : u.entry j with
        | nop =>
          rw [hej] at htj
          exact hu0 i v j w hi (htj.trans hj) (Ne.symm hne)
        | new =>
          rw [hej] at htj
          exact hfree (i, v) hrow j w hj hne (Or.inl htj.1)
        | del was => rw [hej, hj] at htj; cases htj.2
        | upd was =>
          have hmem : j ∈ u.old_values.rows.map Prod.fst :=
            OrdMap.mem_keys.2 ⟨was, h.entry_upd_iff.1 hej⟩
          exact hfree (i, v) hrow j w hj hne (Or.inr ⟨hlt, hmem⟩)
  · rintro hfree ⟨i, v⟩ hrow j w hj hne hcase
    have hei : u.entry i = .upd v := h.entry_upd_iff.2 (OrdMap.mem_rows.1 hrow)
    have hti := h.takes i
    rw [hei] at hti
    exact hfree i v hti.1 hti.2 j w hj hne (hcase.imp_right And.left)

/-- The table before the third loop: the rows of `m0` that were not removed. -/
private theorem find?_before_restore {n0 n : ℕ} (h : Covers u m0 n0 m n) (j : ℕ) :
    (u.new_ids.keys.foldl (fun m i => m.erase i)
      (u.old_values.rows.foldl (fun m r => m.insert r.1 r.2) m)).find? j =
      if j ∈ u.removed_values.keys then none else m0.find? j := by
  have ht := h.takes j
  rw [OrdMap.find?_foldl_erase, OrdMap.find?_foldl_insert]
  cases he : u.entry j with
  | nop =>
    rw [he] at ht
    have hnew : j ∉ u.new_ids.keys := by rw [← UndoState.entry_new_iff, he]; simp
    have hrem : j ∉ u.removed_values.keys := by
      rw [OrdMap.mem_keys, h.removed_eq_none (by simp [he])]
      simp
    rw [if_neg hnew, if_neg hrem, h.old_eq_none (by simp [he]), Option.none_or]
    exact ht.symm
  | new =>
    rw [he] at ht
    have hrem : j ∉ u.removed_values.keys := by
      rw [OrdMap.mem_keys, h.removed_eq_none (by simp [he])]
      simp
    rw [if_pos (UndoState.entry_new_iff.1 he), if_neg hrem]
    exact ht.1.symm
  | upd was =>
    rw [he] at ht
    have hnew : j ∉ u.new_ids.keys := by rw [← UndoState.entry_new_iff, he]; simp
    have hrem : j ∉ u.removed_values.keys := by
      rw [OrdMap.mem_keys, h.removed_eq_none (by simp [he])]
      simp
    rw [if_neg hnew, if_neg hrem, h.entry_upd_iff.1 he, Option.some_or]
    exact ht.1.symm
  | del was =>
    rw [he] at ht
    have hnew : j ∉ u.new_ids.keys := by rw [← UndoState.entry_new_iff, he]; simp
    have hrem : j ∈ u.removed_values.keys := OrdMap.mem_keys.2 ⟨was, h.entry_del_iff.1 he⟩
    rw [if_neg hnew, if_pos hrem, h.old_eq_none (by simp [he]), Option.none_or]
    exact ht.2

/-- Once the old values are back, the other two loops cannot fail and restore the table. -/
private theorem undo_loops {n0 n : ℕ} (h : Covers u m0 n0 m n) (hu0 : KeysUnique ks m0) :
    let m1 := u.old_values.rows.foldl (fun m r => m.insert r.1 r.2) m
    let m2 := u.new_ids.keys.foldl (fun m i => m.erase i) m1
    eraseNew u.new_ids.keys m1 = .ok m2 ∧ restoreRemoved ks u.removed_values.rows m2 = .ok m0 := by
  intro m1 m2
  have hm2 : ∀ j, m2.find? j = if j ∈ u.removed_values.keys then none else m0.find? j :=
    find?_before_restore h
  have hwas : ∀ r ∈ u.removed_values.rows, m0.find? r.1 = some r.2 := by
    intro r hr
    have ht := h.takes r.1
    rw [h.entry_del_iff.2 (OrdMap.mem_rows.1 hr)] at ht
    exact ht.1
  refine ⟨eraseNew_eq u.new_ids.nodup_keys ?_, ?_⟩
  · intro i hi
    have ht := h.takes i
    rw [UndoState.entry_new_iff.2 hi] at ht
    rw [OrdMap.find?_foldl_insert]
    cases u.old_values.find? i with
    | none => exact ht.2
    | some v => rfl
  · rw [restoreRemoved_eq hu0 u.removed_values.sorted hwas]
    · congr 1
      apply OrdMap.ext_find
      intro j
      rw [OrdMap.find?_foldl_insert, hm2]
      cases hr : u.removed_values.find? j with
      | none =>
        have hnot : j ∉ u.removed_values.keys := by rw [OrdMap.mem_keys, hr]; simp
        rw [if_neg hnot, Option.none_or]
      | some was => exact (hwas (j, was) (OrdMap.mem_rows.2 hr)).symm
    · intro r hr
      rw [hm2, if_pos (OrdMap.mem_keys.2 ⟨r.2, OrdMap.mem_rows.1 hr⟩)]
    · intro j w hj
      rw [hm2] at hj
      split at hj
      · cases hj
      · exact hj

/-- `undo` in a session: it gives back the index the session was opened at, or fails to write an
old value back. -/
theorem InSession.undo {g0 g : GenericIndex V} (hg0 : Wf ks g0) (h : InSession ks g0 u g) :
    (HandOverFree ks g0.indices g.indices → undo ks g = .ok g0) ∧
      (¬ HandOverFree ks g0.indices g.indices → undo ks g = .error .modify_failed) := by
  have hmid : Midway g0.indices g.indices u.old_values.rows g.indices := by
    have hupd : ∀ r ∈ u.old_values.rows, u.entry r.1 = .upd r.2 := fun r hr =>
      h.covers.entry_upd_iff.2 (OrdMap.mem_rows.1 hr)
    refine ⟨?_, fun _ _ => rfl, fun _ _ => rfl, ?_⟩
    · intro r hr
      have ht := h.covers.takes r.1
      rw [hupd r hr] at ht
      exact ht.1
    · intro j w hj hnot hw
      have ht := h.covers.takes j
      cases he : u.entry j with
      | nop => rw [he] at ht; exact ht.trans hw
      | new => rw [he] at ht; exact absurd ht.1 hj
      | upd was => exact absurd (OrdMap.mem_keys.2 ⟨was, h.covers.entry_upd_iff.1 he⟩) hnot
      | del was => rw [he, hw] at ht; cases ht.2
  have hin : ∀ r ∈ u.old_values.rows, (g.indices.find? r.1).isSome := by
    intro r hr
    have ht := h.covers.takes r.1
    rw [h.covers.entry_upd_iff.2 (OrdMap.mem_rows.1 hr)] at ht
    exact ht.2
  have hfits : Fits ks u.old_values.rows g.indices ↔ HandOverFree ks g0.indices g.indices :=
    (hmid.fits_iff hg0.unique u.old_values.sorted).trans
      (rowsFree_iff h.covers hg0.unique h.wf.unique)
  simp only [GenericIndex.undo, h.stack]
  refine ⟨fun hfree => ?_, fun hfree => ?_⟩
  · obtain ⟨hnew, hrem⟩ := undo_loops h.covers hg0.unique
    rw [restoreOld_of_fits ks hin (hfits.2 hfree)]
    simp only [bind, Except.bind, hnew, hrem, pure, Except.pure, h.revision, h.covers.next,
      add_sub_cancel_right]
  · rw [restoreOld_of_not_fits ks hin (mt hfits.1 hfree)]
    rfl

/-- After any successful calls in a session, `undo` completes and leaves the contents, the next id
and the revision as they were exactly if no key was handed over. -/
theorem undo_restores_iff (ks : List (UniqueKey V)) (g : GenericIndex V) (hg : Wf ks g)
    (cs : List (Call V)) (g' : GenericIndex V)
    (h : GenericIndex.calls ks g.start_undo_session cs = .ok g') :
    (∃ g'', GenericIndex.undo ks g' = .ok g'' ∧ g''.indices = g.indices ∧
        g''.next_id = g.next_id ∧ g''.revision = g.revision) ↔
      HandOverFree ks g.indices g'.indices := by
  obtain ⟨u, hu⟩ := (InSession.start ks hg).calls hg h
  obtain ⟨hok, herr⟩ := hu.undo hg
  constructor
  · rintro ⟨g'', hundo, -⟩
    by_contra hfree
    rw [herr hfree] at hundo
    cases hundo
  · intro hfree
    exact ⟨g, hok hfree, rfl, rfl, rfl⟩

/-- A table of numbers with the number itself as a unique key. -/
def byValue : List (UniqueKey ℕ) := [⟨ℕ, inferInstance, fun _ v => v⟩]

/-- The table with the one object 5, at id 0. -/
def oneRow : GenericIndex ℕ := ⟨[], 0, 1, ⟨[(0, 5)], List.pairwise_singleton _ _⟩⟩

theorem wf_oneRow : Wf byValue oneRow where
  below i v h := by
    have := OrdMap.mem_rows.2 h
    simp only [oneRow, List.mem_singleton, Prod.mk.injEq] at this
    show i < 1
    omega
  unique i v j w hi hj hne := by
    have h1 := OrdMap.mem_rows.2 hi
    have h2 := OrdMap.mem_rows.2 hj
    simp only [oneRow, List.mem_singleton, Prod.mk.injEq] at h1 h2
    exact absurd (h1.1.trans h2.1.symm) hne

/-- The object moves to another key, and a new object takes the key it had: `undo` finds the key
taken and throws. -/
theorem undo_throws_on_hand_over :
    Wf byValue oneRow ∧
      ∃ g', GenericIndex.calls byValue oneRow.start_undo_session
          [.modify 0 (fun _ => 6), .emplace 5] = .ok g' ∧
        GenericIndex.undo byValue g' = .error .modify_failed :=
  ⟨wf_oneRow, _, rfl, rfl⟩

/-- The table with the objects 5 and 8, at the ids 0 and 1. -/
def twoRows : GenericIndex ℕ := ⟨[], 0, 2, ⟨[(0, 5), (1, 8)], by decide⟩⟩

/-- The first object changes, the second is removed, and a new one takes the key of the second. -/
theorem undo_restores_iff_twoRows :
    ∃ g' g'', GenericIndex.calls byValue twoRows.start_undo_session
        [.modify 0 (fun _ => 6), .remove 1, .emplace 8] = .ok g' ∧
      g'.indices.rows = [(0, 6), (2, 8)] ∧ GenericIndex.undo byValue g' = .ok g'' ∧
      g''.indices = twoRows.indices ∧ g''.next_id = 2 ∧ g''.revision = 0 := by
  have hwf : Wf byValue twoRows := by
    have hemplace : call byValue oneRow (.emplace 8) = .ok twoRows := rfl
    exact (call_logged byValue wf_oneRow hemplace).1
  obtain ⟨g', hcalls, hrows⟩ : ∃ g', GenericIndex.calls byValue twoRows.start_undo_session
      [.modify 0 (fun _ => 6), .remove 1, .emplace 8] = .ok g' ∧
        g'.indices.rows = [(0, 6), (2, 8)] := ⟨_, rfl, rfl⟩
  have hfree : HandOverFree byValue twoRows.indices g'.indices := by
    intro i v hi hin j w hj hne hcase
    have hbefore : (i, v) ∈ [(0, 5), (1, 8)] := OrdMap.mem_rows.2 hi
    obtain ⟨x, hx⟩ := Option.isSome_iff_exists.1 hin
    have hstill := OrdMap.mem_rows.2 hx
    have hafter := OrdMap.mem_rows.2 hj
    rw [hrows] at hstill hafter
    simp only [List.mem_cons, List.not_mem_nil, or_false, Prod.mk.injEq] at hbefore hstill hafter
    -- the second object is gone, so only the key of the first may be held by another
    obtain ⟨rfl, rfl⟩ | ⟨rfl, rfl⟩ := hbefore
    · obtain ⟨rfl, rfl⟩ | ⟨rfl, rfl⟩ := hafter
      · exact absurd rfl hne
      · rfl
    · omega
  obtain ⟨g'', hundo, hrestored⟩ :=
    (undo_restores_iff byValue twoRows hwf _ g' hcalls).2 hfree
  exact ⟨g', g'', hcalls, hrows, hundo, hrestored⟩

end Calibrd.Chainbase
