import Calibrd.Chainbase.Undo

/-!
# `squash` composes sessions

`squash` leaves the table alone and merges the log of the inner session into the log of the outer
one. The merged log covers both sessions (`Covers.merge`), so it is undone like one session that was
opened where the outer one was. The run lemma (`Nested.acts`) follows this through any script of
calls, further sessions, squashes and undos above the session.
-/

namespace Calibrd.Chainbase

open Calibrd.Lib GenericIndex

variable {V : Type} {ks : List (UniqueKey V)}

/-- Squashing a session that was opened inside another one leaves the outer session open. -/
theorem InSession.squash {g0 g₁ g : GenericIndex V} {u₁ u₂ : UndoState V} (hg0 : Wf ks g0)
    (h₁ : InSession ks g0 u₁ g₁) (h₂ : InSession ks g₁ u₂ g) :
    InSession ks g0 (mergeState u₁ u₂) g.squash := by
  have hstack : g.stack = u₂ :: u₁ :: g0.stack := by rw [h₂.stack, h₁.stack]
  have hsquash : g.squash =
      { g with stack := mergeState u₁ u₂ :: g0.stack, revision := g.revision - 1 } := by
    simp only [GenericIndex.squash, hstack]
  rw [hsquash]
  refine ⟨rfl, ?_, h₁.covers.merge h₂.covers hg0.below, ⟨h₂.wf.below, h₂.wf.unique⟩⟩
  rw [h₂.revision, h₁.revision, add_sub_cancel_right]

theorem squash_table (g : GenericIndex V) :
    g.squash.indices = g.indices ∧ g.squash.next_id = g.next_id := by
  unfold GenericIndex.squash
  split <;> exact ⟨rfl, rfl⟩

/-- With no unique key besides the id there is nothing to hand over. -/
theorem handOverFree_nil (m0 m : OrdMap ℕ V) : HandOverFree [] m0 m :=
  fun _ _ _ _ _ _ _ _ _ => rfl

/-! ## Scripts above a session -/

/-- An action on an index with open sessions. -/
inductive Act (V : Type) where
  | call (c : Call V)
  | start
  | squash
  | undo

variable (ks)

def act (g : GenericIndex V) : Act V → Except IndexError (GenericIndex V)
  | .call c => GenericIndex.call ks g c
  | .start => .ok g.start_undo_session
  | .squash => .ok g.squash
  | .undo => GenericIndex.undo ks g

def acts (g : GenericIndex V) (as : List (Act V)) : Except IndexError (GenericIndex V) :=
  as.foldlM (act ks) g

/-- The number of sessions open above the base after a script, if none of its squashes and undos
reaches the lowest of them. -/
def depthAfter : ℕ → List (Act V) → Option ℕ
  | d, [] => some d
  | d, .call _ :: as => depthAfter d as
  | d, .start :: as => depthAfter (d + 1) as
  | d, .squash :: as => if 2 ≤ d then depthAfter (d - 1) as else none
  | d, .undo :: as => if 2 ≤ d then depthAfter (d - 1) as else none

/-- `undo`, as many times as given. -/
def undoTimes : ℕ → GenericIndex V → Except IndexError (GenericIndex V)
  | 0, g => .ok g
  | d + 1, g => GenericIndex.undo ks g >>= undoTimes d

/-- `d` sessions are open above the index `g`, each in the one before. -/
inductive Nested (g : GenericIndex V) : ℕ → GenericIndex V → Prop where
  | base : Nested g 0 g
  | opened {d : ℕ} {g0 g' : GenericIndex V} {u : UndoState V} :
      Nested g d g0 → InSession ks g0 u g' → Nested g (d + 1) g'

variable {ks}

theorem Nested.wf {g g' : GenericIndex V} {d : ℕ} (hg : Wf ks g) (h : Nested ks g d g') :
    Wf ks g' := by
  cases h with
  | base => exact hg
  | opened _ hs => exact hs.wf

/-- One action of a script without further unique keys. -/
theorem Nested.act {g g₁ g₂ : GenericIndex V} (hg : Wf [] g) {a : Act V} {d d' : ℕ}
    {as : List (Act V)} (h : Nested [] g (d + 1) g₁) (hd : depthAfter (d + 1) (a :: as) = some d')
    (ha : Chainbase.act [] g₁ a = .ok g₂) :
    ∃ e, Nested [] g (e + 1) g₂ ∧ depthAfter (e + 1) as = some d' := by
  cases h with
  | @opened _ g0 _ u h0 hs =>
    have hw0 : Wf [] g0 := h0.wf hg
    cases a with
    | call c =>
      obtain ⟨u', hs'⟩ := hs.call hw0 ha
      exact ⟨d, .opened h0 hs', hd⟩
    | start =>
      cases ha
      exact ⟨d + 1, .opened (.opened h0 hs) (InSession.start [] hs.wf), hd⟩
    | squash =>
      cases ha
      simp only [depthAfter] at hd
      split at hd
      · next hle =>
        -- at least two sessions are open, so the session below the top one is there to merge into
        cases h0 with
        | base => omega
        | @opened e gb _ ub hb hsb =>
          exact ⟨e, .opened hb (hsb.squash (hb.wf hg) hs), hd⟩
      · cases hd
    | undo =>
      have hundo : GenericIndex.undo [] g₁ = .ok g0 :=
        (hs.undo hw0).1 (handOverFree_nil _ _)
      have he : g0 = g₂ := by
        simp only [Chainbase.act, hundo, Except.ok.injEq] at ha
        exact ha
      subst he
      simp only [depthAfter] at hd
      split at hd
      · next hle =>
        cases h0 with
        | base => omega
        | @opened e gb _ ub hb hsb => exact ⟨e, .opened hb hsb, hd⟩
      · cases hd

/-- A whole script leaves as many sessions open above the base as it counts. -/
theorem Nested.acts {g g₂ : GenericIndex V} (hg : Wf [] g) {as : List (Act V)} {d' : ℕ} :
    ∀ {d : ℕ} {g₁ : GenericIndex V}, Nested [] g (d + 1) g₁ → depthAfter (d + 1) as = some d' →
      Chainbase.acts [] g₁ as = .ok g₂ → Nested [] g d' g₂ := by
  induction as with
  | nil =>
    intro d g₁ h hd ha
    cases hd
    cases ha
    exact h
  | cons a as ih =>
    intro d g₁ h hd ha
    rw [Chainbase.acts, List.foldlM_cons] at ha
    cases hg1 : Chainbase.act [] g₁ a with
    | error x => rw [hg1] at ha; cases ha
    | ok g' =>
      rw [hg1] at ha
      obtain ⟨e, h', hd'⟩ := h.act hg hd hg1
      exact ih h' hd' ha

/-- Undoing every open session gives the base back. -/
theorem Nested.undoTimes {g : GenericIndex V} (hg : Wf [] g) :
    ∀ {d : ℕ} {g' : GenericIndex V}, Nested [] g d g' → Chainbase.undoTimes [] d g' = .ok g
  | 0, _, .base => rfl
  | d + 1, g', .opened h hs => by
    have hundo := (hs.undo (h.wf hg)).1 (handOverFree_nil _ _)
    rw [Chainbase.undoTimes, hundo]
    exact h.undoTimes hg

/-- For a table whose only unique key is the id: squashing the inner of two sessions leaves the
contents and the next id as they are, and undoing the squashed session gives the same contents and
next id as undoing the two sessions one after the other. And after any script of calls, sessions,
squashes and undos above a session, undoing the sessions that are left gives back the index at which
the lowest was opened; when all the others were squashed into it, one undo does. -/
theorem squash_composes (g : GenericIndex V) (hg : Wf [] g) :
    (∀ cs₁ cs₂ g₁ g₂, GenericIndex.calls [] g.start_undo_session cs₁ = .ok g₁ →
      GenericIndex.calls [] g₁.start_undo_session cs₂ = .ok g₂ →
      g₂.squash.indices = g₂.indices ∧ g₂.squash.next_id = g₂.next_id ∧
        ∃ a b c, GenericIndex.undo [] g₂.squash = .ok a ∧ GenericIndex.undo [] g₂ = .ok b ∧
          GenericIndex.undo [] b = .ok c ∧ a.indices = c.indices ∧ a.next_id = c.next_id) ∧
    (∀ as d g', depthAfter 1 as = some d → acts [] g.start_undo_session as = .ok g' →
      undoTimes [] d g' = .ok g) := by
  refine ⟨?_, ?_⟩
  · intro cs₁ cs₂ g₁ g₂ h₁ h₂
    obtain ⟨u₁, hs₁⟩ := (InSession.start [] hg).calls hg h₁
    obtain ⟨u₂, hs₂⟩ := (InSession.start [] hs₁.wf).calls hs₁.wf h₂
    refine ⟨(squash_table g₂).1, (squash_table g₂).2, g, g₁, g, ?_, ?_, ?_, rfl, rfl⟩
    · exact ((hs₁.squash hg hs₂).undo hg).1 (handOverFree_nil _ _)
    · exact (hs₂.undo hs₁.wf).1 (handOverFree_nil _ _)
    · exact (hs₁.undo hg).1 (handOverFree_nil _ _)
  · intro as d g' hd ha
    have hstart : Nested [] g 1 g.start_undo_session := .opened .base (InSession.start [] hg)
    exact (hstart.acts hg hd ha).undoTimes hg

/-- Two sessions above the table with the object 5: the outer one updates it, the inner one removes
it and creates another, and the inner one is squashed. -/
def updateRemoveSquash : List (Act ℕ) :=
  [.call (.modify 0 (fun _ => 6)), .start, .call (.remove 0), .call (.emplace 7), .squash]

theorem squash_composes_oneRow :
    Wf [] oneRow ∧ depthAfter 1 updateRemoveSquash = some 1 ∧
      ∃ g', acts [] oneRow.start_undo_session updateRemoveSquash = .ok g' ∧
        undoTimes [] 1 g' = .ok oneRow := by
  have hw : Wf [] oneRow := ⟨wf_oneRow.below, fun _ _ _ _ _ _ _ => rfl⟩
  exact ⟨hw, rfl, _, rfl, (squash_composes oneRow hw).2 updateRemoveSquash 1 _ rfl rfl⟩

end Calibrd.Chainbase
