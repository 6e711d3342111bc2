import Mathlib

/-!
# Programs with a state that survives exceptions

A program that throws leaves the state as it was at the throw: what was done is not rolled back
unless a handler or a destructor does it. `Stateful` is this meaning of C++ code with exceptions,
with the rules for predicates that no step breaks (`Preserves`) and the inversion rules for
sequences.
-/

namespace Calibrd.Lib

def Stateful (σ ε α : Type) : Type := σ → Except ε α × σ

namespace Stateful

variable {σ ε α β : Type}

instance : Monad (Stateful σ ε) where
  pure a := fun s => (.ok a, s)
  bind m f := fun s =>
    match m s with
    | (.ok a, s') => f a s'
    | (.error e, s') => (.error e, s')

def raise (e : ε) : Stateful σ ε α := fun s => (.error e, s)

def get : Stateful σ ε σ := fun s => (.ok s, s)

def update (f : σ → σ) : Stateful σ ε Unit := fun s => (.ok (), f s)

/-- `FC_ASSERT`. -/
def assert (c : Bool) (e : ε) : Stateful σ ε Unit := if c then pure () else raise e

/-- `try { m } catch( e ) { handler e }`. -/
def attempt (m : Stateful σ ε α) (handler : ε → Stateful σ ε α) : Stateful σ ε α := fun s =>
  match m s with
  | (.ok a, s') => (.ok a, s')
  | (.error e, s') => handler e s'

/-- `m` in the scope of an object whose destructor runs however `m` ends, and lets no exception out. -/
def withDestructor (m : Stateful σ ε α) (destructor : Stateful σ ε Unit) : Stateful σ ε α := fun s =>
  ((m s).1, (destructor (m s).2).2)

/-- A loop over a list. -/
def forEach (l : List β) (body : β → Stateful σ ε Unit) : Stateful σ ε Unit :=
  match l with
  | [] => pure ()
  | b :: rest => body b >>= fun _ => forEach rest body

@[simp] theorem get_apply (s : σ) : (get : Stateful σ ε σ) s = (.ok s, s) := rfl

@[simp] theorem update_apply (f : σ → σ) (s : σ) :
    (update f : Stateful σ ε Unit) s = (.ok (), f s) := rfl

theorem bind_apply (m : Stateful σ ε α) (f : α → Stateful σ ε β) (s : σ) :
    (m >>= f) s =
      match m s with
      | (.ok a, s') => f a s'
      | (.error e, s') => (.error e, s') := rfl

variable {m : Stateful σ ε α} {f : α → Stateful σ ε β} {handler : ε → Stateful σ ε α}

theorem bind_of_ok {s s' : σ} {a : α} (h : m s = (.ok a, s')) : (m >>= f) s = f a s' := by
  rw [bind_apply, h]

theorem bind_of_error {s s' : σ} {e : ε} (h : m s = (.error e, s')) :
    (m >>= f) s = (.error e, s') := by
  rw [bind_apply, h]

theorem get_bind_apply (f : σ → Stateful σ ε β) (s : σ) : (get >>= f) s = f s s := rfl

theorem attempt_of_ok {s s' : σ} {a : α} (h : m s = (.ok a, s')) :
    attempt m handler s = (.ok a, s') := by
  simp only [attempt, h]

theorem attempt_of_error {s s' : σ} {e : ε} (h : m s = (.error e, s')) :
    attempt m handler s = handler e s' := by
  simp only [attempt, h]

theorem bind_assoc {γ : Type} (m : Stateful σ ε α) (f : α → Stateful σ ε β)
    (g : β → Stateful σ ε γ) : m >>= f >>= g = m >>= fun a => f a >>= g := by
  funext s
  simp only [bind_apply]
  cases m s with
  | mk r s1 => cases r <;> rfl

theorem bind_eq_ok {s s' : σ} {b : β} (h : (m >>= f) s = (.ok b, s')) :
    ∃ a s1, m s = (.ok a, s1) ∧ f a s1 = (.ok b, s') := by
  rw [bind_apply] at h
  cases hm : m s with
  | mk r s1 =>
    rw [hm] at h
    cases r with
    | ok a => exact ⟨a, s1, rfl, h⟩
    | error e => cases h

/-- What is returned has no influence on the state. -/
theorem bind_pure_snd (m : Stateful σ ε α) (f : α → β) (s : σ) :
    ((m >>= fun a => pure (f a)) s).2 = (m s).2 := by
  rw [bind_apply]
  cases m s with
  | mk r s' => cases r <;> rfl

theorem assert_apply (c : Bool) (e : ε) (s : σ) :
    (assert c e : Stateful σ ε Unit) s = (if c then .ok () else .error e, s) := by
  cases c <;> rfl

/-! ## Programs that return -/

/-- The program returns from the state, whatever it returns. -/
def Returns (m : Stateful σ ε α) (s : σ) : Prop := ∃ a, (m s).1 = .ok a

theorem returns_bind_iff {s : σ} :
    Returns (m >>= f) s ↔ ∃ a s', m s = (.ok a, s') ∧ Returns (f a) s' := by
  unfold Returns
  rw [bind_apply]
  cases m s with
  | mk r s1 =>
    cases r with
    | error e => simp
    | ok a =>
      constructor
      · exact fun h => ⟨a, s1, rfl, h⟩
      · rintro ⟨a', s', h, hret⟩
        cases h
        exact hret

theorem not_returns_raise (e : ε) (s : σ) : ¬ Returns (raise e : Stateful σ ε α) s := by
  rintro ⟨a, h⟩
  cases h

theorem not_returns_bind_raise (m : Stateful σ ε α) (e : ε) (s : σ) :
    ¬ Returns (m >>= fun _ => raise e : Stateful σ ε β) s := by
  rw [returns_bind_iff]
  rintro ⟨a, s', -, h⟩
  exact not_returns_raise e s' h

/-- A handler that throws again plays no part in what returns. -/
theorem eq_ok_of_attempt {s s' : σ} {a : α} (h : ∀ e s, ¬ Returns (handler e) s)
    (hres : attempt m handler s = (.ok a, s')) :
    m s = (.ok a, s') := by
  cases hm : m s with
  | mk r s1 =>
    cases r with
    | ok a' => exact (attempt_of_ok hm).symm.trans hres
    | error e =>
      rw [attempt_of_error hm] at hres
      exact absurd ⟨a, congrArg Prod.fst hres⟩ (h e s1)

/-! ## Predicates that hold throughout -/

/-- The program keeps `P`, whether it returns or throws. -/
def Preserves (P : σ → Prop) (m : Stateful σ ε α) : Prop := ∀ s, P s → P (m s).2

namespace Preserves

variable {P : σ → Prop}

theorem pure (a : α) : Preserves P (Pure.pure a : Stateful σ ε α) := fun _ h => h

theorem raise (e : ε) : Preserves P (Stateful.raise e : Stateful σ ε α) := fun _ h => h

theorem get : Preserves P (Stateful.get : Stateful σ ε σ) := fun _ h => h

theorem update {f : σ → σ} (hf : ∀ s, P s → P (f s)) :
    Preserves P (Stateful.update f : Stateful σ ε Unit) := hf

theorem assert (c : Bool) (e : ε) : Preserves P (Stateful.assert c e : Stateful σ ε Unit) := by
  intro s h
  rw [assert_apply]
  exact h

theorem bind (hm : Preserves P m) (hf : ∀ a, Preserves P (f a)) : Preserves P (m >>= f) := by
  intro s h
  have h1 := hm s h
  rw [bind_apply]
  cases hr : m s with
  | mk r s1 =>
    rw [hr] at h1
    cases r with
    | ok a => exact hf a s1 h1
    | error e => exact h1

/-- After reading the state, what follows need only keep `P` for states that satisfy it. -/
theorem get_bind {f : σ → Stateful σ ε β} (hf : ∀ s, P s → P (f s s).2) :
    Preserves P (Stateful.get >>= f) := hf

theorem attempt (hm : Preserves P m) (hh : ∀ e, Preserves P (handler e)) :
    Preserves P (Stateful.attempt m handler) := by
  intro s h
  have h1 := hm s h
  unfold Stateful.attempt
  cases hr : m s with
  | mk r s1 =>
    rw [hr] at h1
    cases r with
    | ok a => exact h1
    | error e => exact hh e s1 h1

theorem forEach {l : List β} {body : β → Stateful σ ε Unit}
    (hb : ∀ b ∈ l, Preserves P (body b)) : Preserves P (Stateful.forEach l body) := by
  induction l with
  | nil => exact Preserves.pure ()
  | cons b rest ih =>
    refine bind (hb b List.mem_cons_self) fun _ => ?_
    exact ih fun c hc => hb c (List.mem_cons_of_mem _ hc)

theorem withDestructor {destructor : Stateful σ ε Unit} (hm : Preserves P m)
    (hd : Preserves P destructor) : Preserves P (Stateful.withDestructor m destructor) :=
  fun s h => hd _ (hm s h)

end Preserves

end Stateful

end Calibrd.Lib
