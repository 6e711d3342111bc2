import Mathlib

/-!
# Programs that check and throw

`check` is an assertion in `Except`. A chain of checks that returns has passed each of them, which
the rules below turn into one step each. Loops (`mapM`, `foldlM`) return if every round
does (`mapM_eq_ok`) and keep what every round keeps (`foldlM_rule`).

`Throws x E` bounds the errors of a program; its rules go through the program in the order of its steps.
-/

namespace Calibrd.Lib

variable {ε ε' α β : Type}

/-- An assertion with the error it throws. -/
def check (cond : Bool) (e : ε) : Except ε Unit := if cond then .ok () else .error e

variable {cond : Bool} {e : ε} {l : List α} {b : β} {f : α → Except ε β} {x : Except ε α}

theorem check_eq_ok : check cond e = .ok () ↔ cond = true := by
  cases cond <;> simp [check]

theorem bind_ok :
    (x >>= f) = .ok b ↔ ∃ a, x = .ok a ∧ f a = .ok b := by
  cases x with
  | ok a => exact ⟨fun h => ⟨a, rfl, h⟩, fun ⟨a', ha, h⟩ => by cases ha; exact h⟩
  | error e => exact ⟨nofun, fun ⟨_, ha, _⟩ => nomatch ha⟩

/-- With `bind_ok`, this takes a whole chain of checks and calls apart. -/
theorem exists_check_eq_ok {p : Unit → Prop} :
    (∃ a, check cond e = .ok a ∧ p a) ↔ cond = true ∧ p () :=
  ⟨fun ⟨_, h, hp⟩ => ⟨check_eq_ok.1 h, hp⟩, fun ⟨h, hp⟩ => ⟨(), check_eq_ok.2 h, hp⟩⟩

theorem check_bind_ok {x : Except ε β} :
    (check cond e >>= fun _ => x) = .ok b ↔ cond = true ∧ x = .ok b := by
  rw [bind_ok]
  exact exists_check_eq_ok

theorem check_decide_ok {p : Prop} [Decidable p] {x : Except ε β} :
    (check (decide p) e >>= fun _ => x) = .ok b ↔ p ∧ x = .ok b := by
  rw [check_bind_ok, decide_eq_true_iff]

theorem ok_of_check {x : Except ε β} (h : (check cond e >>= fun _ => x) = .ok b) : x = .ok b :=
  (check_bind_ok.1 h).2

theorem map_eq_ok {f : α → β} :
    f <$> x = .ok b ↔ ∃ a, x = .ok a ∧ f a = b := by
  cases x <;> simp

/-- From a run that is evaluated to what it returns. -/
theorem exists_eq_ok (h : x.isOk = true) : ∃ a, x = .ok a := by
  cases x with
  | ok a => exact ⟨a, rfl⟩
  | error e => cases h

theorem eq_ok_of_mem_toOption {a : α} (h : a ∈ x.toOption) : x = .ok a := by
  cases x with
  | ok a' => rw [Option.some.inj h]
  | error e => cases h

/-- The same with a test of what it returns. -/
theorem exists_ok_of_any {p : α → Bool} (h : x.toOption.any p = true) :
    ∃ a, x = .ok a ∧ p a = true := by
  cases x with
  | ok a => exact ⟨a, rfl, h⟩
  | error e => cases h

/-- The same program with its errors renamed. -/
def withError (f : ε → ε') : Except ε α → Except ε' α
  | .ok a => .ok a
  | .error e => .error (f e)

theorem withError_eq_ok {f : ε → ε'} {a : α} :
    withError f x = .ok a ↔ x = .ok a := by
  cases x <;> simp [withError]

theorem mapM_eq_ok {r : List β} :
    l.mapM f = .ok r ↔ List.Forall₂ (fun a b => f a = .ok b) l r := by
  induction l generalizing r with
  | nil =>
    rw [List.mapM_nil, List.forall₂_nil_left_iff]
    exact ⟨fun h => (Except.ok.inj h).symm, fun h => by rw [h]; rfl⟩
  | cons a l ih =>
    rw [List.mapM_cons, List.forall₂_cons_left_iff, bind_ok]
    constructor
    · rintro ⟨b, hb, h⟩
      obtain ⟨bs, hbs, h⟩ := bind_ok.1 h
      exact ⟨b, bs, hb, ih.1 hbs, (Except.ok.inj h).symm⟩
    · rintro ⟨b, bs, hb, hbs, rfl⟩
      exact ⟨b, hb, bind_ok.2 ⟨bs, ih.2 hbs, rfl⟩⟩

theorem exists_of_mem_mapM {r : List β} (h : l.mapM f = .ok r) (hb : b ∈ r) :
    ∃ a ∈ l, f a = .ok b := by
  have hall := mapM_eq_ok.1 h
  clear h
  induction hall with
  | nil => cases hb
  | cons hab _ ih =>
    rcases List.mem_cons.1 hb with rfl | hb
    · exact ⟨_, List.mem_cons_self, hab⟩
    · obtain ⟨a, ha, hfa⟩ := ih hb
      exact ⟨a, List.mem_cons_of_mem _ ha, hfa⟩

theorem exists_mapM_eq_ok (h : ∀ a ∈ l, ∃ b, f a = .ok b) :
    ∃ r, l.mapM f = .ok r := by
  induction l with
  | nil => exact ⟨[], rfl⟩
  | cons a l ih =>
    obtain ⟨b, hb⟩ := h a List.mem_cons_self
    obtain ⟨bs, hbs⟩ := ih fun a' ha' => h a' (List.mem_cons_of_mem a ha')
    exact ⟨b :: bs, mapM_eq_ok.2 (.cons hb (mapM_eq_ok.1 hbs))⟩

/-- What every round of a loop keeps. -/
theorem foldlM_rule {f : β → α → Except ε β} {P : β → Prop}
    (hstep : ∀ {b b' : β} {a : α}, P b → f b a = .ok b' → P b') {b b' : β} (hb : P b)
    (h : l.foldlM f b = .ok b') : P b' := by
  induction l generalizing b with
  | nil =>
    cases h
    exact hb
  | cons a l ih =>
    rw [List.foldlM_cons] at h
    obtain ⟨b1, h1, h⟩ := bind_ok.1 h
    exact ih (hstep hb h1) h

/-- Every error of the program has the property. -/
def Throws (x : Except ε α) (E : ε → Prop) : Prop := ∀ e, x = .error e → E e

section Throws

variable {x : Except ε α} {f : α → Except ε β} {E : ε → Prop}

theorem Throws.ok (a : α) : Throws (.ok a : Except ε α) E := nofun

theorem Throws.error (h : E e) : Throws (.error e : Except ε α) E := by
  intro e' he
  cases he
  exact h

theorem Throws.bind (hx : Throws x E) (hf : ∀ a, x = .ok a → Throws (f a) E) :
    Throws (x >>= f) E := by
  cases x with
  | ok a => exact hf a rfl
  | error e => exact .error (hx e rfl)

theorem Throws.of_check (h : cond = false → E e) : Throws (check cond e) E := by
  cases cond with
  | true => exact .ok ()
  | false => exact .error (h rfl)

theorem Throws.check_bind {y : Except ε β} (h : cond = false → E e) (hy : Throws y E) :
    Throws (check cond e >>= fun _ => y) E := by
  cases cond with
  | true => exact hy
  | false => exact .error (h rfl)

theorem Throws.withError {E' : ε' → Prop} {g : ε → ε'} (h : ∀ e, E' (g e)) :
    Throws (withError g x) E' := by
  cases x with
  | ok a => exact .ok a
  | error e => exact .error (h e)

end Throws

end Calibrd.Lib
