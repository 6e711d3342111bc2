import Mathlib

/-!
# Facts derived by weighted rules

A rule is met by a set of facts when the weights of its entries in the set reach a threshold. Some
facts are given; a fact may also have a rule and then follows when the rule is met. `Holds n` are the
facts with a derivation of at most `n` rules on top of each other, `Derives` those with any. Rules are
finite and may depend on each other in circles: a fact is derived if it is given or if its rule is met
by derived facts (`derives_iff`).
-/

namespace Calibrd.Lib

variable {ι κ : Type}

/-! ## Weights -/

/-- The weight of the entries in `P`. -/
noncomputable def weightOf (P : ι → Prop) (l : List (ι × ℕ)) : ℕ :=
  open Classical in (l.map fun e => if P e.1 then e.2 else 0).sum

section Weights

variable {P Q : ι → Prop} {l : List (ι × ℕ)} {i : ι} {w : ℕ}

theorem weightOf_cons_of_mem (h : P i) : weightOf P ((i, w) :: l) = w + weightOf P l := by
  simp [weightOf, h]

theorem weightOf_cons_of_not_mem (h : ¬ P i) : weightOf P ((i, w) :: l) = weightOf P l := by
  simp [weightOf, h]

theorem weightOf_append (l1 l2 : List (ι × ℕ)) :
    weightOf P (l1 ++ l2) = weightOf P l1 + weightOf P l2 := by
  simp [weightOf]

theorem weightOf_map (f : κ → ι) (l : List (κ × ℕ)) :
    weightOf P (l.map fun e => (f e.1, e.2)) = weightOf (fun k => P (f k)) l := by
  simp [weightOf, Function.comp_def]

theorem weightOf_congr (h : ∀ i, P i ↔ Q i) : weightOf P l = weightOf Q l :=
  congrArg (weightOf · l) (funext fun i => propext (h i))

theorem weightOf_mono (h : ∀ e ∈ l, P e.1 → Q e.1) : weightOf P l ≤ weightOf Q l := by
  induction l with
  | nil => exact Nat.le_refl _
  | cons e l ih =>
    obtain ⟨i, w⟩ := e
    have ih := ih fun e he => h e (List.mem_cons_of_mem _ he)
    by_cases hp : P i
    · rw [weightOf_cons_of_mem hp, weightOf_cons_of_mem (h _ List.mem_cons_self hp)]
      omega
    · rw [weightOf_cons_of_not_mem hp]
      by_cases hq : Q i
      · rw [weightOf_cons_of_mem hq]
        omega
      · rwa [weightOf_cons_of_not_mem hq]

theorem weightOf_le_sum : weightOf P l ≤ (l.map Prod.snd).sum := by
  induction l with
  | nil => exact Nat.le_refl _
  | cons e l ih =>
    obtain ⟨i, w⟩ := e
    rw [List.map_cons, List.sum_cons]
    by_cases hp : P i
    · rw [weightOf_cons_of_mem hp]
      omega
    · rw [weightOf_cons_of_not_mem hp]
      omega

end Weights

/-! ## Rules -/

structure Rule (ι : Type) where
  threshold : ℕ
  entries : List (ι × ℕ)

def Rule.Met (P : ι → Prop) (r : Rule ι) : Prop := r.threshold ≤ weightOf P r.entries

variable {r : Rule ι}

theorem Rule.Met.mono {P Q : ι → Prop} (h : r.Met P) (hPQ : ∀ i, P i → Q i) : r.Met Q :=
  Nat.le_trans h (weightOf_mono fun e _ => hPQ e.1)

/-- A rule has finitely many entries: what meets it in the limit of a chain meets it somewhere. -/
theorem Rule.met_of_chain {P : ℕ → ι → Prop} (hP : ∀ m n, m ≤ n → ∀ i, P m i → P n i)
    (h : r.Met fun i => ∃ n, P n i) : ∃ n, r.Met (P n) := by
  have hall : ∀ l : List (ι × ℕ), ∃ n, ∀ e ∈ l, (∃ m, P m e.1) → P n e.1 := by
    intro l
    induction l with
    | nil => exact ⟨0, fun _ he => nomatch he⟩
    | cons e l ih =>
      obtain ⟨n, hn⟩ := ih
      by_cases he : ∃ m, P m e.1
      · obtain ⟨m, hm⟩ := he
        refine ⟨max m n, fun e' he' hex => ?_⟩
        rcases List.mem_cons.1 he' with rfl | he'
        · exact hP _ _ (Nat.le_max_left m n) _ hm
        · exact hP _ _ (Nat.le_max_right m n) _ (hn e' he' hex)
      · refine ⟨n, fun e' he' hex => ?_⟩
        rcases List.mem_cons.1 he' with rfl | he'
        · exact absurd hex he
        · exact hn e' he' hex
  obtain ⟨n, hn⟩ := hall r.entries
  exact ⟨n, Nat.le_trans h (weightOf_mono hn)⟩

/-! ## Derivations -/

section Derivations

variable (given : ι → Prop) (rule : ι → Option (Rule ι))

/-- The facts with a derivation of at most `n` rules on top of each other. -/
def Holds : ℕ → ι → Prop
  | 0, i => given i
  | n + 1, i => given i ∨ ∃ r, rule i = some r ∧ r.Met (Holds n)

def Derives (i : ι) : Prop := ∃ n, Holds given rule n i

variable {given rule}

theorem holds_of_given {i : ι} (h : given i) : ∀ n, Holds given rule n i
  | 0 => h
  | _ + 1 => Or.inl h

theorem holds_succ {n : ℕ} : ∀ {i : ι}, Holds given rule n i → Holds given rule (n + 1) i := by
  induction n with
  | zero => exact fun h => holds_of_given h 1
  | succ n ih =>
    rintro i (h | ⟨r, hr, hmet⟩)
    · exact holds_of_given h _
    · exact Or.inr ⟨r, hr, hmet.mono fun _ => ih⟩

theorem holds_mono {m n : ℕ} (h : m ≤ n) (i : ι) (hi : Holds given rule m i) :
    Holds given rule n i := by
  induction h with
  | refl => exact hi
  | step _ ih => exact holds_succ ih

theorem met_derives_iff :
    r.Met (Derives given rule) ↔ ∃ n, r.Met (Holds given rule n) :=
  ⟨Rule.met_of_chain fun _ _ h => holds_mono h, fun ⟨n, h⟩ => h.mono fun _ hi => ⟨n, hi⟩⟩

theorem derives_iff {i : ι} :
    Derives given rule i ↔ given i ∨ ∃ r, rule i = some r ∧ r.Met (Derives given rule) := by
  constructor
  · rintro ⟨_ | n, h⟩
    · exact Or.inl h
    · exact h.imp_right fun ⟨r, hr, hmet⟩ => ⟨r, hr, met_derives_iff.2 ⟨n, hmet⟩⟩
  · rintro (h | ⟨r, hr, hmet⟩)
    · exact ⟨0, h⟩
    · obtain ⟨n, hn⟩ := met_derives_iff.1 hmet
      exact ⟨n + 1, Or.inr ⟨r, hr, hn⟩⟩

end Derivations

end Calibrd.Lib
