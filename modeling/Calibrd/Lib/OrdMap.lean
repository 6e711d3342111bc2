import Mathlib

/-!
# Finite maps as key-sorted rows

A finite map from a linear order is kept as the list of its rows in increasing key order. The
order is part of the data: a program that walks such a container visits the rows in key order, so
the walk is a recursion over `rows`. Two maps with the same lookups are equal (`OrdMap.ext_find`),
which is what makes "the contents are exactly as before" an equation.
-/

namespace Calibrd.Lib

universe u v

/-- The rows of a finite map, in strictly increasing key order. -/
structure OrdMap (κ : Type u) [LinearOrder κ] (α : Type v) where
  rows : List (κ × α)
  sorted : rows.Pairwise (fun a b => a.1 < b.1)

namespace OrdMap

variable {κ : Type u} [LinearOrder κ] {α : Type v} {m : OrdMap κ α}

theorem ext_rows {n : OrdMap κ α} (h : m.rows = n.rows) : m = n := by
  cases m; cases n; cases h; rfl

instance [DecidableEq α] : DecidableEq (OrdMap κ α) := fun m n =>
  decidable_of_iff (m.rows = n.rows) ⟨ext_rows, fun h => h ▸ rfl⟩

def empty : OrdMap κ α := ⟨[], List.Pairwise.nil⟩

instance : Inhabited (OrdMap κ α) := ⟨empty⟩

/-! ## Row lists -/

def lookupRow (k : κ) : List (κ × α) → Option α
  | [] => none
  | r :: l => if r.1 = k then some r.2 else lookupRow k l

def insertRow (k : κ) (v : α) : List (κ × α) → List (κ × α)
  | [] => [(k, v)]
  | r :: l => if k < r.1 then (k, v) :: r :: l else if r.1 = k then (k, v) :: l
      else r :: insertRow k v l

variable {l : List (κ × α)} {k : κ} (g : α → ℤ) {v : α}

theorem lookupRow_eq_some_of_mem (hs : l.Pairwise (fun a b => a.1 < b.1)) (h : (k, v) ∈ l) :
    lookupRow k l = some v := by
  induction l with
  | nil => cases h
  | cons r l ih =>
    rcases List.pairwise_cons.1 hs with ⟨hr, hl⟩
    rcases List.mem_cons.1 h with rfl | h
    · simp [lookupRow]
    · have hne : r.1 ≠ k := (hr _ h).ne
      simp [lookupRow, hne, ih hl h]

theorem mem_of_lookupRow (h : lookupRow k l = some v) :
    (k, v) ∈ l := by
  induction l with
  | nil => cases h
  | cons r l ih =>
    simp only [lookupRow] at h
    split at h
    · next e => cases h; subst e; exact List.mem_cons_self
    · exact List.mem_cons_of_mem _ (ih h)

theorem mem_insertRow {r : κ × α} (h : r ∈ insertRow k v l) : r = (k, v) ∨ r ∈ l := by
  induction l with
  | nil => simpa [insertRow] using h
  | cons s l ih =>
    simp only [insertRow] at h
    split at h
    · simpa using h
    · split at h
      · rcases List.mem_cons.1 h with h | h
        · exact Or.inl h
        · exact Or.inr (List.mem_cons_of_mem _ h)
      · rcases List.mem_cons.1 h with h | h
        · exact Or.inr (h ▸ List.mem_cons_self)
        · rcases ih h with h | h
          · exact Or.inl h
          · exact Or.inr (List.mem_cons_of_mem _ h)

theorem sorted_insertRow (hs : l.Pairwise (fun a b => a.1 < b.1)) :
    (insertRow k v l).Pairwise (fun a b => a.1 < b.1) := by
  induction l with
  | nil => simp [insertRow]
  | cons r l ih =>
    rcases List.pairwise_cons.1 hs with ⟨hr, hl⟩
    simp only [insertRow]
    split
    · next hlt =>
      exact List.pairwise_cons.2
        ⟨List.forall_mem_cons.2 ⟨hlt, fun s hs' => lt_trans hlt (hr s hs')⟩, hs⟩
    · next hnlt =>
      split
      · next he =>
        refine List.pairwise_cons.2 ⟨fun s hs' => ?_, hl⟩
        rw [← he]
        exact hr s hs'
      · next hne =>
        refine List.pairwise_cons.2 ⟨?_, ih hl⟩
        intro s hs'
        rcases mem_insertRow hs' with rfl | hs'
        · exact lt_of_le_of_ne (not_lt.1 hnlt) hne
        · exact hr s hs'

theorem lookupRow_insertRow {k j : κ} :
    lookupRow j (insertRow k v l) = if k = j then some v else lookupRow j l := by
  induction l with
  | nil => simp [insertRow, lookupRow]
  | cons r l ih =>
    simp only [insertRow]
    split
    · simp [lookupRow]
    · split
      · next he =>
        subst he
        by_cases hj : r.1 = j <;> simp [lookupRow, hj]
      · next hne =>
        simp only [lookupRow, ih]
        by_cases hj : r.1 = j
        · have hkj : k ≠ j := fun e => hne (hj.trans e.symm)
          simp [hj, hkj]
        · simp [hj]

/-- Sorted rows with the same lookups are the same rows: the heads are both the least key. -/
theorem rows_ext : ∀ {l1 l2 : List (κ × α)}, l1.Pairwise (fun a b => a.1 < b.1) →
    l2.Pairwise (fun a b => a.1 < b.1) → (∀ k, lookupRow k l1 = lookupRow k l2) → l1 = l2
  | [], [], _, _, _ => rfl
  | [], r :: l, _, _, h => by have := h r.1; simp [lookupRow] at this
  | r :: l, [], _, _, h => by have := h r.1; simp [lookupRow] at this
  | r :: l1, s :: l2, h1, h2, h => by
    rcases List.pairwise_cons.1 h1 with ⟨hr, hl1⟩
    rcases List.pairwise_cons.1 h2 with ⟨hs, hl2⟩
    have hrm : (r.1, r.2) ∈ s :: l2 := by
      apply mem_of_lookupRow
      rw [← h]
      simp [lookupRow]
    have hsm : (s.1, s.2) ∈ r :: l1 := by
      apply mem_of_lookupRow
      rw [h]
      simp [lookupRow]
    have hrs : r = s := by
      rcases List.mem_cons.1 hrm with e | hrm
      · exact e
      · rcases List.mem_cons.1 hsm with e | hsm
        · exact e.symm
        · exact absurd (hs _ hrm) (lt_asymm (hr _ hsm))
    subst hrs
    congr 1
    apply rows_ext hl1 hl2
    intro k
    have hk := h k
    simp only [lookupRow] at hk
    by_cases e : r.1 = k
    · subst e
      have n1 : lookupRow r.1 l1 = none := by
        cases h' : lookupRow r.1 l1 with
        | none => rfl
        | some v => exact absurd (hr _ (mem_of_lookupRow h')) (lt_irrefl _)
      have n2 : lookupRow r.1 l2 = none := by
        cases h' : lookupRow r.1 l2 with
        | none => rfl
        | some v => exact absurd (hs _ (mem_of_lookupRow h')) (lt_irrefl _)
      rw [n1, n2]
    · simpa [e] using hk

/-! ## Operations -/

def find? (m : OrdMap κ α) (k : κ) : Option α := lookupRow k m.rows

def contains (m : OrdMap κ α) (k : κ) : Bool := (m.find? k).isSome

def insert (m : OrdMap κ α) (k : κ) (v : α) : OrdMap κ α :=
  ⟨insertRow k v m.rows, sorted_insertRow m.sorted⟩

def erase (m : OrdMap κ α) (k : κ) : OrdMap κ α :=
  ⟨m.rows.filter (fun r => r.1 ≠ k), m.sorted.filter _⟩

/-- The rows whose key passes a test. -/
def restrict (p : κ → Bool) (m : OrdMap κ α) : OrdMap κ α :=
  ⟨m.rows.filter fun r => p r.1, m.sorted.filter _⟩

def keys (m : OrdMap κ α) : List κ := m.rows.map Prod.fst

/-- Every value is replaced. -/
def mapValues (f : α → α) (m : OrdMap κ α) : OrdMap κ α :=
  ⟨m.rows.map fun r => (r.1, f r.2), List.pairwise_map.2 m.sorted⟩

theorem ext_find {n : OrdMap κ α} (h : ∀ k, m.find? k = n.find? k) : m = n :=
  ext_rows (rows_ext m.sorted n.sorted h)

theorem mem_rows : (k, v) ∈ m.rows ↔ m.find? k = some v :=
  ⟨lookupRow_eq_some_of_mem m.sorted, mem_of_lookupRow⟩

theorem mem_keys : k ∈ m.keys ↔ ∃ v, m.find? k = some v := by
  simp only [keys, List.mem_map, Prod.exists, exists_and_right, exists_eq_right, mem_rows]

@[simp] theorem find?_empty (k : κ) : (empty : OrdMap κ α).find? k = none := rfl

@[simp] theorem find?_insert (m : OrdMap κ α) (k j : κ) (v : α) :
    (m.insert k v).find? j = if k = j then some v else m.find? j :=
  lookupRow_insertRow

theorem find?_insert_self (m : OrdMap κ α) (k : κ) (v : α) : (m.insert k v).find? k = some v := by
  simp

theorem find?_insert_ne (m : OrdMap κ α) {k j : κ} (v : α) (h : k ≠ j) :
    (m.insert k v).find? j = m.find? j := by
  simp [h]

theorem mem_keys_insert {j : κ} : j ∈ (m.insert k v).keys ↔ j = k ∨ j ∈ m.keys := by
  rw [mem_keys, mem_keys]
  by_cases h : j = k
  · simp [h]
  · rw [find?_insert_ne _ _ (Ne.symm h)]
    simp [h]

/-- What the new row has in common with what it replaces, every lookup keeps. -/
theorem keep_insert {β : Type*} (φ : Option α → β) (h : φ (some v) = φ (m.find? k)) (j : κ) :
    φ ((m.insert k v).find? j) = φ (m.find? j) := by
  by_cases e : k = j
  · subst e
    rw [find?_insert_self, h]
  · rw [find?_insert_ne _ _ e]

@[simp] theorem find?_restrict (p : κ → Bool) (m : OrdMap κ α) (j : κ) :
    (m.restrict p).find? j = if p j then m.find? j else none := by
  show lookupRow j (m.rows.filter _) = if p j then lookupRow j m.rows else none
  induction m.rows with
  | nil => simp [lookupRow]
  | cons r l ih =>
    by_cases hj : r.1 = j
    · subst hj
      cases hp : p r.1 <;> simp_all [lookupRow]
    · cases hp : p r.1 <;> simp [hp, lookupRow, hj, ih]

@[simp] theorem find?_erase (m : OrdMap κ α) (k j : κ) :
    (m.erase k).find? j = if k = j then none else m.find? j := by
  refine (find?_restrict (fun i => decide (i ≠ k)) m j).trans ?_
  by_cases h : k = j
  · simp [h]
  · simp [h, Ne.symm h]

theorem find?_of_erase {j : κ} (h : (m.erase k).find? j = some v) : m.find? j = some v := by
  rw [find?_erase] at h
  split at h
  · cases h
  · exact h

theorem forall_insert {P : κ → α → Prop} (h : ∀ k v, m.find? k = some v → P k v) (hv : P k v)
    (j : κ) (w : α) (hj : (m.insert k v).find? j = some w) : P j w := by
  rw [find?_insert] at hj
  split at hj
  · next he =>
    cases hj
    exact he ▸ hv
  · exact h j w hj

@[simp] theorem find?_mapValues (f : α → α) (m : OrdMap κ α) (k : κ) :
    (m.mapValues f).find? k = (m.find? k).map f := by
  show lookupRow k (m.rows.map _) = (lookupRow k m.rows).map f
  induction m.rows with
  | nil => rfl
  | cons r l ih =>
    by_cases h : r.1 = k
    · simp [lookupRow, h]
    · simpa [lookupRow, h] using ih

@[simp] theorem contains_iff (m : OrdMap κ α) (k : κ) :
    m.contains k = true ↔ ∃ v, m.find? k = some v :=
  Option.isSome_iff_exists

/-- A map and its rows erased one after the other. -/
theorem find?_foldl_erase (ks : List κ) (m : OrdMap κ α) (j : κ) :
    (ks.foldl (fun m k => m.erase k) m).find? j = if j ∈ ks then none else m.find? j := by
  induction ks generalizing m with
  | nil => simp
  | cons k ks ih =>
    simp only [List.foldl_cons, ih, find?_erase, List.mem_cons]
    by_cases h : j ∈ ks
    · simp [h]
    · by_cases e : k = j
      · simp [e]
      · simp [h, e, Ne.symm e]

/-- A map and the rows of another one written over it one after the other. -/
theorem find?_foldl_insert (n m : OrdMap κ α) (j : κ) :
    (n.rows.foldl (fun m r => m.insert r.1 r.2) m).find? j = (n.find? j).or (m.find? j) := by
  obtain ⟨rows, hs⟩ := n
  simp only [find?]
  induction rows generalizing m with
  | nil => simp [lookupRow]
  | cons r l ih =>
    rcases List.pairwise_cons.1 hs with ⟨hr, hl⟩
    rw [List.foldl_cons, ih _ hl]
    simp only [lookupRow]
    by_cases e : r.1 = j
    · have hnone : lookupRow j l = none := by
        cases h : lookupRow j l with
        | none => rfl
        | some v => exact absurd (hr _ (mem_of_lookupRow h)) (by rw [e]; exact lt_irrefl j)
      simp only [hnone, e, ↓reduceIte, Option.none_or, Option.some_or]
      exact e ▸ find?_insert_self m r.1 r.2
    · simp only [e, ↓reduceIte]
      rw [show lookupRow j (m.insert r.1 r.2).rows = lookupRow j m.rows from
        find?_insert_ne m r.2 e]

theorem nodup_keys (m : OrdMap κ α) : m.keys.Nodup := by
  rw [keys, List.nodup_iff_pairwise_ne, List.pairwise_map]
  exact m.sorted.imp fun h => h.ne

/-! ## Indices over the values

An index of the values is a sorted list of those that pass a test. Where the key of a row is part of
its value, the index has the rows that pass, each once.
-/

section Indices

variable {m : OrdMap κ α} {key : α → κ} (hkey : ∀ k v, m.find? k = some v → key v = k)
  {p : α → Bool} {r : α → α → Prop} [DecidableRel r]

include hkey

theorem mem_index :
    v ∈ ((m.rows.map Prod.snd).filter p).insertionSort r ↔ m.find? (key v) = some v ∧ p v = true := by
  rw [List.mem_insertionSort, List.mem_filter, List.mem_map]
  refine and_congr_left fun _ => ⟨?_, fun h => ⟨(key v, v), mem_rows.2 h, rfl⟩⟩
  rintro ⟨⟨k, v'⟩, hrow, rfl⟩
  have hfind := mem_rows.1 hrow
  rw [hkey k v' hfind]
  exact hfind

theorem nodup_index : ((((m.rows.map Prod.snd).filter p).insertionSort r).map key).Nodup := by
  have hkeys : (m.rows.map Prod.snd).map key = m.keys := by
    rw [List.map_map]
    exact List.map_congr_left fun row hrow => hkey row.1 row.2 (mem_rows.1 hrow)
  refine ((List.perm_insertionSort r _).map key).nodup_iff.2 ?_
  have hsub := (List.filter_sublist (p := p) (l := m.rows.map Prod.snd)).map key
  rw [hkeys] at hsub
  exact hsub.nodup m.nodup_keys

end Indices

/-- Every key of `m` is one of `n`. -/
def KeysLe (m n : OrdMap κ α) : Prop := ∀ k, m.contains k = true → n.contains k = true

@[refl] theorem KeysLe.refl (m : OrdMap κ α) : m.KeysLe m := fun _ h => h

theorem KeysLe.trans {l n : OrdMap κ α} (h : l.KeysLe m) (h' : m.KeysLe n) : l.KeysLe n :=
  fun k hk => h' k (h k hk)

theorem keysLe_insert (m : OrdMap κ α) (k : κ) (v : α) : m.KeysLe (m.insert k v) := by
  intro j hj
  by_cases e : k = j
  · simp [e]
  · simpa [e] using hj

/-! ## Sums over the rows -/

/-- The sum of `g` over all values. -/
def sum (g : α → ℤ) (m : OrdMap κ α) : ℤ := (m.rows.map (fun r => g r.2)).sum

/-- The sum of `g` over all rows. -/
def sumRows (g : κ → α → ℤ) (m : OrdMap κ α) : ℤ := (m.rows.map (fun r => g r.1 r.2)).sum

private theorem sum_insertRow_none (g : κ → α → ℤ) (v : α) (h : lookupRow k l = none) :
    ((insertRow k v l).map (fun r => g r.1 r.2)).sum = g k v + (l.map (fun r => g r.1 r.2)).sum := by
  induction l with
  | nil => simp [insertRow]
  | cons r l ih =>
    simp only [lookupRow] at h
    split at h
    · cases h
    · next hne =>
      simp only [insertRow, hne, ↓reduceIte]
      split
      · simp
      · simp only [List.map_cons, List.sum_cons, ih h]
        omega

private theorem sum_insertRow_some (g : κ → α → ℤ) (v w : α)
    (hs : l.Pairwise (fun a b => a.1 < b.1)) (h : lookupRow k l = some w) :
    ((insertRow k v l).map (fun r => g r.1 r.2)).sum =
      g k v - g k w + (l.map (fun r => g r.1 r.2)).sum := by
  induction l with
  | nil => cases h
  | cons r l ih =>
    rcases List.pairwise_cons.1 hs with ⟨hr, hl⟩
    simp only [lookupRow] at h
    split at h
    · next he =>
      cases h
      subst he
      simp only [insertRow, lt_self_iff_false, ↓reduceIte, List.map_cons, List.sum_cons]
      omega
    · next hne =>
      have hlt : ¬ k < r.1 := lt_asymm (hr _ (mem_of_lookupRow h))
      simp only [insertRow, hlt, hne, ↓reduceIte, List.map_cons, List.sum_cons, ih hl h]
      omega

theorem sumRows_insert (g : κ → α → ℤ) (m : OrdMap κ α) (k : κ) (v : α) :
    (m.insert k v).sumRows g = m.sumRows g + (g k v - (m.find? k).elim 0 (g k)) := by
  cases h : m.find? k with
  | none =>
    have hsum := sum_insertRow_none g v h
    simp only [sumRows, insert, hsum, Option.elim_none]
    omega
  | some w =>
    have hsum := sum_insertRow_some g v w m.sorted h
    simp only [sumRows, insert, hsum, Option.elim_some]
    omega

theorem sumRows_erase (g : κ → α → ℤ) (m : OrdMap κ α) (k : κ) :
    (m.erase k).sumRows g = m.sumRows g - (m.find? k).elim 0 (g k) := by
  cases h : m.find? k with
  | none =>
    have hsame : m.erase k = m := by
      refine ext_find fun j => ?_
      by_cases e : k = j
      · subst e; simp [h]
      · simp [e]
    rw [hsame, Option.elim_none, sub_zero]
  | some w =>
    -- the erased map with the row put back is the map
    have hback : (m.erase k).insert k w = m := by
      refine ext_find fun j => ?_
      by_cases e : k = j
      · subst e; simp [h]
      · simp [e]
    have hsum := sumRows_insert g (m.erase k) k w
    rw [hback, find?_erase, if_pos rfl, Option.elim_none] at hsum
    rw [Option.elim_some]
    omega

/-- The sum over the rows that pass a test. -/
theorem sumRows_ite (p : κ → α → Prop) [∀ k v, Decidable (p k v)] (g : κ → α → ℤ) (m : OrdMap κ α) :
    m.sumRows (fun k v => if p k v then g k v else 0) =
      ((m.rows.filter fun r => p r.1 r.2).map fun r => g r.1 r.2).sum := by
  rw [sumRows]
  induction m.rows with
  | nil => rfl
  | cons r l ih =>
    by_cases h : p r.1 r.2
    · simp [h, ih]
    · simp [h, ih]

/-- What `g` gives for the row at `k`, if there is one. -/
def sumAt (g : α → ℤ) (m : OrdMap κ α) (k : κ) : ℤ := (m.find? k).elim 0 g

theorem sum_insert (m : OrdMap κ α) (k : κ) (v : α) :
    (m.insert k v).sum g = m.sum g + (g v - m.sumAt g k) :=
  sumRows_insert (fun _ => g) m k v

theorem sum_erase (m : OrdMap κ α) (k : κ) :
    (m.erase k).sum g = m.sum g - m.sumAt g k :=
  sumRows_erase (fun _ => g) m k

theorem sum_insert_of_none (v : α) (h : m.find? k = none) :
    (m.insert k v).sum g = m.sum g + g v := by
  rw [sum_insert, sumAt, h, Option.elim_none, sub_zero]

/-- Overwriting a row replaces its value. -/
theorem sum_insert_of_some (v : α) {w : α} (h : m.find? k = some w) :
    (m.insert k v).sum g = m.sum g + (g v - g w) := by
  rw [sum_insert, sumAt, h, Option.elim_some]

theorem sum_erase_of_some {w : α} (h : m.find? k = some w) :
    (m.erase k).sum g = m.sum g - g w := by
  rw [sum_erase, sumAt, h, Option.elim_some]

theorem sum_mapValues (f : α → α) (m : OrdMap κ α) :
    (m.mapValues f).sum g = m.sum fun a => g (f a) := by
  simp [sum, mapValues, Function.comp_def]

variable {g}

theorem sum_nonneg (h : ∀ k v, m.find? k = some v → 0 ≤ g v) :
    0 ≤ m.sum g := by
  refine List.sum_nonneg fun x hx => ?_
  obtain ⟨r, hr, rfl⟩ := List.mem_map.1 hx
  exact h r.1 r.2 (mem_rows.1 hr)

theorem sum_eq_zero (h : ∀ k v, m.find? k = some v → g v = 0) :
    m.sum g = 0 := by
  refine List.sum_eq_zero fun x hx => ?_
  obtain ⟨r, hr, rfl⟩ := List.mem_map.1 hx
  exact h r.1 r.2 (mem_rows.1 hr)

theorem sum_foldl_erase (ks : List κ) (h : ∀ k ∈ ks, ∀ v, m.find? k = some v → g v = 0) :
    (ks.foldl (fun m k => m.erase k) m).sum g = m.sum g := by
  induction ks generalizing m with
  | nil => rfl
  | cons k ks ih =>
    have hk : m.sumAt g k = 0 := by
      unfold sumAt
      cases hf : m.find? k with
      | none => rfl
      | some v => exact h k List.mem_cons_self v hf
    rw [List.foldl_cons, ih fun j hj v hv => ?_, sum_erase, hk, sub_zero]
    exact h j (List.mem_cons_of_mem k hj) v (find?_of_erase hv)

/-- Rows sorted by `f` into `n` classes. -/
theorem sum_range_sum {f : α → ℕ} {n : ℕ} (h : ∀ k v, m.find? k = some v → f v < n) :
    ∑ a ∈ Finset.range n, m.sum (fun v => if f v = a then g v else 0) = m.sum g := by
  have hrows : ∀ r ∈ m.rows, f r.2 < n := fun r hr => h r.1 r.2 (mem_rows.1 hr)
  simp only [sum]
  generalize m.rows = l at hrows ⊢
  induction l with
  | nil => simp
  | cons r l ih =>
    simp only [List.map_cons, List.sum_cons, Finset.sum_add_distrib,
      ih fun q hq => hrows q (List.mem_cons_of_mem r hq)]
    rw [Finset.sum_ite_eq, if_pos (Finset.mem_range.2 (hrows r List.mem_cons_self))]

end OrdMap

end Calibrd.Lib
