import Calibrd.Lib.OrdMap

/-!
# Binary formats that may lose information

A `Format` writes values as bytes and reads them back from the front of a byte string. What is read
back is `norm a`, which need not be `a`: a format whose writer looks at a value through a conversion
forgets what the conversion forgets. The combinators follow the containers of a serialisation
library (`pair`, `list`, `option`, `sum`, `tagged`, `ordMap`), and beside each of them stands which values
come back unchanged (`norm_pair_iff` … `norm_ordMap_iff`).
-/

namespace Calibrd.Lib

abbrev Byte := Fin 256

instance neZeroByte : NeZero 256 := ⟨by decide⟩

structure Format (α : Type) where
  pack : α → List Byte
  unpack : List Byte → Option (α × List Byte)
  /-- The value that is read back. -/
  norm : α → α
  unpack_pack : ∀ a rest, unpack (pack a ++ rest) = some (norm a, rest)
  norm_norm : ∀ a, norm (norm a) = norm a

namespace Format

variable {α β κ : Type}

/-- Writing a value and reading it again. -/
def repack (f : Format α) (a : α) : Option α := (f.unpack (f.pack a)).map Prod.fst

theorem repack_eq (f : Format α) (a : α) : f.repack a = some (f.norm a) := by
  have h : f.unpack (f.pack a) = some (f.norm a, []) := by
    rw [← f.unpack_pack a [], List.append_nil]
  rw [repack, h]
  rfl

theorem repack_eq_self_iff (f : Format α) (a : α) : f.repack a = some a ↔ f.norm a = a := by
  rw [repack_eq, Option.some.injEq]

end Format

/-- A format that gives every value back. -/
structure Codec (α : Type) where
  pack : α → List Byte
  unpack : List Byte → Option (α × List Byte)
  unpack_pack : ∀ a rest, unpack (pack a ++ rest) = some (a, rest)

namespace Codec

def toFormat {α : Type} (c : Codec α) : Format α :=
  { pack := c.pack, unpack := c.unpack, norm := id, unpack_pack := c.unpack_pack
    norm_norm := fun _ => rfl }

/-! ## Counts

Seven bits a byte, least significant first, with the high bit set on all bytes but the last. -/

/-- The fuel bounds the number of bytes; the number itself is always enough. -/
def packVarint : ℕ → ℕ → List Byte
  | 0, n => [Fin.ofNat 256 n]
  | fuel + 1, n =>
    if n < 128 then [Fin.ofNat 256 n]
    else Fin.ofNat 256 (n % 128 + 128) :: packVarint fuel (n / 128)

def unpackVarint : List Byte → Option (ℕ × List Byte)
  | [] => none
  | b :: rest =>
    if b.val < 128 then some (b.val, rest)
    else (unpackVarint rest).map fun r => (b.val - 128 + 128 * r.1, r.2)

theorem unpackVarint_low {n : ℕ} (h : n < 128) (rest : List Byte) :
    unpackVarint (Fin.ofNat 256 n :: rest) = some (n, rest) := by
  have hval : (Fin.ofNat 256 n).val = n := Nat.mod_eq_of_lt (by omega)
  rw [unpackVarint, hval, if_pos h]

theorem unpackVarint_packVarint {fuel n : ℕ} (h : n ≤ fuel) (rest : List Byte) :
    unpackVarint (packVarint fuel n ++ rest) = some (n, rest) := by
  induction fuel generalizing n with
  | zero => exact unpackVarint_low (by omega) rest
  | succ fuel ih =>
    unfold packVarint
    by_cases hn : n < 128
    · rw [if_pos hn]
      exact unpackVarint_low hn rest
    · have hval : (Fin.ofNat 256 (n % 128 + 128)).val = n % 128 + 128 :=
        Nat.mod_eq_of_lt (by omega)
      rw [if_neg hn, List.cons_append, unpackVarint, hval, if_neg (by omega), ih (by omega)]
      have hsum : n % 128 + 128 - 128 + 128 * (n / 128) = n := by omega
      rw [Option.map_some, hsum]

def varint : Codec ℕ :=
  { pack := fun n => packVarint n n, unpack := unpackVarint
    unpack_pack := fun n => unpackVarint_packVarint (le_refl n) }

def unpackByte : List Byte → Option (Byte × List Byte)
  | [] => none
  | b :: rest => some (b, rest)

def byte : Codec Byte :=
  { pack := fun b => [b], unpack := unpackByte, unpack_pack := fun _ _ => rfl }

def unit : Codec Unit :=
  { pack := fun _ => [], unpack := fun l => some ((), l), unpack_pack := fun _ _ => rfl }

def unpackOnlyTag : List Byte → Option (Unit × List Byte)
  | [] => none
  | b :: rest => if b = 0 then some ((), rest) else none

/-- The number of the only alternative. -/
def onlyTag : Codec Unit :=
  { pack := fun _ => [0], unpack := unpackOnlyTag, unpack_pack := fun _ _ => rfl }

end Codec

namespace Format

variable {α β κ : Type}

/-! ## Conversions -/

/-- Values written through a conversion `out` and read back through `back`. -/
def through (f : Format β) (out : α → β) (back : β → α)
    (h : ∀ a, out (back (f.norm (out a))) = f.norm (out a)) : Format α :=
  { pack := fun a => f.pack (out a)
    unpack := fun l => (f.unpack l).map fun r => (back r.1, r.2)
    norm := fun a => back (f.norm (out a))
    unpack_pack := fun a rest => by rw [f.unpack_pack]; rfl
    norm_norm := fun a => by rw [h, f.norm_norm] }

/-! ## Pairs -/

def pair (f : Format α) (g : Format β) : Format (α × β) :=
  { pack := fun p => f.pack p.1 ++ g.pack p.2
    unpack := fun l =>
      (f.unpack l).bind fun r => (g.unpack r.2).map fun r' => ((r.1, r'.1), r'.2)
    norm := Prod.map f.norm g.norm
    unpack_pack := fun p rest => by
      rw [List.append_assoc, f.unpack_pack, Option.bind_some, g.unpack_pack]
      rfl
    norm_norm := fun p => Prod.ext (f.norm_norm p.1) (g.norm_norm p.2) }

theorem norm_pair_iff (f : Format α) (g : Format β) (p : α × β) :
    (f.pair g).norm p = p ↔ f.norm p.1 = p.1 ∧ g.norm p.2 = p.2 :=
  Prod.ext_iff

/-! ## Lists -/

def unpackMany (f : Format α) : ℕ → List Byte → Option (List α × List Byte)
  | 0, l => some ([], l)
  | n + 1, l =>
    (f.unpack l).bind fun r => (unpackMany f n r.2).map fun r' => (r.1 :: r'.1, r'.2)

theorem unpackMany_flatMap (f : Format α) (as : List α) (rest : List Byte) :
    f.unpackMany as.length (as.flatMap f.pack ++ rest) = some (as.map f.norm, rest) := by
  induction as with
  | nil => rfl
  | cons a as ih =>
    rw [List.length_cons, List.flatMap_cons, List.append_assoc, unpackMany, f.unpack_pack,
      Option.bind_some, ih]
    rfl

/-- A count and then the elements. -/
def list (count : Codec ℕ) (f : Format α) : Format (List α) :=
  { pack := fun as => count.pack as.length ++ as.flatMap f.pack
    unpack := fun l => (count.unpack l).bind fun r => f.unpackMany r.1 r.2
    norm := fun as => as.map f.norm
    unpack_pack := fun as rest => by
      rw [List.append_assoc, count.unpack_pack, Option.bind_some, f.unpackMany_flatMap]
    norm_norm := fun as => by
      rw [List.map_map]
      exact List.map_congr_left fun a _ => f.norm_norm a }

theorem map_norm_iff (f : Format α) (as : List α) :
    as.map f.norm = as ↔ ∀ a ∈ as, f.norm a = a := by
  induction as with
  | nil => simp
  | cons a as ih => rw [List.map_cons, List.cons.injEq, ih, List.forall_mem_cons]

theorem norm_list_iff (count : Codec ℕ) (f : Format α) (as : List α) :
    (list count f).norm as = as ↔ ∀ a ∈ as, f.norm a = a :=
  f.map_norm_iff as

/-! ## Options -/

def unpackOption (f : Format α) : List Byte → Option (Option α × List Byte)
  | [] => none
  | b :: l => if b = 0 then some (none, l) else (f.unpack l).map fun r => (some r.1, r.2)

/-- A flag and then the value, if there is one. -/
def option (f : Format α) : Format (Option α) :=
  { pack := fun
      | none => [0]
      | some a => 1 :: f.pack a
    unpack := f.unpackOption
    norm := Option.map f.norm
    unpack_pack := fun o rest => by
      cases o with
      | none => rfl
      | some a =>
        rw [List.cons_append, unpackOption, if_neg (by decide), f.unpack_pack]
        rfl
    norm_norm := fun o => by
      cases o with
      | none => rfl
      | some a => exact congrArg some (f.norm_norm a) }

theorem norm_option_iff (f : Format α) (o : Option α) :
    f.option.norm o = o ↔ ∀ a ∈ o, f.norm a = a := by
  cases o with
  | none => simp [option]
  | some a => simp [option]

/-! ## Alternatives -/

def unpackSum (f : Format α) (g : Format β) : List Byte → Option ((α ⊕ β) × List Byte)
  | [] => none
  | b :: l =>
    if b = 0 then (f.unpack l).map fun r => (.inl r.1, r.2)
    else if b = 1 then (g.unpack l).map fun r => (.inr r.1, r.2)
    else none

/-- The number of the alternative and then its value. -/
def sum (f : Format α) (g : Format β) : Format (α ⊕ β) :=
  { pack := fun
      | .inl a => 0 :: f.pack a
      | .inr b => 1 :: g.pack b
    unpack := unpackSum f g
    norm := Sum.map f.norm g.norm
    unpack_pack := fun v rest => by
      cases v with
      | inl a =>
        rw [List.cons_append, unpackSum, if_pos rfl, f.unpack_pack]
        rfl
      | inr b =>
        rw [List.cons_append, unpackSum, if_neg (by decide), if_pos rfl, g.unpack_pack]
        rfl
    norm_norm := fun v => by
      cases v with
      | inl a => exact congrArg Sum.inl (f.norm_norm a)
      | inr b => exact congrArg Sum.inr (g.norm_norm b) }

/-! ## Tagged values -/

/-- A tag and then a value of the type that the tag selects. -/
def tagged (tag : Codec κ) {V : κ → Type} (f : ∀ k, Format (V k)) : Format (Σ k, V k) :=
  { pack := fun v => tag.pack v.1 ++ (f v.1).pack v.2
    unpack := fun l =>
      (tag.unpack l).bind fun r => ((f r.1).unpack r.2).map fun r' => (⟨r.1, r'.1⟩, r'.2)
    norm := fun v => ⟨v.1, (f v.1).norm v.2⟩
    unpack_pack := fun v rest => by
      rw [List.append_assoc, tag.unpack_pack, Option.bind_some, (f v.1).unpack_pack]
      rfl
    norm_norm := fun v => by rw [(f v.1).norm_norm] }

theorem norm_tagged_iff (tag : Codec κ) {V : κ → Type} (f : ∀ k, Format (V k)) (v : Σ k, V k) :
    (tagged tag f).norm v = v ↔ (f v.1).norm v.2 = v.2 := by
  obtain ⟨k, v⟩ := v
  show (⟨k, (f k).norm v⟩ : Σ k, V k) = ⟨k, v⟩ ↔ _
  rw [Sigma.mk.injEq, heq_eq_eq, and_iff_right rfl]

end Format

/-! ## Sorted maps

The rows are read one after the other into an empty map, and a row whose key is already there is
dropped. Keys that the key format identifies therefore collapse. -/

namespace OrdMap

variable {κ : Type} [LinearOrder κ] {α : Type}

def insertNew (m : OrdMap κ α) (r : κ × α) : OrdMap κ α :=
  if m.contains r.1 then m else m.insert r.1 r.2

def ofRows (rows : List (κ × α)) : OrdMap κ α := rows.foldl insertNew empty

theorem find?_insertNew (m : OrdMap κ α) (r : κ × α) (k : κ) :
    (m.insertNew r).find? k = (m.find? k).or (if r.1 = k then some r.2 else none) := by
  unfold insertNew contains
  by_cases hk : r.1 = k
  · subst hk
    cases hfind : m.find? r.1 with
    | none => simp
    | some v => simp [hfind]
  · split <;> simp [hk]

theorem find?_foldl_insertNew (rows : List (κ × α)) (m : OrdMap κ α) (k : κ) :
    (rows.foldl insertNew m).find? k = (m.find? k).or (lookupRow k rows) := by
  induction rows generalizing m with
  | nil => simp [lookupRow]
  | cons r rows ih =>
    rw [List.foldl_cons, ih, find?_insertNew, Option.or_assoc, lookupRow]
    by_cases hk : r.1 = k <;> simp [hk]

theorem find?_ofRows (rows : List (κ × α)) (k : κ) : (ofRows rows).find? k = lookupRow k rows := by
  rw [ofRows, find?_foldl_insertNew, find?_empty, Option.none_or]

theorem mem_of_mem_ofRows {rows : List (κ × α)} {r : κ × α} (h : r ∈ (ofRows rows).rows) :
    r ∈ rows := by
  have hfind := mem_rows.1 h
  rw [find?_ofRows] at hfind
  exact mem_of_lookupRow hfind

end OrdMap

namespace Format

variable {α κ : Type} [LinearOrder κ]

theorem ofRows_map_norm (f : Format (κ × α)) {m : OrdMap κ α} (h : ∀ r ∈ m.rows, f.norm r = r) :
    OrdMap.ofRows (m.rows.map f.norm) = m := by
  rw [(f.map_norm_iff m.rows).2 h]
  exact OrdMap.ext_find fun k => OrdMap.find?_ofRows m.rows k

theorem norm_of_mem_ofRows (f : Format (κ × α)) {rows : List (κ × α)} {r : κ × α}
    (h : r ∈ (OrdMap.ofRows (rows.map f.norm)).rows) : f.norm r = r := by
  obtain ⟨r', -, rfl⟩ := List.mem_map.1 (OrdMap.mem_of_mem_ofRows h)
  exact f.norm_norm r'

/-- A count and then the rows. -/
def ordMap (count : Codec ℕ) (f : Format (κ × α)) : Format (OrdMap κ α) :=
  { pack := fun m => (list count f).pack m.rows
    unpack := fun l => ((list count f).unpack l).map fun r => (OrdMap.ofRows r.1, r.2)
    norm := fun m => OrdMap.ofRows (m.rows.map f.norm)
    unpack_pack := fun m rest => by
      rw [(list count f).unpack_pack]
      rfl
    norm_norm := fun _ => f.ofRows_map_norm fun _ hr => f.norm_of_mem_ofRows hr }

theorem norm_ordMap_iff (count : Codec ℕ) (f : Format (κ × α)) (m : OrdMap κ α) :
    (ordMap count f).norm m = m ↔ ∀ r ∈ m.rows, f.norm r = r := by
  constructor
  · intro h r hr
    -- every row of the map that is read back is a value of `norm`
    have hread : r ∈ (OrdMap.ofRows (m.rows.map f.norm)).rows := by
      rw [show OrdMap.ofRows (m.rows.map f.norm) = m from h]
      exact hr
    exact f.norm_of_mem_ofRows hread
  · exact f.ofRows_map_norm

end Format

end Calibrd.Lib
