import Calibrd.Lib.Format

/-!
# Fixed-size strings

`fixed_string` keeps a string in place, in `n` bytes of storage. It is made from a string by copying
the first `n` bytes over zeroed storage, and converted back by reading up to the first zero byte, or
all of the storage if its last byte is not zero. Comparisons look at the storage: the words are kept
big endian, so they compare as the bytes do, in order.

The two views differ. `ofString_toString_iff`: a value comes back from its string exactly if it is
`Canonical`, that is, nothing but zeros follows the first zero byte, or the last byte is not zero.
-/

namespace Calibrd.Protocol

open Calibrd.Lib

/-- `n` bytes of storage. -/
structure FixedString (n : ℕ) where
  bytes : List Byte
  length_bytes : bytes.length = n
deriving DecidableEq

namespace FixedString

variable {n : ℕ}

theorem bytes_injective : Function.Injective (bytes (n := n)) := by
  intro x y h
  cases x; cases y; cases h; rfl

instance : LinearOrder (FixedString n) := LinearOrder.lift' bytes bytes_injective

/-- The storage that a string is copied into. A longer string is cut off. -/
def ofString (str : List Byte) : FixedString n :=
  ⟨str.take n ++ List.replicate (n - str.length) 0, by
    rw [List.length_append, List.length_take, List.length_replicate]
    omega⟩

variable (x : FixedString n)

def lastByte : Byte := x.bytes.getLastD 0

/-- The bytes in front of the first zero byte. -/
def cString : List Byte := x.bytes.takeWhile (· ≠ 0)

/-- The bytes from the first zero byte on. -/
def tail : List Byte := x.bytes.dropWhile (· ≠ 0)

def toString : List Byte := if x.lastByte ≠ 0 then x.bytes else x.cString

def size : ℕ := x.toString.length

/-- The storage holds nothing that the string conversion does not show. -/
def Canonical : Prop := x.lastByte ≠ 0 ∨ ∀ b ∈ x.tail, b = 0

instance : Decidable x.Canonical :=
  inferInstanceAs (Decidable (x.lastByte ≠ 0 ∨ ∀ b ∈ x.tail, b = 0))

theorem cString_append_tail : x.cString ++ x.tail = x.bytes :=
  List.takeWhile_append_dropWhile

theorem length_cString_add_tail : x.cString.length + x.tail.length = n := by
  rw [← List.length_append, cString_append_tail, x.length_bytes]

theorem toString_of_lastByte {x : FixedString n} (h : x.lastByte ≠ 0) : x.toString = x.bytes :=
  if_pos h

theorem toString_of_lastByte_zero {x : FixedString n} (h : x.lastByte = 0) :
    x.toString = x.cString :=
  if_neg fun hne => hne h

theorem ofString_bytes : ofString x.bytes = x := by
  apply bytes_injective
  show x.bytes.take n ++ List.replicate (n - x.bytes.length) 0 = x.bytes
  have htake : x.bytes.take n = x.bytes := List.take_of_length_le (le_of_eq x.length_bytes)
  rw [htake, x.length_bytes, Nat.sub_self]
  exact List.append_nil _

theorem bytes_ofString_cString :
    (ofString x.cString : FixedString n).bytes =
      x.cString ++ List.replicate x.tail.length 0 := by
  have hlen := x.length_cString_add_tail
  have htake : x.cString.take n = x.cString := List.take_of_length_le (by omega)
  have hpad : n - x.cString.length = x.tail.length := by omega
  show x.cString.take n ++ List.replicate (n - x.cString.length) 0 = _
  rw [htake, hpad]

theorem ofString_cString_iff :
    ofString x.cString = x ↔ ∀ b ∈ x.tail, b = 0 := by
  rw [← bytes_injective.eq_iff, bytes_ofString_cString, ← cString_append_tail,
    List.append_cancel_left_eq, eq_comm, List.eq_replicate_iff]
  exact and_iff_right rfl

theorem ofString_toString_iff : ofString x.toString = x ↔ x.Canonical := by
  by_cases hlast : x.lastByte = 0
  · rw [toString_of_lastByte_zero hlast, ofString_cString_iff]
    exact ⟨Or.inr, fun h => h.resolve_left fun hne => hne hlast⟩
  · rw [toString_of_lastByte hlast, ofString_bytes]
    exact ⟨fun _ => Or.inl hlast, fun _ => rfl⟩

/-- A string without a zero byte is read back as far as it was copied. -/
theorem cString_ofString {str : List Byte} (h : 0 ∉ str) :
    (ofString str : FixedString n).cString = str.take n := by
  have hne : ∀ b ∈ str.take n, decide (b ≠ 0) = true := fun b hb =>
    decide_eq_true fun he => h (he ▸ List.mem_of_mem_take hb)
  show (str.take n ++ List.replicate (n - str.length) 0).takeWhile (· ≠ 0) = str.take n
  rw [List.takeWhile_append_of_pos hne]
  cases n - str.length with
  | zero => exact List.append_nil _
  | succ k => rw [List.replicate_succ, List.takeWhile_cons_of_neg (by decide), List.append_nil]

/-- No byte of `cString` is zero, so reading the copy stops where reading the value did. -/
theorem cString_ofString_cString :
    (ofString x.cString : FixedString n).cString = x.cString := by
  have hlen := x.length_cString_add_tail
  refine (cString_ofString fun h => ?_).trans (List.take_of_length_le (by omega))
  exact absurd rfl (of_decide_eq_true (List.mem_takeWhile_imp (p := fun b => decide (b ≠ 0)) h))

theorem toString_ofString_toString :
    (ofString x.toString : FixedString n).toString = x.toString := by
  by_cases hlast : x.lastByte = 0
  · rw [toString_of_lastByte_zero hlast]
    by_cases hfull : x.tail = []
    · -- nothing was cut off, so the copy is the value itself
      have hself : ofString x.cString = x := by
        rw [ofString_cString_iff, hfull]
        exact fun b hb => nomatch hb
      rw [hself, toString_of_lastByte_zero hlast]
    · have hzero : (ofString x.cString : FixedString n).lastByte = 0 := by
        obtain ⟨k, hk⟩ := Nat.exists_eq_succ_of_ne_zero fun h => hfull (List.length_eq_zero_iff.1 h)
        rw [lastByte, bytes_ofString_cString, hk, List.replicate_succ', ← List.append_assoc,
          List.getLastD_concat]
      rw [toString_of_lastByte_zero hzero, cString_ofString_cString]
  · rw [toString_of_lastByte hlast, ofString_bytes, toString_of_lastByte hlast]

section Strings

variable {s t : List Byte}

theorem toString_ofString (h : 0 ∉ s) : (ofString s : FixedString n).toString = s.take n := by
  by_cases hlast : (ofString s : FixedString n).lastByte = 0
  · rw [toString_of_lastByte_zero hlast, cString_ofString h]
  · rw [toString_of_lastByte hlast]
    rw [lastByte, ofString] at hlast
    dsimp only [ofString] at hlast ⊢
    cases hk : n - s.length with
    | zero => exact List.append_nil _
    | succ k =>
      rw [hk, List.replicate_succ', ← List.append_assoc, List.getLastD_concat] at hlast
      exact absurd rfl hlast

theorem ofString_take (s : List Byte) : (ofString (s.take n) : FixedString n) = ofString s := by
  apply bytes_injective
  show (s.take n).take n ++ List.replicate (n - (s.take n).length) 0 = _
  rw [List.take_take, min_self, List.length_take, show n - min n s.length = n - s.length by omega]
  rfl

/-- Zeros behind a string come before every byte that continues it. -/
theorem ofString_lt_iff (hs : 0 ∉ s) (ht : 0 ∉ t) :
    (ofString s : FixedString n) < ofString t ↔ s.take n < t.take n := by
  show s.take n ++ List.replicate (n - s.length) 0 < t.take n ++ List.replicate (n - t.length) 0 ↔ _
  induction n generalizing s t with
  | zero => simp
  | succ n ih =>
    cases s with
    | nil =>
      cases t with
      | nil => simp
      | cons y t =>
        have hy : 0 < y := Fin.pos_iff_ne_zero.2 fun h => ht (h ▸ List.mem_cons_self)
        simp [List.replicate_succ, List.cons_lt_cons_iff, hy]
    | cons x s =>
      cases t with
      | nil =>
        have hx : x ≠ 0 := fun h => hs (h ▸ List.mem_cons_self)
        simp [List.replicate_succ, List.cons_lt_cons_iff, hx]
      | cons y t =>
        have := ih (fun h => hs (List.mem_cons_of_mem x h)) fun h => ht (List.mem_cons_of_mem y h)
        simp [List.cons_lt_cons_iff, this]

end Strings

/-- Canonical values are told apart by their strings. -/
theorem Canonical.toString_inj {x y : FixedString n} (hx : x.Canonical) (hy : y.Canonical)
    (h : x.toString = y.toString) : x = y := by
  rw [← (ofString_toString_iff x).2 hx, ← (ofString_toString_iff y).2 hy, h]

/-- Packed and unpacked as the string. -/
def format (n : ℕ) : Format (FixedString n) :=
  (Format.list Codec.varint Codec.byte.toFormat).through toString ofString fun x => by
    show toString (ofString (x.toString.map id) : FixedString n) = x.toString.map id
    rw [List.map_id, toString_ofString_toString]

theorem norm_format_iff : (format n).norm x = x ↔ x.Canonical := by
  show ofString (x.toString.map id) = x ↔ _
  rw [List.map_id, ofString_toString_iff]

end FixedString

/-! ## Account names -/

abbrev AccountName := FixedString 16

def MIN_ACCOUNT_NAME_LENGTH : ℕ := 3

def MAX_ACCOUNT_NAME_LENGTH : ℕ := 16

/-- The byte of a character of the ASCII range. -/
def ascii (c : Char) : Byte := Fin.ofNat 256 c.toNat

def ofAscii (s : String) : List Byte := s.toList.map ascii

def isLetter (b : Byte) : Bool := ascii 'a' ≤ b && b ≤ ascii 'z'

def isLetterOrDigit (b : Byte) : Bool := isLetter b || (ascii '0' ≤ b && b ≤ ascii '9')

/-- One part between dots: the first, the last and then the inner characters. -/
def isValidLabel (label : List Byte) : Bool :=
  3 ≤ label.length && isLetter (label.headD 0) && isLetterOrDigit (label.getLastD 0) &&
    label.tail.dropLast.all fun b => isLetterOrDigit b || b == ascii '-'

def is_valid_account_name (name : List Byte) : Bool :=
  MIN_ACCOUNT_NAME_LENGTH ≤ name.length && name.length ≤ MAX_ACCOUNT_NAME_LENGTH &&
    (name.splitOn (ascii '.')).all isValidLabel

example : is_valid_account_name (ofAscii "bob.a-1") = true := by decide
example : is_valid_account_name (ofAscii "bob.ab") = false := by decide

/-! ## The grammar of account names

`is_valid_account_name` as the source has it, a loop that goes from dot to dot, and the grammar of
its documentation. The loop accepts exactly the names of the grammar
(`NameLoop.is_valid_account_name_iff`), and it is the function that the other models use
(`NameLoop.is_valid_account_name_eq`).
-/

/-- `<letter> <let-dig-hyp>+ <let-dig>`, in lower case. -/
def IsLabel (label : List Byte) : Prop :=
  ∃ first inner last, label = first :: (inner ++ [last]) ∧ inner ≠ [] ∧ isLetter first = true ∧
    (∀ b ∈ inner, isLetterOrDigit b = true ∨ b = ascii '-') ∧ isLetterOrDigit last = true

/-- `<label> ("." <label>)*`, of a length within the limits. -/
structure IsAccountName (name : List Byte) : Prop where
  min_length : MIN_ACCOUNT_NAME_LENGTH ≤ name.length
  max_length : name.length ≤ MAX_ACCOUNT_NAME_LENGTH
  labels : ∃ labels ≠ [], name = [ascii '.'].intercalate labels ∧ ∀ label ∈ labels, IsLabel label

section Label

variable {label : List Byte}

theorem length_of_isValidLabel (h : isValidLabel label = true) : 3 ≤ label.length := by
  simp only [isValidLabel, Bool.and_eq_true, decide_eq_true_eq] at h
  exact h.1.1.1

theorem isValidLabel_ends (a z : Byte) (inner : List Byte) :
    isValidLabel (a :: (inner ++ [z])) = true ↔ inner ≠ [] ∧ isLetter a = true ∧
      (∀ b ∈ inner, isLetterOrDigit b = true ∨ b = ascii '-') ∧ isLetterOrDigit z = true := by
  have hlast : (a :: inner ++ [z]).getLastD 0 = z := List.getLastD_concat
  have hlen : 3 ≤ (a :: (inner ++ [z])).length ↔ inner ≠ [] := by
    rw [← List.length_pos_iff]
    simp only [List.length_cons, List.length_append, List.length_nil]
    omega
  rw [List.cons_append] at hlast
  simp only [isValidLabel, hlast, hlen, Bool.and_eq_true, decide_eq_true_eq, List.headD_cons,
    List.tail_cons, List.dropLast_concat, List.all_eq_true, Bool.or_eq_true, beq_iff_eq]
  tauto

theorem isValidLabel_iff : isValidLabel label = true ↔ IsLabel label := by
  constructor
  · intro h
    have hlen := length_of_isValidLabel h
    obtain ⟨a, rest, rfl⟩ := List.exists_cons_of_length_pos (by omega : 0 < label.length)
    obtain rfl | ⟨inner, z, rfl⟩ := rest.eq_nil_or_concat'
    · simp at hlen
    · exact ⟨a, inner, z, rfl, (isValidLabel_ends a z inner).1 h⟩
  · rintro ⟨a, inner, z, rfl, h⟩
    exact (isValidLabel_ends a z inner).2 h

theorem IsLabel.dot_not_mem (h : IsLabel label) : ascii '.' ∉ label := by
  obtain ⟨a, inner, z, rfl, -, hfirst, hinner, hlast⟩ := h
  rw [List.mem_cons, List.mem_append, List.mem_singleton]
  rintro (rfl | hmem | rfl)
  · exact absurd hfirst (by decide)
  · exact absurd (hinner _ hmem) (by decide)
  · exact absurd hlast (by decide)

end Label

/-! ## The loop -/

namespace NameLoop

variable (name : List Byte) (begin : ℕ)

/-- `find_first_of( c, begin )`; `none` is `npos`. -/
def find_first_of (c : Byte) : Option ℕ :=
  ((name.drop begin).findIdx? (· == c)).map (begin + ·)

/-- `end`, in the round at `begin`. -/
def labelEnd : ℕ := (find_first_of name begin (ascii '.')).getD name.length

/-- The characters from `begin` to `end`. -/
def labelAt : List Byte := (name.drop begin).take (labelEnd name begin - begin)

/-- The rounds from `begin` on. -/
def scan (begin : ℕ) : Bool :=
  if h : isValidLabel (labelAt name begin) = true then
    if labelEnd name begin = name.length then true else scan (labelEnd name begin + 1)
  else false
termination_by name.length - begin
decreasing_by
  have hlen := length_of_isValidLabel h
  rw [labelAt, List.length_take, List.length_drop] at hlen
  omega

def is_valid_account_name : Bool :=
  if name.length < MIN_ACCOUNT_NAME_LENGTH then false
  else if MAX_ACCOUNT_NAME_LENGTH < name.length then false
  else scan name 0

theorem find_first_of_append (pre : List Byte) {label : List Byte} (h : ascii '.' ∉ label)
    (post : List Byte) : find_first_of (pre ++ (label ++ post)) pre.length (ascii '.') =
      (post.findIdx? (· == ascii '.')).map fun k => pre.length + (k + label.length) := by
  have hnone : label.findIdx? (· == ascii '.') = none :=
    List.findIdx?_eq_none_iff.2 fun b hb => beq_false_of_ne fun he => h (he ▸ hb)
  rw [find_first_of, List.drop_left, List.findIdx?_append, hnone, Option.none_or, Option.map_map]
  rfl

/-- From any place on, the rounds check the parts between the dots. -/
theorem scan_eq (pre rest : List Byte) :
    scan (pre ++ rest) pre.length = (rest.splitOn (ascii '.')).all isValidLabel := by
  induction hn : rest.length using Nat.strong_induction_on generalizing pre rest with
  | _ n ih =>
    rw [scan]
    by_cases hdot : ascii '.' ∈ rest
    · obtain ⟨label, post, rfl, hlabel⟩ := List.eq_append_cons_of_mem hdot
      have hend : labelEnd (pre ++ (label ++ ascii '.' :: post)) pre.length =
          pre.length + label.length := by
        rw [labelEnd, find_first_of_append pre hlabel]
        simp [List.findIdx?_cons]
      have hnext := ih post.length (by simp at hn; omega) (pre ++ (label ++ [ascii '.'])) post rfl
      rw [List.splitOn_append_cons_self_of_not_mem hlabel, List.all_cons, ← hnext]
      simp [labelAt, hend, Nat.add_assoc]
    · have hend : labelEnd (pre ++ rest) pre.length = (pre ++ rest).length := by
        have hnone := find_first_of_append pre hdot []
        rw [List.append_nil] at hnone
        rw [labelEnd, hnone]
        rfl
      rw [List.splitOn_eq_singleton hdot]
      simp [labelAt, hend]

theorem is_valid_account_name_eq : is_valid_account_name name = Protocol.is_valid_account_name name := by
  unfold is_valid_account_name Protocol.is_valid_account_name
  have hscan := scan_eq [] name
  rw [List.nil_append, List.length_nil] at hscan
  rw [hscan]
  split_ifs <;> simp_all

/-- The loop accepts the names of the grammar. -/
theorem is_valid_account_name_iff : is_valid_account_name name = true ↔ IsAccountName name := by
  rw [is_valid_account_name_eq]
  simp only [Protocol.is_valid_account_name, Bool.and_eq_true, decide_eq_true_eq, List.all_eq_true,
    isValidLabel_iff]
  constructor
  · rintro ⟨⟨hmin, hmax⟩, hlabels⟩
    exact ⟨hmin, hmax, _, List.splitOn_ne_nil _ _, (List.intercalate_splitOn _).symm, hlabels⟩
  · rintro ⟨hmin, hmax, labels, hne, rfl, hlabels⟩
    refine ⟨⟨hmin, hmax⟩, ?_⟩
    rwa [List.splitOn_intercalate _ (fun l hl => (hlabels l hl).dot_not_mem) hne]

end NameLoop

end Calibrd.Protocol
