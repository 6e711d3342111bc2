import Calibrd.Protocol.FixedString

/-!
# The words of a fixed-size string

`fixed_string` on a little-endian machine. The bytes of a string are copied over the zeroed words of
the storage, and `big_to_native` reverses the bytes of every word. A `uint128` is two words, `hi` in
front of `lo`, and an `erpair` is the words of its parts, so 16, 24 and 32 bytes are 2, 3 and 4 words.
They are compared one after the other.

The words are those of a `FixedString`, and compare as its bytes do (`words_lt_iff`), so for strings
without a zero byte all four views of a value agree (`WordString.faithful`).
-/

namespace Calibrd.Protocol

open Calibrd.Lib

/-! ## Words in memory -/

/-- The number whose lowest byte is the first. -/
def load : List Byte → ℕ
  | [] => 0
  | b :: rest => b + 256 * load rest

/-- The `n` lowest bytes of a number. -/
def store : ℕ → ℕ → List Byte
  | 0, _ => []
  | n + 1, w => Fin.ofNat 256 w :: store n (w / 256)

section Load

variable {l l' : List Byte}

theorem store_load (l : List Byte) : store l.length (load l) = l := by
  induction l with
  | nil => rfl
  | cons b l ih =>
    have hb : Fin.ofNat 256 (b + 256 * load l) = b := by
      apply Fin.ext
      simp [Fin.ofNat, Nat.mod_eq_of_lt b.isLt]
    have hrest : (b + 256 * load l) / 256 = load l := by omega
    rw [load, List.length_cons, store, hb, hrest, ih]

theorem load_append (l l' : List Byte) : load (l ++ l') = load l + 256 ^ l.length * load l' := by
  induction l with
  | nil => simp [load]
  | cons b l ih =>
    rw [List.cons_append, load, load, ih, List.length_cons]
    ring

theorem load_lt (l : List Byte) : load l < 256 ^ l.length := by
  induction l with
  | nil => exact Nat.one_pos
  | cons b l ih =>
    rw [load, List.length_cons, Nat.pow_succ]
    omega

/-- With the highest byte in front, numbers compare as their bytes do. -/
theorem load_reverse_lt_iff (h : l.length = l'.length) :
    load l.reverse < load l'.reverse ↔ l < l' := by
  induction l generalizing l' with
  | nil => simp [List.length_eq_zero_iff.1 h.symm, load]
  | cons b l ih =>
    obtain ⟨b', l', rfl⟩ := List.exists_cons_of_length_pos (h ▸ Nat.succ_pos _ : 0 < l'.length)
    have hlen : l.length = l'.length := Nat.succ.inj h
    have hlow := load_lt l.reverse
    have hlow' := load_lt l'.reverse
    rw [List.cons_lt_cons_iff, ← ih hlen, List.reverse_cons, List.reverse_cons, load_append,
      load_append]
    simp only [List.length_reverse, ← hlen, load, Nat.mul_zero, Nat.add_zero] at hlow hlow' ⊢
    rcases lt_trichotomy b b' with hb | rfl | hb
    · have := Nat.mul_le_mul_left (256 ^ l.length) (Nat.succ_le_of_lt hb)
      rw [Nat.mul_succ] at this
      exact iff_of_true (by omega) (.inl hb)
    · simp
    · have := Nat.mul_le_mul_left (256 ^ l.length) (Nat.succ_le_of_lt hb)
      rw [Nat.mul_succ] at this
      exact iff_of_false (by omega) (not_or.2 ⟨lt_asymm hb, fun h => hb.ne' h.1⟩)

end Load

/-- `boost::endian::endian_reverse` of a word. -/
def endian_reverse (w : ℕ) : ℕ := load (store 8 w).reverse

/-- `big_to_native` and `native_to_big` of the storage. -/
def endianReverse (d : List ℕ) : List ℕ := d.map endian_reverse

/-- `k` words of memory. -/
def loadWords : ℕ → List Byte → List ℕ
  | 0, _ => []
  | k + 1, bytes => load (bytes.take 8) :: loadWords k (bytes.drop 8)

def storeWords (d : List ℕ) : List Byte := d.flatMap (store 8)

/-! ## The words of a value -/

namespace WordString

/-- The `data` of a string in `k` words. -/
def ofString (k : ℕ) (str : List Byte) : List ℕ :=
  endianReverse (loadWords k (str.take (8 * k) ++ List.replicate (8 * k - str.length) 0))

variable (data : List ℕ)

def toString : List Byte :=
  let d := storeWords (endianReverse data)
  if d.getLastD 0 ≠ 0 then d else d.takeWhile (· ≠ 0)

def size : ℕ :=
  let d := storeWords (endianReverse data)
  if d.getLastD 0 ≠ 0 then d.length else (d.takeWhile (· ≠ 0)).length

def pack : List Byte := (Format.list Codec.varint Codec.byte.toFormat).pack (toString data)

def unpack (k : ℕ) (bytes : List Byte) : Option (List ℕ) :=
  ((Format.list Codec.varint Codec.byte.toFormat).unpack bytes).map fun r => ofString k r.1

end WordString

section Words

variable {k : ℕ} {bytes bytes' : List Byte}

theorem length_take_eight (h : bytes.length = 8 * (k + 1)) : (bytes.take 8).length = 8 := by
  rw [List.length_take]
  omega

theorem length_drop_eight (h : bytes.length = 8 * (k + 1)) : (bytes.drop 8).length = 8 * k := by
  rw [List.length_drop]
  omega

theorem endian_reverse_load (h : bytes.length = 8) :
    endian_reverse (load bytes) = load bytes.reverse := by
  rw [endian_reverse, ← h, store_load]

theorem storeWords_loadWords (h : bytes.length = 8 * k) :
    storeWords (endianReverse (endianReverse (loadWords k bytes))) = bytes := by
  induction k generalizing bytes with
  | zero => exact (List.length_eq_zero_iff.1 h).symm
  | succ k ih =>
    have hfirst := length_take_eight h
    have hword : store 8 (endian_reverse (endian_reverse (load (bytes.take 8)))) = bytes.take 8 := by
      rw [endian_reverse_load hfirst, endian_reverse_load (by rwa [List.length_reverse]),
        List.reverse_reverse]
      nth_rewrite 1 [← hfirst]
      exact store_load _
    calc storeWords (endianReverse (endianReverse (loadWords (k + 1) bytes)))
        = store 8 (endian_reverse (endian_reverse (load (bytes.take 8)))) ++
            storeWords (endianReverse (endianReverse (loadWords k (bytes.drop 8)))) := rfl
      _ = bytes.take 8 ++ bytes.drop 8 := by rw [hword, ih (length_drop_eight h)]
      _ = bytes := List.take_append_drop 8 bytes

theorem append_lt_append_iff {a a' b b' : List Byte} (h : a.length = a'.length) :
    a ++ b < a' ++ b' ↔ a < a' ∨ a = a' ∧ b < b' := by
  induction a generalizing a' with
  | nil => simp [List.length_eq_zero_iff.1 h.symm]
  | cons x a ih =>
    obtain ⟨x', a', rfl⟩ := List.exists_cons_of_length_pos (h ▸ Nat.succ_pos _ : 0 < a'.length)
    rw [List.cons_append, List.cons_append, List.cons_lt_cons_iff, List.cons_lt_cons_iff,
      ih (Nat.succ.inj h), List.cons.injEq]
    tauto

theorem words_lt_iff (h : bytes.length = 8 * k) (h' : bytes'.length = 8 * k) :
    endianReverse (loadWords k bytes) < endianReverse (loadWords k bytes') ↔ bytes < bytes' := by
  induction k generalizing bytes bytes' with
  | zero => simp [List.length_eq_zero_iff.1 h, List.length_eq_zero_iff.1 h', loadWords]
  | succ k ih =>
    have hfirst := length_take_eight h
    have hfirst' := length_take_eight h'
    have hlen := hfirst.trans hfirst'.symm
    have heq : load (bytes.take 8).reverse = load (bytes'.take 8).reverse ↔
        bytes.take 8 = bytes'.take 8 := by
      rw [← not_iff_not, ← ne_eq, ← ne_eq, lt_or_lt_iff_ne.symm, lt_or_lt_iff_ne.symm,
        load_reverse_lt_iff hlen, load_reverse_lt_iff hlen.symm]
    nth_rewrite 2 [← List.take_append_drop 8 bytes]
    nth_rewrite 2 [← List.take_append_drop 8 bytes']
    rw [append_lt_append_iff hlen, ← ih (length_drop_eight h) (length_drop_eight h'), ← heq,
      ← load_reverse_lt_iff hlen, ← endian_reverse_load hfirst, ← endian_reverse_load hfirst']
    exact List.cons_lt_cons_iff

end Words

/-! ## The views agree -/

namespace WordString

variable {k : ℕ}

theorem toString_words (x : FixedString (8 * k)) :
    toString (endianReverse (loadWords k x.bytes)) = x.toString := by
  rw [toString, storeWords_loadWords x.length_bytes]
  rfl

theorem size_words (x : FixedString (8 * k)) :
    size (endianReverse (loadWords k x.bytes)) = x.size := by
  rw [size, storeWords_loadWords x.length_bytes]
  exact (apply_ite List.length _ _ _).symm

theorem unpack_pack (data : List ℕ) : unpack k (pack data) = some (ofString k (toString data)) := by
  have hrepack := (Format.list Codec.varint Codec.byte.toFormat).repack_eq (toString data)
  obtain ⟨r, hr, hfst⟩ := Option.map_eq_some_iff.1 hrepack
  rw [unpack, pack, hr, Option.map_some, hfst]
  exact congrArg (fun l => some (ofString k l)) (List.map_id _)

/-- A string without a zero byte is kept up to what fits, and its words are equal and ordered as these
prefixes are. -/
theorem faithful (k : ℕ) {s t : List Byte} (hs : 0 ∉ s) (ht : 0 ∉ t) :
    toString (ofString k s) = s.take (8 * k) ∧
    size (ofString k s) = (s.take (8 * k)).length ∧
    (ofString k s = ofString k t ↔ s.take (8 * k) = t.take (8 * k)) ∧
    (ofString k s < ofString k t ↔ s.take (8 * k) < t.take (8 * k)) ∧
    unpack k (pack (ofString k s)) = some (ofString k s) := by
  have hstring : ∀ {s : List Byte}, 0 ∉ s → toString (ofString k s) = s.take (8 * k) := fun h =>
    (toString_words (.ofString _)).trans (FixedString.toString_ofString h)
  have htake : ∀ s : List Byte, ofString k (s.take (8 * k)) = ofString k s := fun s =>
    congrArg (fun x : FixedString (8 * k) => endianReverse (loadWords k x.bytes))
      (FixedString.ofString_take s)
  refine ⟨hstring hs, ?_, ⟨fun h => ?_, fun h => ?_⟩, ?_, ?_⟩
  · exact (size_words (.ofString s)).trans (congrArg List.length (FixedString.toString_ofString hs))
  · rw [← hstring hs, h, hstring ht]
  · rw [← htake s, h, htake t]
  · exact (words_lt_iff (FixedString.length_bytes _) (FixedString.length_bytes _)).trans
      (FixedString.ofString_lt_iff hs ht)
  · rw [unpack_pack, hstring hs, htake]

/-- Two names of 16 bytes at most, the first of which is longer. -/
theorem faithful_names :
    toString (ofString 2 (ofAscii "calibrae-project-1")) = ofAscii "calibrae-project" ∧
    ofString 2 (ofAscii "calibrae-project-1") < ofString 2 (ofAscii "calibrd") := by
  obtain ⟨hstring, -, -, hlt, -⟩ := faithful 2 (s := ofAscii "calibrae-project-1")
    (t := ofAscii "calibrd") (by decide) (by decide)
  exact ⟨hstring, hlt.2 (by decide)⟩

end WordString

end Calibrd.Protocol
