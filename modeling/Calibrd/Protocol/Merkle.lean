import Calibrd.Lib.HashTree

/-!
# The Merkle root of a block

`signed_block::calculate_merkle_root` works in place: each round of its loop writes the next level
over the front of the one array of digests. The array then holds the tree of `treeRoot`, so the
root binds a block to its transactions (`MerkleHashes.calculate_merkle_root_binds`).
-/

namespace Calibrd.Protocol

open Calibrd.Lib

/-- `digest_type::hash` of a pair, `checksum_type::hash`, `checksum_type()` and
`signed_transaction::merkle_digest`. -/
structure MerkleHashes (Tx D K : Type) where
  hash : D × D → D
  checksum : D → K
  zero : K
  merkle_digest : Tx → D

namespace MerkleHashes

variable {Tx D K : Type} (H : MerkleHashes Tx D K)

/-- `for( uint32_t i = 0; i < i_max; i += 2 )` with the write index `k`; the array is the function
of its indices. The counters of 32 bits are natural numbers: a block has fewer than `2^32`
transactions. -/
def hashPairs (i i_max k : ℕ) (ids : ℕ → D) : (ℕ → D) × ℕ :=
  if i < i_max then
    hashPairs (i + 2) i_max (k + 1) (Function.update ids k (H.hash (ids i, ids (i + 1))))
  else (ids, k)
termination_by i_max - i

/-- A round of the `while` loop: the array and the number of hashes after it. -/
def hashLevel (current_number_of_hashes : ℕ) (ids : ℕ → D) : (ℕ → D) × ℕ :=
  let i_max := current_number_of_hashes - current_number_of_hashes % 2
  let (ids, k) := H.hashPairs 0 i_max 0 ids
  if current_number_of_hashes % 2 ≠ 0 then (Function.update ids k (ids i_max), k + 1) else (ids, k)

theorem hashPairs_eq {k m : ℕ} (h : k ≤ m) (ids : ℕ → D) :
    H.hashPairs (2 * k) (2 * m) k ids =
      (fun j => if k ≤ j ∧ j < m then H.hash (ids (2 * j), ids (2 * j + 1)) else ids j, m) := by
  induction h using Nat.decreasingInduction generalizing ids with
  | self =>
    rw [hashPairs, if_neg (by omega)]
    exact Prod.ext (funext fun j => (if_neg (by omega)).symm) rfl
  | of_succ k h ih =>
    rw [hashPairs, if_pos (by omega), show 2 * k + 2 = 2 * (k + 1) by omega, ih]
    refine Prod.ext (funext fun j => ?_) rfl
    dsimp only
    by_cases hj : j = k
    · subst hj
      rw [if_neg (by omega), if_pos (by omega), Function.update_self]
    · have hread (i : ℕ) (hi : k < i) : Function.update ids k (H.hash (ids (2 * k), ids (2 * k + 1))) i
          = ids i := Function.update_of_ne (by omega) _ _
      by_cases hjk : k + 1 ≤ j ∧ j < m
      · rw [if_pos hjk, if_pos (by omega), hread _ (by omega), hread _ (by omega)]
      · rw [if_neg hjk, if_neg (by omega), Function.update_of_ne hj]

theorem hashLevel_eq (n : ℕ) (ids : ℕ → D) : (H.hashLevel n ids).2 = (n + 1) / 2 ∧
    ∀ j < (n + 1) / 2, (H.hashLevel n ids).1 j =
      if 2 * j + 1 < n then H.hash (ids (2 * j), ids (2 * j + 1)) else ids (2 * j) := by
  have hmax : n - n % 2 = 2 * (n / 2) := by omega
  have hpairs := H.hashPairs_eq (Nat.zero_le (n / 2)) ids
  rw [hashLevel, hmax, hpairs]
  dsimp only
  by_cases hodd : n % 2 ≠ 0
  · rw [if_pos hodd]
    refine ⟨by dsimp only; omega, fun j hj => ?_⟩
    dsimp only
    by_cases hlast : j = n / 2
    · subst hlast
      rw [Function.update_self, if_neg (by omega), if_neg (by omega)]
    · rw [Function.update_of_ne hlast, if_pos (by omega), if_pos (by omega)]
  · rw [if_neg hodd]
    refine ⟨by dsimp only; omega, fun j hj => ?_⟩
    dsimp only
    rw [if_pos (by omega), if_pos (by omega)]

def hashLevels (current_number_of_hashes : ℕ) (ids : ℕ → D) : ℕ → D :=
  if 1 < current_number_of_hashes then
    let level := H.hashLevel current_number_of_hashes ids
    hashLevels level.2 level.1
  else ids
termination_by current_number_of_hashes
decreasing_by
  rw [(hashLevel_eq ..).1]
  omega

/-- The front of the array is the root of the level it held before the loop. -/
theorem treeRoot_range (n : ℕ) (ids : ℕ → D) (h : n ≠ 0) :
    treeRoot H.hash ((List.range n).map ids) = some (H.hashLevels n ids 0) := by
  fun_induction hashLevels H n ids with
  | case1 n ids hn level ih =>
    obtain ⟨hlength, hread⟩ := H.hashLevel_eq n ids
    rw [← ih (by dsimp only [level]; omega), ← treeRoot_pairUp, pairUp_range, hlength]
    refine congrArg _ (List.map_congr_left fun j hj => (hread j (List.mem_range.1 hj)).symm)
  | case2 n ids hn =>
    obtain rfl : n = 1 := by omega
    simp [treeRoot]

variable [Inhabited D]

/-- `signed_block::calculate_merkle_root` -/
def calculate_merkle_root (transactions : List Tx) : K :=
  if transactions.length = 0 then H.zero
  else
    let ids := transactions.map H.merkle_digest
    H.checksum (H.hashLevels ids.length (fun i => ids.getD i default) 0)

theorem calculate_merkle_root_eq (transactions : List Tx) :
    H.calculate_merkle_root transactions =
      (treeRoot H.hash (transactions.map H.merkle_digest)).elim H.zero H.checksum := by
  rw [calculate_merkle_root]
  split_ifs with h
  · simp [List.length_eq_zero_iff.1 h, treeRoot]
  · have hids (ids : List D) : (List.range ids.length).map (fun i => ids.getD i default) = ids :=
      List.ext_getElem (by simp) (by simp +contextual)
    rw [← hids (transactions.map H.merkle_digest), treeRoot_range, hids]
    · rfl
    · simpa using h

/-- The hashes are injective and never zero, and no digest of a transaction is the hash of a
pair. -/
structure Sound : Prop where
  hash : H.hash.Injective
  checksum : H.checksum.Injective
  checksum_ne_zero : ∀ d, H.checksum d ≠ H.zero
  merkle_digest : ∀ tx p, H.merkle_digest tx ≠ H.hash p

/-- The loop computes the root of the tree, and two blocks with one root have the same list of
digests. -/
theorem calculate_merkle_root_binds :
    (∀ transactions, H.calculate_merkle_root transactions =
      (treeRoot H.hash (transactions.map H.merkle_digest)).elim H.zero H.checksum) ∧
    (H.Sound → ∀ transactions transactions' : List Tx,
      H.calculate_merkle_root transactions = H.calculate_merkle_root transactions' →
      transactions.map H.merkle_digest = transactions'.map H.merkle_digest) := by
  refine ⟨H.calculate_merkle_root_eq, fun hsound txs txs' h => ?_⟩
  rw [calculate_merkle_root_eq, calculate_merkle_root_eq] at h
  have helim : Function.Injective fun root : Option D => root.elim H.zero H.checksum := by
    rintro (_ | d) (_ | d') heq
    · rfl
    · exact absurd heq.symm (hsound.checksum_ne_zero d')
    · exact absurd heq (hsound.checksum_ne_zero d)
    · exact congrArg some (hsound.checksum heq)
  have hleaf : ∀ d p, d ∈ Set.range H.merkle_digest → d ≠ H.hash p := by
    rintro _ p ⟨tx, rfl⟩
    exact hsound.merkle_digest tx p
  exact treeRoot_injOn hsound.hash hleaf (by simp) (by simp) (helim h)

/-- Numbers as digests: even ones of transactions, odd ones of pairs. -/
def pairing : MerkleHashes ℕ ℕ ℕ where
  hash p := 2 * Nat.pair p.1 p.2 + 1
  checksum d := d + 1
  zero := 0
  merkle_digest tx := 2 * tx

theorem pairing_sound : pairing.Sound where
  hash p q h := Nat.pairEquiv.injective (Nat.eq_of_mul_eq_mul_left Nat.two_pos (Nat.succ.inj h))
  checksum d d' h := by simpa [pairing] using h
  checksum_ne_zero d := by simp [pairing]
  merkle_digest tx p := by
    simp only [pairing]
    omega

theorem pairing_binds : pairing.calculate_merkle_root [1, 2, 3] ≠
    pairing.calculate_merkle_root [1, 2] := fun h =>
  absurd (pairing.calculate_merkle_root_binds.2 pairing_sound _ _ h) (by decide)

end MerkleHashes

end Calibrd.Protocol
