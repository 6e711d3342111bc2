import Calibrd.Chain.Invariant

/-!
# A chain of headers

The smallest chain a node can run: `_apply_block` reduced to the head properties, the checks of the
previous id and of the timestamp in `validate_block_header`, and the rule by which
`update_last_irreversible_block` moves the last irreversible block as long as there is no voting
schedule. Ids are free terms instead of hashes. It is the chain of the concrete runs in this
development.
-/

namespace Calibrd.Chain.HeaderChain

open Calibrd.Lib Calibrd.Chainbase

inductive HeaderId where
  | zero
  | block (previous : HeaderId) (timestamp salt : ℕ)
deriving DecidableEq, Repr

def HeaderId.num : HeaderId → ℕ
  | .zero => 0
  | .block previous _ _ => previous.num + 1

structure Header where
  previous : HeaderId
  timestamp : ℕ
  salt : ℕ
deriving DecidableEq, Repr

abbrev blocks : BlockSpec where
  Id := HeaderId
  decId := inferInstance
  Block := Header
  zero := .zero
  num_from_id := HeaderId.num
  id b := .block b.previous b.timestamp b.salt
  previous b := b.previous
  num_zero := rfl
  num_id _ := rfl
  previous_of_id _ _ h := by injection h

/-- The head properties of `dynamic_global_property_object`. -/
structure Properties where
  head_block_number : ℕ
  head_block_id : HeaderId
  time : ℕ
  last_irreversible_block_num : ℕ
deriving DecidableEq, Repr

def Properties.genesis : Properties := ⟨0, .zero, 0, 0⟩

/-- The head after the block. -/
def Properties.next (b : Header) (p : Properties) : Properties :=
  { p with
    head_block_number := b.previous.num + 1
    head_block_id := blocks.id b
    time := b.timestamp }

/-- The last irreversible block stays `STEEMIT_MAX_WITNESSES` behind the head. -/
def Properties.settle (p : Properties) : Properties :=
  if p.head_block_number > 21 then
    { p with last_irreversible_block_num := p.head_block_number - 21 }
  else p

abbrev tables : Schema where
  T := Unit
  dec := inferInstance
  Row _ := Properties
  keys _ := []
  index_list := [()]
  complete _ := List.mem_singleton.2 rfl
  nodup := List.pairwise_singleton _ _

theorem keepsKeys (f : Properties → Properties) : KeepsKeys (tables.keys ()) f := by
  intro k hk
  cases hk

def properties (v : View tables) : Properties := ((v ()).find? 0).getD .genesis

inductive HeaderError where
  | wrong_previous
  | wrong_timestamp
deriving DecidableEq, Repr

def applyHeader (b : Header) : Prog tables HeaderError Unit :=
  .read fun v =>
    if (properties v).head_block_id ≠ b.previous then .throw .wrong_previous
    else if b.timestamp ≤ (properties v).time then .throw .wrong_timestamp
    else .modify () 0 (Properties.next b) (keepsKeys _) (.pure ())

def settle : Prog tables HeaderError Unit :=
  .modify () 0 Properties.settle (keepsKeys _) (.pure ())

def chain : ChainSpec blocks tables where
  E := HeaderError
  Tx := ℕ
  GenArgs := ℕ
  head_block_id v := (properties v).head_block_id
  head_block_num v := (properties v).head_block_number
  last_irreversible_block_num v := (properties v).last_irreversible_block_num
  transactions _ := []
  applyBefore _ b := applyHeader b
  updateIrreversible := settle
  applyAfter _ _ := .pure ()
  applyTransaction _ _ := .pure ()
  is_known_transaction _ _ := false
  mayGenerate _ _ _ := .ok ()
  pack_size _ := 1
  expired _ _ := false
  max_block_header_size := 0
  maximum_block_size _ := 1000
  assemble _ v salt _ := ⟨(properties v).head_block_id, (properties v).time + 1, salt⟩
  fits _ := true

instance : DecidableEq chain.E := inferInstanceAs (DecidableEq HeaderError)

/-! ## Its laws -/

/-- The property object is there, its number is that of its id, and the last irreversible block is
far enough behind. -/
def Inv (c : Contents tables) : Prop :=
  ∃ p, (c ()).rows.find? 0 = some p ∧ p.head_block_number = p.head_block_id.num ∧
    p.last_irreversible_block_num ≤ p.head_block_number - 21

variable {p : Properties}

theorem properties_of_find {c : Contents tables} (h : (c ()).rows.find? 0 = some p) :
    properties c.view = p := by
  unfold properties Contents.view
  rw [h]
  rfl

/-- What a modification of the property object leaves. -/
theorem run_modify {E : Type} {c c' : Contents tables} {f : Properties → Properties}
    (h : (c ()).rows.find? 0 = some p)
    (hrun : (Prog.modify () 0 f (keepsKeys f) (.pure ()) : Prog tables E Unit).run c =
      (.ok (), c')) : (c' ()).rows.find? 0 = some (f p) := by
  simp only [Prog.run] at hrun
  cases hm : (c ()).modify 0 f (keepsKeys f) with
  | none => rw [hm] at hrun; cases hrun
  | some T =>
    rw [hm] at hrun
    obtain ⟨v, hv, hrows, -⟩ := Table.modify_eq_some hm
    obtain rfl : v = p := Option.some.inj (hv.symm.trans h)
    cases hrun
    simp [hrows]

/-- A block that is accepted builds on the head and becomes it. -/
theorem run_applyHeader {c c' : Contents tables} {b : Header} (h : (c ()).rows.find? 0 = some p)
    (hrun : (applyHeader b).run c = (.ok (), c')) :
    p.head_block_id = b.previous ∧ (c' ()).rows.find? 0 = some (p.next b) := by
  simp only [applyHeader, Prog.run] at hrun
  rw [properties_of_find h] at hrun
  split at hrun
  · cases hrun
  · next hprev =>
    split at hrun
    · cases hrun
    · exact ⟨not_not.1 hprev, run_modify h hrun⟩

theorem settle_lib_le (h : p.last_irreversible_block_num ≤ p.head_block_number - 21) :
    p.last_irreversible_block_num ≤ p.settle.last_irreversible_block_num ∧
      p.settle.last_irreversible_block_num ≤ p.head_block_number - 21 := by
  unfold Properties.settle
  split
  · exact ⟨h, le_rfl⟩
  · exact ⟨le_rfl, h⟩

theorem settle_head (p : Properties) : p.settle.head_block_number = p.head_block_number ∧
    p.settle.head_block_id = p.head_block_id := by
  unfold Properties.settle
  split <;> exact ⟨rfl, rfl⟩

def laws : ChainLaws chain where
  Inv := Inv
  head_num := by
    rintro c ⟨p, hp, hnum, -⟩
    simp only [chain, properties_of_find hp]
    exact hnum
  lib_le := by
    rintro c ⟨p, hp, -, hlib⟩
    simp only [chain, properties_of_find hp]
    exact hlib.trans (Nat.sub_le _ _)
  before_inv := by
    rintro c c' skip b ⟨p, hp, hnum, hlib⟩ hrun
    obtain ⟨hprev, hp'⟩ := run_applyHeader hp hrun
    refine ⟨p.next b, hp', rfl, hlib.trans ?_⟩
    rw [hnum, hprev]
    exact Nat.sub_le_sub_right (Nat.le_succ _) 21
  before_previous := by
    rintro c c' skip b ⟨p, hp, -⟩ hrun
    simp only [chain, properties_of_find hp]
    exact (run_applyHeader hp hrun).1
  before_id := by
    rintro c c' skip b ⟨p, hp, -⟩ hrun
    simp only [chain, properties_of_find (run_applyHeader hp hrun).2]
    rfl
  before_lib := by
    rintro c c' skip b ⟨p, hp, -⟩ hrun
    simp only [chain, properties_of_find hp, properties_of_find (run_applyHeader hp hrun).2]
    rfl
  update_inv := by
    rintro c c' ⟨p, hp, hnum, hlib⟩ hrun
    obtain ⟨hn, hid⟩ := settle_head p
    refine ⟨p.settle, run_modify hp hrun, ?_, ?_⟩
    · rw [hn, hid]
      exact hnum
    · rw [hn]
      exact (settle_lib_le hlib).2
  update_id := by
    rintro c c' ⟨p, hp, -⟩ hrun
    simp only [chain, properties_of_find hp, properties_of_find (run_modify hp hrun)]
    exact (settle_head p).2
  update_lib := by
    rintro c c' ⟨p, hp, -, hlib⟩ hrun
    simp only [chain, properties_of_find hp, properties_of_find (run_modify hp hrun)]
    exact (settle_lib_le hlib).1
  after_inv := fun _ _ h => h
  after_id := fun _ _ _ => rfl
  after_lib := fun _ _ _ => rfl
  transaction_inv := by
    intro c c' skip trx h hrun
    cases hrun
    exact h
  transaction_id := by
    intro c c' skip trx h hrun
    cases hrun
    rfl
  transaction_lib := by
    intro c c' skip trx h hrun
    cases hrun
    rfl
  assemble_previous := fun _ _ _ _ => rfl

/-! ## A node at genesis -/

/-- The contents at genesis: the property object alone. -/
def genesisTable : Table (tables.keys ()) where
  rows := OrdMap.empty.insert 0 Properties.genesis
  next_id := 1
  below := by
    intro i v h
    simp only [OrdMap.find?_insert, OrdMap.find?_empty] at h
    split at h
    · omega
    · cases h
  unique := by
    intro i v j w hi hj hne
    simp only [OrdMap.find?_insert, OrdMap.find?_empty] at hi hj
    split at hi
    · split at hj
      · omega
      · cases hj
    · cases hi

def genesis : Contents tables := fun _ => genesisTable

theorem inv_genesis : Inv genesis := ⟨.genesis, rfl, rfl, le_rfl⟩

def genesisNode : Node chain where
  db := fun _ => ⟨[], 0, 1, genesisTable.rows⟩
  fork := .init
  pending_tx := []
  pending_tx_session := false
  popped_tx := []
  block_log := []
  committed := 0
  reverted := []

theorem refinement_genesis : Refinement genesisNode.db ⟨genesis, [], 0⟩ :=
  fun _ => ⟨rfl, rfl, rfl, trivial⟩

/-- `count` blocks in a row, one second apart. -/
def headers (previous : HeaderId) (timestamp salt : ℕ) : ℕ → List Header
  | 0 => []
  | count + 1 =>
    ⟨previous, timestamp, salt⟩ ::
      headers (.block previous timestamp salt) (timestamp + 1) salt count

def pushes (l : List Header) : List (Call chain) := l.map (Call.push_block skip_nothing)

end Calibrd.Chain.HeaderChain
