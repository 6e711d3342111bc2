import Calibrd.Chain.BlockApplication

/-!
# The laws of a chain, from its parts

What the node needs to know of a chain (`ChainLaws`) follows from what the parts of block
application do to the head and to the last irreversible block (`Protocol.Laws`). The checks and the
table of transactions have no influence on either.
-/

namespace Calibrd.Chain.Protocol

open Calibrd.Lib Calibrd.Chainbase Prog

variable {B : BlockSpec} {P : Protocol B}

/-- The invariant, the head and the last irreversible block stay. -/
def Stays (P : Protocol B) (Inv : Contents P.S → Prop) (c c' : Contents P.S) : Prop :=
  Inv c → Inv c' ∧ P.head_block_id c'.view = P.head_block_id c.view ∧
    P.last_irreversible_block_num c'.view = P.last_irreversible_block_num c.view

/-- What is assumed of the parts of block application: the head moves in
`update_global_dynamic_data` only, and the last irreversible block in `updateIrreversible` only. -/
structure Laws (P : Protocol B) where
  Inv : Contents P.S → Prop
  head_num : ∀ {c}, Inv c → P.head_block_num c.view = B.num_from_id (P.head_block_id c.view)
  lib_le : ∀ {c}, Inv c → P.last_irreversible_block_num c.view ≤ P.head_block_num c.view
  setCurrentWitness : ∀ b, Moves (P.Stays Inv) (P.setCurrentWitness b)
  process_header_extensions : ∀ b, Moves (P.Stays Inv) (P.process_header_extensions b)
  apply_operation : ∀ op, Moves (P.Stays Inv) (P.apply_operation op)
  update_global_dynamic_data : ∀ {c c' b}, Inv c → P.head_block_id c.view = B.previous b →
    (P.update_global_dynamic_data b).run c = (.ok (), c') →
    Inv c' ∧ P.head_block_id c'.view = B.id b ∧
      P.last_irreversible_block_num c'.view = P.last_irreversible_block_num c.view
  update_signing_witness : ∀ b, Moves (P.Stays Inv) (P.update_signing_witness b)
  updateIrreversible : ∀ {c c'}, Inv c → P.updateIrreversible.run c = (.ok (), c') →
    Inv c' ∧ P.head_block_id c'.view = P.head_block_id c.view ∧
      P.last_irreversible_block_num c.view ≤ P.last_irreversible_block_num c'.view
  create_block_summary : ∀ b, Moves (P.Stays Inv) (P.create_block_summary b)
  maintain : ∀ b, Moves (P.Stays Inv) (P.maintain b)
  assemble_previous : ∀ skip v args txs, B.previous (P.assemble skip v args txs) = P.head_block_id v

variable {Inv : Contents P.S → Prop}

theorem Stays.refl (c : Contents P.S) : P.Stays Inv c c := fun h => ⟨h, rfl, rfl⟩

theorem Stays.trans {a b c : Contents P.S} (h : P.Stays Inv a b) (h' : P.Stays Inv b c) :
    P.Stays Inv a c := by
  intro ha
  obtain ⟨hb, hid, hlib⟩ := h ha
  obtain ⟨hc, hid', hlib'⟩ := h' hb
  exact ⟨hc, hid'.trans hid, hlib'.trans hlib⟩

/-- The same of the contents with the table of transactions. -/
def StaysBelow (P : Protocol B) (Inv : Contents P.S → Prop) (c c' : Contents P.tables) : Prop :=
  P.Stays Inv c.base c'.base

theorem StaysBelow.refl (c : Contents P.tables) : P.StaysBelow Inv c c := Stays.refl c.base

theorem StaysBelow.trans {a b c : Contents P.tables} (h : P.StaysBelow Inv a b)
    (h' : P.StaysBelow Inv b c) : P.StaysBelow Inv a c := Stays.trans h h'

theorem moves_bind {α β : Type} {p : Prog P.tables P.E α} {f : α → Prog P.tables P.E β}
    (hp : Moves (P.StaysBelow Inv) p) (hf : ∀ a, Moves (P.StaysBelow Inv) (f a)) :
    Moves (P.StaysBelow Inv) (p.bind f) :=
  Moves.bind (fun _ _ _ => StaysBelow.trans) hp hf

variable {p : Prog P.S P.E Unit}

theorem moves_part (h : Moves (P.Stays Inv) p) :
    Moves (P.StaysBelow Inv) (P.part p) := by
  intro c
  rw [← Contents.extend_base_added c, run_lift]
  exact h c.base

theorem moves_checked (f : View P.S → Except P.E Unit) :
    Moves (P.StaysBelow Inv) (P.checked f) := by
  intro c
  simp only [checked, Prog.run]
  cases f (View.base c.view) <;> exact Stays.refl _

theorem moves_forAll {α : Type} {S : Schema} {Q : Contents S → Contents S → Prop}
    (hrefl : ∀ c, Q c c) (htrans : ∀ a b c, Q a b → Q b c → Q a c) {f : α → Prog S P.E Unit}
    (h : ∀ a, Moves Q (f a)) : ∀ l, Moves Q (forAll f l)
  | [] => hrefl
  | a :: rest => Moves.bind htrans (h a) fun _ => moves_forAll hrefl htrans h rest

theorem moves_checkDuplicate (skip : SkipFlags) (trx : P.Tx) :
    Moves (P.StaysBelow Inv) (P.checkDuplicate skip trx) := by
  intro c
  simp only [checkDuplicate, Prog.run]
  split <;> exact Stays.refl _

/-- A change of the table of transactions is not seen below it. -/
theorem base_update_added (c : Contents P.tables) (T : Table P.transactionKeys) :
    Contents.base (Function.update c none T) = c.base := by
  funext t
  exact Function.update_of_ne (by simp) _ _

theorem moves_noteTransaction (skip : SkipFlags) (trx : P.Tx) :
    Moves (P.StaysBelow Inv) (P.noteTransaction skip trx) := by
  intro c
  unfold noteTransaction
  split
  · exact Stays.refl _
  · simp only [Prog.run]
    split
    · exact Stays.refl _
    · next T _ =>
      rw [StaysBelow, base_update_added c T]
      exact Stays.refl _

theorem moves_clearExpired (rounds : ℕ) : Moves (P.StaysBelow Inv) (P.clearExpired rounds) := by
  induction rounds with
  | zero => exact fun c => Stays.refl _
  | succ rounds ih =>
    intro c
    simp only [clearExpired, Prog.run]
    split
    · exact Stays.refl _
    · next i o _ =>
      split
      · simp only [Prog.run]
        split
        · exact Stays.refl _
        · next T _ =>
          have h := ih (Function.update c none T)
          rw [StaysBelow, base_update_added c T] at h
          exact h
      · exact Stays.refl _

/-! ## Whole blocks and transactions -/

/-- `_apply_block` up to the transactions. -/
def applyThrough (P : Protocol B) (skip : SkipFlags) (b : B.Block) : Prog P.tables P.E Unit := do
  P.checked fun _ => P.checkMerkle skip b
  P.checked (P.validate_block_header skip b)
  P.checked (P.checkSize b)
  P.part (P.setCurrentWitness b)
  P.part (P.process_header_extensions b)
  P.checked (P.checkVersion b)
  forAll (P.apply_transaction skip) (P.transactions b)

/-- `_apply_block` from there to `update_signing_witness`. -/
def applyRest (P : Protocol B) (skip : SkipFlags) (b : B.Block) : Prog P.tables P.E Unit := do
  P.part (P.update_global_dynamic_data b)
  P.checked (P.checkUndoHistory skip)
  P.part (P.update_signing_witness b)

theorem applyBefore_eq (skip : SkipFlags) (b : B.Block) :
    P.applyBefore skip b = (P.applyThrough skip b).bind fun _ => P.applyRest skip b := by
  simp only [applyBefore, applyThrough, applyRest, Bind.bind, Prog.bind_assoc]

namespace Laws

variable (Λ : P.Laws) {skip : SkipFlags} {b : B.Block} {c c' : Contents P.tables}

theorem apply_transaction (skip : SkipFlags) (trx : P.Tx) :
    Moves (P.StaysBelow Λ.Inv) (P.apply_transaction skip trx) := by
  refine moves_bind (moves_checked _) fun _ => moves_bind (moves_checkDuplicate skip trx) fun _ => ?_
  refine moves_bind (moves_checked _) fun _ => moves_bind (moves_checked _) fun _ => ?_
  refine moves_bind (moves_noteTransaction skip trx) fun _ => moves_part ?_
  exact moves_forAll Stays.refl (fun _ _ _ => Stays.trans) Λ.apply_operation _

theorem transactions (skip : SkipFlags) (l : List P.Tx) :
    Moves (P.StaysBelow Λ.Inv) (forAll (P.apply_transaction skip) l) :=
  moves_forAll StaysBelow.refl (fun _ _ _ => StaysBelow.trans) (Λ.apply_transaction skip) l

theorem applyAfter (b : B.Block) : Moves (P.StaysBelow Λ.Inv) (P.applyAfter b) := by
  refine moves_bind (moves_part (Λ.create_block_summary b)) fun _ => ?_
  refine moves_bind (fun c => moves_clearExpired _ c) fun _ => ?_
  exact moves_part (Λ.maintain b)

theorem run_checked_iff {f : View P.S → Except P.E Unit} :
    (P.checked f).run c = (.ok (), c') ↔ f c.base.view = .ok () ∧ c' = c := by
  have hview : View.base c.view = c.base.view := rfl
  simp only [checked, Prog.run, hview]
  cases f c.base.view with
  | ok u => simp [Prog.run, eq_comm]
  | error e => simp [Prog.run]

theorem run_part_iff :
    (P.part p).run c = (.ok (), c') ↔ p.run c.base = (.ok (), c'.base) ∧ c'.added = c.added :=
  run_lift_ok

theorem run_part_ok (h : (P.part p).run c = (.ok (), c')) :
    p.run c.base = (.ok (), c'.base) :=
  (run_part_iff.1 h).1

theorem added_of_part (h : (P.part p).run c = (.ok (), c')) :
    c'.added = c.added :=
  (run_part_iff.1 h).2

theorem validate_block_header_previous {v : View P.S}
    (h : P.validate_block_header skip b v = .ok ()) : P.head_block_id v = B.previous b := by
  simp only [validate_block_header, bind_eq_ok, check_eq_ok, decide_eq_true_eq] at h
  exact h.1

/-- What a transaction does to the table of transactions. -/
def Notes (skip : SkipFlags) (trx : P.Tx) (T T' : Table P.transactionKeys) : Prop :=
  if skip.skip_transaction_dupe_check then T' = T
  else P.isKnown T.rows trx = false ∧ T.create (P.transactionObject trx) = some T'

variable {trx : P.Tx}

theorem run_noteTransaction_iff :
    (P.noteTransaction skip trx).run c = (.ok (), c') ↔ c'.base = c.base ∧
      if skip.skip_transaction_dupe_check then c'.added = c.added
      else c.added.create (P.transactionObject trx) = some c'.added := by
  have hparts : c' = c ↔ c'.base = c.base ∧ c'.added = c.added := by
    refine ⟨fun h => by rw [h]; exact ⟨rfl, rfl⟩, fun h => ?_⟩
    rw [← Contents.extend_base_added c', h.1, h.2, Contents.extend_base_added]
  unfold noteTransaction
  cases skip.skip_transaction_dupe_check with
  | true => simpa [Prog.run, eq_comm] using hparts
  | false =>
    have hcreate : (c none).create (P.transactionObject trx) =
        c.added.create (P.transactionObject trx) := rfl
    simp only [Bool.false_eq_true, if_false, Prog.run, hcreate]
    cases c.added.create (P.transactionObject trx) with
    | none => simp
    | some T =>
      have hupdate : Function.update c none T = c.base.extend T := by
        have h := Contents.update_added c.base c.added T
        rwa [Contents.extend_base_added] at h
      constructor
      · intro h
        obtain rfl : c.base.extend T = c' := hupdate.symm.trans (Prod.mk.inj h).2
        exact ⟨rfl, rfl⟩
      · rintro ⟨hbase, hadded⟩
        refine Prod.ext rfl (hupdate.trans ?_)
        rw [← hbase, Option.some.inj hadded, Contents.extend_base_added]

theorem run_checkDuplicate_iff :
    (P.checkDuplicate skip trx).run c = (.ok (), c') ↔ c' = c ∧
      (skip.skip_transaction_dupe_check = false → P.isKnown c.added.rows trx = false) := by
  have hknown : P.is_known_transaction c.view trx = P.isKnown c.added.rows trx := rfl
  simp only [checkDuplicate, Prog.run, hknown]
  cases skip.skip_transaction_dupe_check <;> cases P.isKnown c.added.rows trx <;>
    simp [Prog.run, eq_comm]

/-- The checks and the parts of `_apply_transaction`. -/
theorem run_apply_transaction_iff :
    (P.apply_transaction skip trx).run c = (.ok (), c') ↔
      P.checkValid skip trx = .ok () ∧ P.checkAuthority skip trx c.base.view = .ok () ∧
        P.checkReference skip trx c.base.view = .ok () ∧ Notes skip trx c.added c'.added ∧
        (forAll P.apply_operation (P.operations trx)).run c.base = (.ok (), c'.base) := by
  constructor
  · intro h
    obtain ⟨_, d1, hvalid, h⟩ := run_bind_ok.1 h
    obtain ⟨_, d2, hdup, h⟩ := run_bind_ok.1 h
    obtain ⟨_, d3, hauth, h⟩ := run_bind_ok.1 h
    obtain ⟨_, d4, href, h⟩ := run_bind_ok.1 h
    obtain ⟨_, d5, hnote, hops⟩ := run_bind_ok.1 h
    obtain ⟨hvalid', rfl⟩ := run_checked_iff.1 hvalid
    obtain ⟨rfl, hnew⟩ := run_checkDuplicate_iff.1 hdup
    obtain ⟨hauth', rfl⟩ := run_checked_iff.1 hauth
    obtain ⟨href', rfl⟩ := run_checked_iff.1 href
    obtain ⟨hbase, hadded⟩ := run_noteTransaction_iff.1 hnote
    obtain ⟨hops', hadded'⟩ := run_part_iff.1 hops
    rw [hbase] at hops'
    refine ⟨hvalid', hauth', href', ?_, hops'⟩
    unfold Notes
    rw [hadded']
    cases hskip : skip.skip_transaction_dupe_check with
    | true =>
      rw [hskip] at hadded
      exact hadded
    | false =>
      rw [hskip] at hadded
      exact ⟨hnew hskip, hadded⟩
  · rintro ⟨hvalid, hauth, href, hnotes, hops⟩
    refine run_bind_ok.2 ⟨(), c, run_checked_iff.2 ⟨hvalid, rfl⟩, ?_⟩
    refine run_bind_ok.2 ⟨(), c, run_checkDuplicate_iff.2 ⟨rfl, fun hskip => ?_⟩, ?_⟩
    · rw [Notes, hskip] at hnotes
      exact hnotes.1
    refine run_bind_ok.2 ⟨(), c, run_checked_iff.2 ⟨hauth, rfl⟩, ?_⟩
    refine run_bind_ok.2 ⟨(), c, run_checked_iff.2 ⟨href, rfl⟩, ?_⟩
    refine run_bind_ok.2 ⟨(), c.base.extend c'.added, run_noteTransaction_iff.2 ⟨rfl, ?_⟩,
      run_part_iff.2 ⟨hops, rfl⟩⟩
    unfold Notes at hnotes
    cases hskip : skip.skip_transaction_dupe_check with
    | true =>
      rw [hskip] at hnotes
      exact hnotes
    | false =>
      rw [hskip] at hnotes
      exact hnotes.2

/-- The first transactions may be expired, the later ones may not. -/
theorem time_le_of_checkReference {v : View P.S} (h : P.checkReference skip trx v = .ok ())
    (hpos : 0 < P.head_block_num v) :
    P.head_block_time v ≤ P.expiration trx := by
  rw [checkReference, if_pos hpos] at h
  have hexp := (bind_eq_ok.1 h).2
  simp only [checkExpiration, bind_eq_ok, check_eq_ok, decide_eq_true_eq] at hexp
  exact hexp.2.2

/-- The checks and the parts of `_apply_block` up to the transactions. -/
theorem run_applyThrough_iff : (P.applyThrough skip b).run c = (.ok (), c') ↔
    P.checkMerkle skip b = .ok () ∧ P.validate_block_header skip b c.base.view = .ok () ∧
      P.checkSize b c.base.view = .ok () ∧
      ∃ c1 c2, (P.part (P.setCurrentWitness b)).run c = (.ok (), c1) ∧
        (P.part (P.process_header_extensions b)).run c1 = (.ok (), c2) ∧
        P.checkVersion b c2.base.view = .ok () ∧
        (forAll (P.apply_transaction skip) (P.transactions b)).run c2 = (.ok (), c') := by
  constructor
  · intro h
    obtain ⟨_, d1, hmerkle, h⟩ := run_bind_ok.1 h
    obtain ⟨_, d2, hheader, h⟩ := run_bind_ok.1 h
    obtain ⟨_, d3, hsize, h⟩ := run_bind_ok.1 h
    obtain ⟨_, c1, hcurrent, h⟩ := run_bind_ok.1 h
    obtain ⟨_, c2, hextensions, h⟩ := run_bind_ok.1 h
    obtain ⟨_, d4, hversion, htransactions⟩ := run_bind_ok.1 h
    obtain ⟨hmerkle', rfl⟩ := run_checked_iff.1 hmerkle
    obtain ⟨hheader', rfl⟩ := run_checked_iff.1 hheader
    obtain ⟨hsize', rfl⟩ := run_checked_iff.1 hsize
    obtain ⟨hversion', rfl⟩ := run_checked_iff.1 hversion
    exact ⟨hmerkle', hheader', hsize', c1, d4, hcurrent, hextensions, hversion', htransactions⟩
  · rintro ⟨hmerkle, hheader, hsize, c1, c2, hcurrent, hextensions, hversion, htransactions⟩
    refine run_bind_ok.2 ⟨(), c, run_checked_iff.2 ⟨hmerkle, rfl⟩, ?_⟩
    refine run_bind_ok.2 ⟨(), c, run_checked_iff.2 ⟨hheader, rfl⟩, ?_⟩
    refine run_bind_ok.2 ⟨(), c, run_checked_iff.2 ⟨hsize, rfl⟩, ?_⟩
    refine run_bind_ok.2 ⟨(), c1, hcurrent, run_bind_ok.2 ⟨(), c2, hextensions, ?_⟩⟩
    exact run_bind_ok.2 ⟨(), c2, run_checked_iff.2 ⟨hversion, rfl⟩, htransactions⟩

/-- The parts of `_apply_block` from there to `update_signing_witness`. -/
theorem run_applyBefore_ok (h : (P.applyBefore skip b).run c = (.ok (), c')) :
    ∃ c1 c2, (P.applyThrough skip b).run c = (.ok (), c1) ∧
      (P.part (P.update_global_dynamic_data b)).run c1 = (.ok (), c2) ∧
      (P.part (P.update_signing_witness b)).run c2 = (.ok (), c') := by
  rw [applyBefore_eq] at h
  obtain ⟨_, c1, hthrough, h⟩ := run_bind_ok.1 h
  obtain ⟨_, c2, hglobal, h⟩ := run_bind_ok.1 h
  obtain ⟨_, d, hundo, hsigning⟩ := run_bind_ok.1 h
  obtain ⟨-, rfl⟩ := run_checked_iff.1 hundo
  exact ⟨c1, d, hthrough, hglobal, hsigning⟩

/-- A block that gets to `update_last_irreversible_block` was built on the head and became it. -/
theorem applyBefore_ok (hc : Λ.Inv c.base) (h : (P.applyBefore skip b).run c = (.ok (), c')) :
    P.head_block_id c.base.view = B.previous b ∧ Λ.Inv c'.base ∧
      P.head_block_id c'.base.view = B.id b ∧
      P.last_irreversible_block_num c'.base.view = P.last_irreversible_block_num c.base.view := by
  obtain ⟨c3, c4, hthrough, hglobal, hsigning⟩ := run_applyBefore_ok h
  obtain ⟨-, hheader, -, c1, c2, hcurrent, hextensions, -, htransactions⟩ :=
    run_applyThrough_iff.1 hthrough
  -- up to the transactions the head stays where the header check found it
  have htrx : P.StaysBelow Λ.Inv c2 c3 := (Λ.transactions skip _).of_ok htransactions
  have hbefore : P.StaysBelow Λ.Inv c c3 :=
    ((moves_part (Λ.setCurrentWitness b)).of_ok hcurrent).trans
      (((moves_part (Λ.process_header_extensions b)).of_ok hextensions).trans htrx)
  have hprevious := validate_block_header_previous hheader
  obtain ⟨hinv3, hid3, hlib3⟩ := hbefore hc
  obtain ⟨hinv4, hid4, hlib4⟩ :=
    Λ.update_global_dynamic_data hinv3 (hid3.trans hprevious) (run_part_ok hglobal)
  obtain ⟨hinv, hid, hlib⟩ := (moves_part (Λ.update_signing_witness b)).of_ok hsigning hinv4
  exact ⟨hprevious, hinv, hid.trans hid4, hlib.trans (hlib4.trans hlib3)⟩

/-- The laws of the chain. -/
def chainLaws : ChainLaws P.chain where
  Inv c := Λ.Inv c.base
  head_num hc := Λ.head_num hc
  lib_le hc := Λ.lib_le hc
  before_inv hc h := (Λ.applyBefore_ok hc h).2.1
  before_previous hc h := (Λ.applyBefore_ok hc h).1
  before_id hc h := (Λ.applyBefore_ok hc h).2.2.1
  before_lib hc h := (Λ.applyBefore_ok hc h).2.2.2
  update_inv hc h := (Λ.updateIrreversible hc (run_part_ok h)).1
  update_id hc h := (Λ.updateIrreversible hc (run_part_ok h)).2.1
  update_lib hc h := (Λ.updateIrreversible hc (run_part_ok h)).2.2
  after_inv _ b hc := (Λ.applyAfter b _ hc).1
  after_id _ b hc := (Λ.applyAfter b _ hc).2.1
  after_lib _ b hc := (Λ.applyAfter b _ hc).2.2
  transaction_inv hc h := ((Λ.apply_transaction _ _).of_ok h hc).1
  transaction_id hc h := ((Λ.apply_transaction _ _).of_ok h hc).2.1
  transaction_lib hc h := ((Λ.apply_transaction _ _).of_ok h hc).2.2
  assemble_previous skip v args txs := Λ.assemble_previous skip (View.base v) args txs

end Laws

end Calibrd.Chain.Protocol
