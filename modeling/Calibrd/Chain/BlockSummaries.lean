import Calibrd.Chain.Pending

/-!
# Block summaries

`create_block_summary` writes the id of each block to a ring of `0x10000` objects, at the place that
the low bits of its number give. Transactions refer to blocks through it, and
`find_block_id_for_num` looks there first. The table is part of the tables that sessions undo, so it
goes back with the head in a fork switch. No other function writes it.

The ring has the ids of blocks on the main chain only, and those of all recent blocks, but for one
case: a block that makes itself irreversible and then throws stays the head, perhaps without its
summary.
-/

namespace Calibrd.Chain

open Calibrd.Lib Calibrd.Chainbase

variable {B : BlockSpec} {S : Schema}

/-- `block_summary_object`. -/
structure BlockSummary (B : BlockSpec) where
  block_id : B.Id

/-- It is indexed by its own id alone. -/
def summaryKeys (B : BlockSpec) : List (UniqueKey (BlockSummary B)) := []

/-- The `block_summary_id_type` of a block number. -/
def summaryId (block_num : ℕ) : ℕ := block_num &&& 0xFFFF

theorem summaryId_eq (k : ℕ) : summaryId k = k % 0x10000 := Nat.and_two_pow_sub_one_eq_mod k 16

def create_block_summary {E : Type} (b : B.Block) : Prog (S.extend (summaryKeys B)) E Unit :=
  .modify none (summaryId (B.block_num b)) (fun p => { p with block_id := B.id b })
    (fun _ hk => absurd hk List.not_mem_nil) (.pure ())

/-- The chain with block summaries: `_apply_block` goes on with `create_block_summary` after
`update_last_irreversible_block`. -/
def ChainSpec.withSummaries (C : ChainSpec B (S.extend (summaryKeys B))) :
    ChainSpec B (S.extend (summaryKeys B)) :=
  { C with
    applyAfter := fun skip b => (create_block_summary b).bind fun _ => C.applyAfter skip b }

/-- The rest of the chain reads the summaries, but does not write them. -/
structure LeavesSummaries (C : ChainSpec B (S.extend (summaryKeys B))) : Prop where
  applyBefore : ∀ skip b, (C.applyBefore skip b).Moves fun c c' => c'.added = c.added
  updateIrreversible : C.updateIrreversible.Moves fun c c' => c'.added = c.added
  applyAfter : ∀ skip b, (C.applyAfter skip b).Moves fun c c' => c'.added = c.added
  applyTransaction : ∀ skip trx, (C.applyTransaction skip trx).Moves fun c c' => c'.added = c.added

namespace LeavesSummaries

variable {C : ChainSpec B (S.extend (summaryKeys B))} {skip : SkipFlags} {b : B.Block}
  {c c2 : Contents (S.extend (summaryKeys B))}

theorem began (hC : LeavesSummaries C) (h : Began C.withSummaries skip c b c2) :
    c2.added = c.added := by
  obtain ⟨c1, hbefore, hupdate⟩ := h
  exact (hC.updateIrreversible.of_ok hupdate).trans ((hC.applyBefore skip b).of_ok hbefore)

/-- The second half of a block throws at once, or writes the summary whatever happens then. -/
theorem after (hC : LeavesSummaries C) (skip : SkipFlags) (b : B.Block)
    (c : Contents (S.extend (summaryKeys B))) :
    (∃ e, (C.withSummaries.applyAfter skip b).run c = (.error e, c)) ∨
      ((C.withSummaries.applyAfter skip b).run c).2.added.rows =
        c.added.rows.insert (summaryId (B.block_num b)) ⟨B.id b⟩ := by
  show (∃ e, ((create_block_summary b).bind fun _ => C.applyAfter skip b).run c = _) ∨
    (((create_block_summary b).bind fun _ => C.applyAfter skip b).run c).2.added.rows = _
  rw [Prog.run_bind]
  simp only [create_block_summary, Prog.run]
  cases hm : (c none).modify (summaryId (B.block_num b)) (fun p => { p with block_id := B.id b })
      (fun _ hk => absurd hk List.not_mem_nil) with
  | none => exact Or.inl ⟨_, rfl⟩
  | some T =>
    obtain ⟨v, -, hrows, -⟩ := Table.modify_eq_some hm
    refine Or.inr ?_
    have hnew : Contents.added (Function.update c none T) = T := Function.update_self ..
    dsimp only
    rw [hC.applyAfter skip b, hnew]
    exact hrows

theorem applyTransactions (hC : LeavesSummaries C) {q : List (SkipFlags × C.Tx)}
    {d : Contents (S.extend (summaryKeys B))}
    (h : applyTransactions C.withSummaries c q = .ok d) : d.added = c.added := by
  induction q generalizing c with
  | nil =>
    cases h
    rfl
  | cons p rest ih =>
    obtain ⟨c', hfirst, hrest⟩ := applyTransactions_cons h
    exact (ih hrest).trans ((hC.applyTransaction p.1 p.2).of_ok hfirst)

end LeavesSummaries

/-! ## What the ring holds -/

/-- The summaries are of blocks on the main chain, and those of the reversible blocks of the last round
are all there. -/
structure SummariesKept (C : ChainSpec B (S.extend (summaryKeys B)))
    (v : View (S.extend (summaryKeys B))) : Prop where
  below : ∀ i bs, (View.added v).find? i = some bs →
    bs.block_id = B.zero ∨ Ancestor B bs.block_id (C.head_block_id v)
  recent : ∀ k, C.last_irreversible_block_num v < k → k ≤ C.head_block_num v →
    C.head_block_num v < k + 0x10000 →
    ∃ bs, (View.added v).find? (summaryId k) = some bs ∧ B.num_from_id bs.block_id = k

namespace SummariesKept

variable {C : ChainSpec B (S.extend (summaryKeys B))} {L : ChainLaws C}
  {c c' : Contents (S.extend (summaryKeys B))} {b : B.Block}

theorem genesis {v : View (S.extend (summaryKeys B))} (hnum : C.head_block_num v = 0)
    (h : ∀ i bs, (View.added v).find? i = some bs → bs.block_id = B.zero) : SummariesKept C v :=
  ⟨fun i bs hbs => Or.inl (h i bs hbs), fun k hlow hhigh => by omega⟩

/-- Once a block stands on top, its summary is written or it is irreversible. -/
theorem atBlock (h : SummariesKept C c.view) (hc : L.Inv c) (hat : AtBlock L c b c')
    (hrows : c'.added.rows = c.added.rows ∧
        C.last_irreversible_block_num c'.view = B.block_num b ∨
      c'.added.rows = c.added.rows.insert (summaryId (B.block_num b)) ⟨B.id b⟩) :
    SummariesKept C c'.view := by
  have hnum : C.head_block_num c'.view = C.head_block_num c.view + 1 := by
    rw [hat.num, L.head_num hc, hat.previous]
    rfl
  have hold : ∀ i bs, c.added.rows.find? i = some bs →
      bs.block_id = B.zero ∨ Ancestor B bs.block_id (C.head_block_id c'.view) := by
    intro i bs hbs
    refine (h.below i bs hbs).imp_right fun hanc => ?_
    rw [hat.previous] at hanc
    rw [hat.id]
    exact .block b hanc
  have hlib := hat.lib_le
  have htop := hat.num
  rcases hrows with ⟨hrows, hself⟩ | hrows
  · refine ⟨fun i bs hbs => hold i bs (hrows ▸ hbs), fun k hlow hhigh => ?_⟩
    omega
  · constructor
    · intro i bs hbs
      replace hbs : (c.added.rows.insert (summaryId (B.block_num b)) ⟨B.id b⟩).find? i = some bs :=
        hrows ▸ hbs
      rw [hat.id] at hold ⊢
      exact OrdMap.forall_insert hold (.inr .refl) i bs hbs
    · intro k hlow hhigh hround
      have hfind : (View.added c'.view).find? (summaryId k) = _ :=
        congrArg (·.find? (summaryId k)) hrows
      rw [hfind, OrdMap.find?_insert]
      split
      · next heq =>
        -- one round has one number for the place
        have hk : k = B.block_num b := by
          rw [summaryId_eq, summaryId_eq] at heq
          omega
        exact ⟨_, rfl, by rw [B.num_id, hk]; rfl⟩
      · next hne =>
        have hk : k ≠ B.block_num b := fun heq => hne (by rw [heq])
        exact h.recent k (by omega) (by omega) (by omega)

theorem transactions (h : SummariesKept C c.view) (hc : L.Inv c) (hsame : SameHead L c c')
    (hadded : c'.added = c.added) : SummariesKept C c'.view := by
  have hrows : View.added c'.view = View.added c.view := congrArg Table.rows hadded
  have hnum : C.head_block_num c'.view = C.head_block_num c.view := by
    rw [L.head_num hsame.inv, L.head_num hc, hsame.id]
  obtain ⟨hbelow, hrecent⟩ := h
  rw [← hrows, ← hsame.id] at hbelow
  rw [← hrows, ← hnum, ← hsame.lib] at hrecent
  exact ⟨hbelow, hrecent⟩

end SummariesKept

/-! ## Runs -/

section Runs

variable {C : ChainSpec B (S.extend (summaryKeys B))}

/-- The ring is kept by blocks, whether they are applied or stay half applied. -/
def Tracked.summaries (L : ChainLaws C.withSummaries) (hC : LeavesSummaries C) : Tracked L where
  Flags _ := True
  Ok _ := True
  R c := SummariesKept C.withSummaries c.view
  guard _ := True
  guard_tail := id
  applied := by
    intro skip b c c' _ _ hc hkept happlied
    have hat := happlied.atBlock hc
    obtain ⟨c2, hbegan, hrun⟩ := happlied
    refine hkept.atBlock hc hat (Or.inr ?_)
    rw [← hC.began hbegan]
    rcases hC.after skip b c2 with ⟨e, herr⟩ | hrows
    · rw [hrun] at herr
      cases herr
    · rw [hrun] at hrows
      exact hrows
  stuck := by
    intro skip b c c2 c3 l _ _ hc hkept hbegan hleft hself _
    refine hkept.atBlock hc (hleft.atBlock (hbegan.atBlock hc)).1 ?_
    rw [← hC.began hbegan]
    rcases hleft with rfl | rfl
    · exact Or.inl ⟨rfl, hself⟩
    · rcases hC.after skip b c2 with ⟨e, herr⟩ | hrows
      · rw [herr] at hself ⊢
        exact Or.inl ⟨rfl, hself⟩
      · exact Or.inr hrows

/-- In every run the ring holds the main chain, with pending transactions applied or not. -/
theorem run_summariesKept (L : ChainLaws C.withSummaries) (hC : LeavesSummaries C)
    {n0 : Node C.withSummaries} {c0 : Contents (S.extend (summaryKeys B))} (h0 : Opened L n0 c0)
    (hkept : SummariesKept C.withSummaries c0.view) (calls : List (Call C.withSummaries)) :
    SummariesKept C.withSummaries (n0.run calls).db.view := by
  have hbase : Base (Tracked.summaries L hC) n0 _ := (h0.nodeInvAt hkept h0.heap).1
  have hclean : CleanAt (Tracked.summaries L hC) _ n0 := ⟨h0.no_pending, hbase, h0.db⟩
  have hstart : SessionInv (Tracked.summaries L hC) (fun _ => True) False n0 :=
    hclean.sessionInv False.elim
  obtain ⟨s, q, d, hat, -, -⟩ := run_sessionInv (n := n0)
    (fun call _ => Tracked.admits_of_all (fun _ => True.intro) (fun _ => True.intro) call)
    (fun call _ => by cases call <;> exact True.intro) hstart False.elim
  have hinv := hat.base.stack.inv_cur
  have hcur : SummariesKept C.withSummaries s.cur.view :=
    hat.base.tracked True.intro _ s.cur_mem_values
  rw [hat.view_eq]
  exact hcur.transactions hinv (.applyTransactions hinv hat.applied)
    (hC.applyTransactions hat.applied)

end Runs

/-! ## Chains that do not use them -/

section Extend

variable {C : ChainSpec B S}

/-- A chain next to a table that it does not use. -/
def ChainSpec.extend (C : ChainSpec B S) {V : Type} (ks : List (UniqueKey V)) :
    ChainSpec B (S.extend ks) where
  E := C.E
  Tx := C.Tx
  GenArgs := C.GenArgs
  head_block_id v := C.head_block_id (View.base v)
  head_block_num v := C.head_block_num (View.base v)
  last_irreversible_block_num v := C.last_irreversible_block_num (View.base v)
  transactions := C.transactions
  applyBefore skip b := (C.applyBefore skip b).lift ks
  updateIrreversible := C.updateIrreversible.lift ks
  applyAfter skip b := (C.applyAfter skip b).lift ks
  applyTransaction skip trx := (C.applyTransaction skip trx).lift ks
  is_known_transaction v := C.is_known_transaction (View.base v)
  mayGenerate skip v := C.mayGenerate skip (View.base v)
  pack_size := C.pack_size
  expired := C.expired
  max_block_header_size := C.max_block_header_size
  maximum_block_size v := C.maximum_block_size (View.base v)
  assemble skip v := C.assemble skip (View.base v)
  fits := C.fits

theorem moves_lift {E α V : Type} {ks : List (UniqueKey V)} (p : Prog S E α) :
    (p.lift ks).Moves fun c c' => c'.added = c.added := by
  intro c
  rw [Prog.run_lift_eq, Contents.added_extend]

theorem LeavesSummaries.extend (C : ChainSpec B S) : LeavesSummaries (C.extend (summaryKeys B)) :=
  ⟨fun _ _ => moves_lift _, moves_lift _, fun _ _ => moves_lift _, fun _ _ => moves_lift _⟩

/-- The second half of a block throws at once, or leaves the other tables as without summaries. -/
theorem applyAfter_base {Q : Contents S → Prop} {skip : SkipFlags} {b : B.Block}
    {c : Contents (S.extend (summaryKeys B))} (hstay : Q c.base)
    (hrun : Q ((C.applyAfter skip b).run c.base).2) :
    Q (((C.extend (summaryKeys B)).withSummaries.applyAfter skip b).run c).2.base := by
  show Q (((create_block_summary b).bind fun _ => (C.applyAfter skip b).lift _).run c).2.base
  rw [Prog.run_bind]
  simp only [create_block_summary, Prog.run]
  cases (c none).modify (summaryId (B.block_num b)) (fun p => { p with block_id := B.id b })
      (fun _ hk => absurd hk List.not_mem_nil) with
  | none => exact hstay
  | some T =>
    have hbase : Contents.base (Function.update c none T) = c.base :=
      funext fun t => Function.update_of_ne (by simp) _ _
    dsimp only
    rw [Prog.run_lift_eq, hbase, Contents.base_extend]
    exact hrun

def ChainLaws.withSummaries (L : ChainLaws C) :
    ChainLaws (C.extend (summaryKeys B)).withSummaries where
  Inv c := L.Inv c.base
  head_num hc := L.head_num hc
  lib_le hc := L.lib_le hc
  before_inv hc h := L.before_inv hc (Prog.run_lift_ok.1 h).1
  before_previous hc h := L.before_previous hc (Prog.run_lift_ok.1 h).1
  before_id hc h := L.before_id hc (Prog.run_lift_ok.1 h).1
  before_lib hc h := L.before_lib hc (Prog.run_lift_ok.1 h).1
  update_inv hc h := L.update_inv hc (Prog.run_lift_ok.1 h).1
  update_id hc h := L.update_id hc (Prog.run_lift_ok.1 h).1
  update_lib hc h := L.update_lib hc (Prog.run_lift_ok.1 h).1
  after_inv skip b hc := applyAfter_base (Q := L.Inv) hc (L.after_inv skip b hc)
  after_id {c} skip b hc :=
    applyAfter_base (Q := fun c' => C.head_block_id c'.view = C.head_block_id c.base.view) rfl
      (L.after_id skip b hc)
  after_lib {c} skip b hc :=
    applyAfter_base (Q := fun c' => C.last_irreversible_block_num c'.view =
      C.last_irreversible_block_num c.base.view) rfl (L.after_lib skip b hc)
  transaction_inv hc h := L.transaction_inv hc (Prog.run_lift_ok.1 h).1
  transaction_id hc h := L.transaction_id hc (Prog.run_lift_ok.1 h).1
  transaction_lib hc h := L.transaction_lib hc (Prog.run_lift_ok.1 h).1
  assemble_previous skip v := L.assemble_previous skip (View.base v)

end Extend

end Calibrd.Chain
