import Calibrd.Chain.ProtocolLaws
import Calibrd.Chain.ForkHead

/-!
# `reindex` and live application

`reindex` applies the blocks of the log under flags that switch most checks off. A flag that only
switches off a check loses nothing on blocks that passed it once. The exception is
`skip_transaction_dupe_check`: it also keeps the transactions out of `transaction_index`. So a
reindexed node has the tables of a node that applied the blocks live, except for that one, which is
empty, and it takes a transaction again that the live node knows.
-/

namespace Calibrd.Chain

open Calibrd.Lib Calibrd.Chainbase Stateful Prog

/-- Every check of block application that `skip` switches off is off under `skip'`. -/
structure SkipFlags.Within (skip skip' : SkipFlags) : Prop where
  witness_signature : skip.skip_witness_signature → skip'.skip_witness_signature
  transaction_signatures : skip.skip_transaction_signatures → skip'.skip_transaction_signatures
  transaction_dupe_check : skip.skip_transaction_dupe_check → skip'.skip_transaction_dupe_check
  tapos_check : skip.skip_tapos_check → skip'.skip_tapos_check
  authority_check : skip.skip_authority_check → skip'.skip_authority_check
  merkle_check : skip.skip_merkle_check → skip'.skip_merkle_check
  undo_history_check : skip.skip_undo_history_check → skip'.skip_undo_history_check
  witness_schedule_check : skip.skip_witness_schedule_check → skip'.skip_witness_schedule_check
  validate : skip.skip_validate → skip'.skip_validate

theorem SkipFlags.Within.refl (skip : SkipFlags) : skip.Within skip :=
  ⟨id, id, id, id, id, id, id, id, id⟩

/-- The flags of `reindex`. -/
def reindex_flags : SkipFlags where
  skip_witness_signature := true
  skip_transaction_signatures := true
  skip_transaction_dupe_check := true
  skip_tapos_check := true
  skip_merkle_check := true
  skip_witness_schedule_check := true
  skip_authority_check := true
  skip_validate := true
  skip_validate_invariants := true
  skip_block_log := true

theorem within_reindex_flags : skip_nothing.Within reindex_flags := by
  constructor <;> intro h <;> first | rfl | cases h

namespace Protocol

variable {B : BlockSpec} {P : Protocol B} {skip skip' : SkipFlags} {b : B.Block}

/-! ## Checks under more flags -/

theorem or_of_within {s s' c : Bool} (h : s → s') (hc : (s || c) = true) : (s' || c) = true := by
  rcases Bool.or_eq_true_iff.1 hc with hs | hc
  · rw [h hs, Bool.true_or]
  · rw [hc, Bool.or_true]

theorem checkMerkle_mono (h : skip.Within skip')
    (hok : P.checkMerkle skip b = .ok ()) : P.checkMerkle skip' b = .ok () := by
  rw [checkMerkle, check_eq_ok, Bool.or_assoc] at hok ⊢
  exact or_of_within h.merkle_check hok

variable {v : View P.S} {trx : P.Tx} {c : Contents P.S}

theorem checkSigner_mono (h : skip.Within skip')
    (hok : P.checkSigner skip b v = .ok ()) : P.checkSigner skip' b v = .ok () := by
  unfold checkSigner at hok ⊢
  cases hkey : P.signing_key v (P.witness b) with
  | none => rw [hkey] at hok; cases hok
  | some key =>
    rw [hkey] at hok
    exact check_eq_ok.2 (or_of_within h.witness_signature (check_eq_ok.1 hok))

theorem checkSchedule_mono (h : skip.Within skip')
    (hok : P.checkSchedule skip b v = .ok ()) : P.checkSchedule skip' b v = .ok () := by
  simp only [checkSchedule, bind_eq_ok, check_eq_ok] at hok ⊢
  exact ⟨or_of_within h.witness_schedule_check hok.1, or_of_within h.witness_schedule_check hok.2⟩

theorem validate_block_header_mono (h : skip.Within skip')
    (hok : P.validate_block_header skip b v = .ok ()) :
    P.validate_block_header skip' b v = .ok () := by
  simp only [validate_block_header, bind_eq_ok] at hok ⊢
  obtain ⟨hid, htime, hsigner, hschedule⟩ := hok
  exact ⟨hid, htime, checkSigner_mono h hsigner, checkSchedule_mono h hschedule⟩

theorem checkValid_mono (h : skip.Within skip') (hok : P.checkValid skip trx = .ok ()) :
    P.checkValid skip' trx = .ok () := by
  unfold checkValid at hok ⊢
  by_cases hs' : skip'.skip_validate = true
  · rw [if_pos hs']
  · rw [if_neg fun hs => hs' (h.validate hs)] at hok
    rw [if_neg hs']
    exact hok

theorem checkAuthority_mono (h : skip.Within skip') (hok : P.checkAuthority skip trx v = .ok ()) :
    P.checkAuthority skip' trx v = .ok () := by
  unfold checkAuthority at hok ⊢
  by_cases hs' : (skip'.skip_transaction_signatures || skip'.skip_authority_check) = true
  · rw [if_pos hs']
  · have hs : ¬ (skip.skip_transaction_signatures || skip.skip_authority_check) = true := by
      intro hs
      refine hs' (Bool.or_eq_true_iff.2 ?_)
      exact (Bool.or_eq_true_iff.1 hs).imp h.transaction_signatures h.authority_check
    rw [if_neg hs] at hok
    rw [if_neg hs']
    exact hok

theorem checkTapos_mono (h : skip.Within skip') (hok : P.checkTapos skip trx v = .ok ()) :
    P.checkTapos skip' trx v = .ok () := by
  unfold checkTapos at hok ⊢
  by_cases hs' : skip'.skip_tapos_check = true
  · rw [if_pos hs']
  · rw [if_neg fun hs => hs' (h.tapos_check hs)] at hok
    rw [if_neg hs']
    exact hok

theorem checkReference_mono (h : skip.Within skip') (hok : P.checkReference skip trx v = .ok ()) :
    P.checkReference skip' trx v = .ok () := by
  unfold checkReference at hok ⊢
  by_cases hnum : 0 < P.head_block_num v
  · rw [if_pos hnum, bind_eq_ok] at hok ⊢
    exact ⟨checkTapos_mono h hok.1, hok.2⟩
  · rw [if_neg hnum]

/-! ## Block application under more flags -/

/-- Relations between the tables of transactions of two nodes. -/
abbrev TableRel (P : Protocol B) := Table P.transactionKeys → Table P.transactionKeys → Prop

theorem run_checked {f : View P.S → Except P.E Unit} {c c' : Contents P.S}
    {T T' : Table P.transactionKeys} :
    (P.checked f).run (c.extend T) = (.ok (), c'.extend T') ↔
      f c.view = .ok () ∧ c.extend T = c'.extend T' := by
  simp only [checked, Prog.run, Contents.view_extend_base]
  cases f c.view with
  | ok u => simp [Prog.run]
  | error e => simp [Prog.run]

/-- A check under more flags follows the one under fewer. -/
theorem checked_follows (R : TableRel P) {f f' : View P.S → Except P.E Unit}
    (h : ∀ v, f v = .ok () → f' v = .ok ()) : Follows R R (P.checked f) (P.checked f') := by
  intro c T T' a c1 T1 hR hrun
  obtain ⟨hok, heq⟩ := run_checked.1 hrun
  obtain rfl : c = c1 := congrArg Contents.base heq
  obtain rfl : T = T1 := congrArg Contents.added heq
  exact ⟨T', run_checked.2 ⟨h _ hok, rfl⟩, hR⟩

theorem forAll_follows {α : Type} {f f' : α → Prog P.tables P.E Unit} (R : List α → TableRel P)
    (h : ∀ a rest, Follows (R (a :: rest)) (R rest) (f a) (f' a)) :
    ∀ l, Follows (R l) (R []) (forAll f l) (forAll f' l)
  | [] => by
    intro c T T' a c1 T1 hR hrun
    cases a
    obtain rfl : c = c1 := congrArg Contents.base (Prod.mk.inj hrun).2
    obtain rfl : T = T1 := congrArg Contents.added (Prod.mk.inj hrun).2
    exact ⟨T', rfl, hR⟩
  | a :: rest => (h a rest).bind fun _ => forAll_follows R h rest

/-- What is needed of the steps that use the table of transactions, where the rest of `_apply_block`
is the same up to checks. `R txs` relates the tables before the transactions `txs`. -/
structure TableSteps (skip skip' : SkipFlags) (R : List P.Tx → TableRel P) : Prop where
  duplicate : ∀ trx rest, Follows (R (trx :: rest)) (R (trx :: rest))
    (P.checkDuplicate skip trx) (P.checkDuplicate skip' trx)
  note : ∀ trx rest, Follows (R (trx :: rest)) (R rest)
    (P.noteTransaction skip trx) (P.noteTransaction skip' trx)

variable {R : List P.Tx → TableRel P}

theorem apply_transaction_follows (h : skip.Within skip') (hR : P.TableSteps skip skip' R)
    (trx : P.Tx) (rest : List P.Tx) : Follows (R (trx :: rest)) (R rest)
      (P.apply_transaction skip trx) (P.apply_transaction skip' trx) := by
  refine (checked_follows _ fun _ => checkValid_mono h).bind fun _ => ?_
  refine (hR.duplicate trx rest).bind fun _ => ?_
  refine (checked_follows _ fun _ => checkAuthority_mono h).bind fun _ => ?_
  refine (checked_follows _ fun _ => checkReference_mono h).bind fun _ => ?_
  exact (hR.note trx rest).bind fun _ => Follows.lift _ _

theorem applyBefore_follows (h : skip.Within skip') (hR : P.TableSteps skip skip' R) (b : B.Block) :
    Follows (R (P.transactions b)) (R []) (P.applyBefore skip b) (P.applyBefore skip' b) := by
  refine (checked_follows _ fun _ => checkMerkle_mono h).bind fun _ => ?_
  refine (checked_follows _ fun _ => validate_block_header_mono h).bind fun _ => ?_
  refine (checked_follows _ fun _ => id).bind fun _ => ?_
  refine (Follows.lift _ _).bind fun _ => (Follows.lift _ _).bind fun _ => ?_
  refine (checked_follows _ fun _ => id).bind fun _ => ?_
  refine (forAll_follows R (apply_transaction_follows h hR) _).bind fun _ => ?_
  refine (Follows.lift _ _).bind fun _ => ?_
  exact (checked_follows _ fun _ hok => check_eq_ok.2
    (or_of_within h.undo_history_check (check_eq_ok.1 hok))).bind fun _ => Follows.lift _ _

theorem earliest_mem {l : List (ℕ × P.TransactionObject)} {r : ℕ × P.TransactionObject}
    (h : P.earliest l = some r) : r ∈ l := by
  induction l generalizing r with
  | nil => cases h
  | cons x rest ih =>
    unfold earliest at h
    cases hrest : P.earliest rest with
    | none =>
      rw [hrest] at h
      cases h
      exact List.mem_cons_self
    | some y =>
      rw [hrest] at h
      dsimp only at h
      split at h
      · cases h
        exact List.mem_cons_self
      · cases h
        exact List.mem_cons_of_mem _ (ih hrest)

/-- Of the objects in a table of transactions, expired ones were removed. -/
structure Clears (P : Protocol B) (c : Contents P.S) (T T' : Table P.transactionKeys) : Prop where
  kept : ∀ i o, T'.rows.find? i = some o → T.rows.find? i = some o
  expired : ∀ i o, T.rows.find? i = some o →
    T'.rows.find? i = some o ∨ o.expiration < P.head_block_time c.view

theorem Clears.refl (c : Contents P.S) (T : Table P.transactionKeys) : P.Clears c T T :=
  ⟨fun _ _ h => h, fun _ _ h => Or.inl h⟩

theorem Clears.remove {T T1 T' : Table P.transactionKeys} {i : ℕ} {o : P.TransactionObject}
    (hrem : T.remove i = some T1) (hfind : T.rows.find? i = some o)
    (hlt : o.expiration < P.head_block_time c.view) (h : P.Clears c T1 T') : P.Clears c T T' := by
  obtain ⟨-, hrows, -⟩ := Table.remove_eq_some hrem
  refine ⟨fun j x hx => ?_, fun j x hx => ?_⟩
  · have hx1 := h.kept j x hx
    rw [hrows] at hx1
    exact OrdMap.find?_of_erase hx1
  · by_cases he : i = j
    · obtain rfl : o = x := Option.some.inj (hfind.symm.trans (he ▸ hx))
      exact Or.inr hlt
    · refine h.expired j x ?_
      rw [hrows, OrdMap.find?_erase, if_neg he]
      exact hx

/-- The loop over the expired transactions does not throw and changes their table only. -/
theorem run_clearExpired (rounds : ℕ) (c : Contents P.S) (T : Table P.transactionKeys) :
    ∃ T', (P.clearExpired rounds).run (c.extend T) = (.ok (), c.extend T') ∧ P.Clears c T T' := by
  induction rounds generalizing T with
  | zero => exact ⟨T, rfl, .refl c T⟩
  | succ rounds ih =>
    simp only [clearExpired, Prog.run, Contents.view_extend_added]
    cases hfirst : P.earliest T.rows.rows with
    | none => exact ⟨T, rfl, .refl c T⟩
    | some r =>
      obtain ⟨i, o⟩ := r
      by_cases hlt : P.head_block_time (View.base (c.extend T).view) > o.expiration
      · have hfind : T.rows.find? i = some o := OrdMap.mem_rows.1 (earliest_mem hfirst)
        cases hrem : T.remove i with
        | none => exact absurd (hfind.symm.trans (Table.remove_eq_none hrem)) (by simp)
        | some T1 =>
          obtain ⟨T', hT', hclears⟩ := ih T1
          have hrem' : ((c.extend T) none).remove i = some T1 := hrem
          refine ⟨T', ?_, hclears.remove hrem hfind hlt⟩
          simp only [if_pos hlt, Prog.run, hrem']
          exact (congrArg _ (Contents.update_added c T T1)).trans hT'
      · refine ⟨T, ?_, .refl c T⟩
        simp only [if_neg hlt, Prog.run]

theorem run_clear_expired_transactions (c : Contents P.S) (T : Table P.transactionKeys) :
    ∃ T', P.clear_expired_transactions.run (c.extend T) = (.ok (), c.extend T') ∧
      P.Clears c T T' ∧ (T = .empty → T' = .empty) := by
  by_cases hT : T = .empty
  · subst hT
    exact ⟨.empty, rfl, .refl c .empty, id⟩
  · obtain ⟨T', hT', hclears⟩ := run_clearExpired T.rows.rows.length c T
    exact ⟨T', hT', hclears, fun h => absurd h hT⟩

/-- A whole block under more flags. -/
theorem applyBlock_follows (h : skip.Within skip') (hR : P.TableSteps skip skip' R) {R1 : TableRel P}
    (hclear : Follows (R []) R1 P.clear_expired_transactions P.clear_expired_transactions)
    (b : B.Block) : Follows (R (P.transactions b)) R1
      (P.chain.applyBlock skip b) (P.chain.applyBlock skip' b) := by
  refine (applyBefore_follows h hR b).bind fun _ => (Follows.lift _ _).bind fun _ => ?_
  exact (Follows.lift _ _).bind fun _ => hclear.bind fun _ => Follows.lift _ _

/-! ## Without the table of transactions -/

/-- The second node has no transactions in its table. -/
def Forgets (P : Protocol B) : TableRel P := fun _ T' => T' = .empty

theorem forgets_steps (hdupe : skip'.skip_transaction_dupe_check = true) :
    P.TableSteps skip skip' fun _ => P.Forgets where
  duplicate trx rest := by
    intro c T T' a c1 T1 hR hrun
    have hrun' : (P.checkDuplicate skip' trx).run (c.extend T') = (.ok (), c.extend T') := by
      simp [checkDuplicate, Prog.run, hdupe]
    simp only [checkDuplicate, Prog.run] at hrun
    split at hrun
    · obtain rfl : c = c1 := congrArg Contents.base (Prod.mk.inj hrun).2
      exact ⟨T', hrun', hR⟩
    · cases hrun
  note trx rest := by
    intro c T T' a c1 T1 hR hrun
    have hrun' : (P.noteTransaction skip' trx).run (c.extend T') = (.ok (), c.extend T') := by
      simp [noteTransaction, Prog.run, hdupe]
    refine ⟨T', ?_, hR⟩
    unfold noteTransaction at hrun
    split at hrun
    · obtain rfl : c = c1 := congrArg Contents.base (Prod.mk.inj hrun).2
      exact hrun'
    · simp only [Prog.run] at hrun
      split at hrun
      · cases hrun
      · next T2 _ =>
        have heq := (Contents.update_added c T T2).symm.trans (Prod.mk.inj hrun).2
        obtain rfl : c = c1 := congrArg Contents.base heq
        exact hrun'

theorem clear_forgets : Follows P.Forgets P.Forgets
    P.clear_expired_transactions P.clear_expired_transactions := by
  intro c T T' a c1 T1 hR hrun
  obtain ⟨T2, hT2, -⟩ := run_clear_expired_transactions c T
  obtain ⟨T2', hT2', -, hempty⟩ := run_clear_expired_transactions c T'
  have heq := (Prod.mk.inj (hT2.symm.trans hrun)).2
  obtain rfl : c = c1 := congrArg Contents.base heq
  exact ⟨T2', hT2', hempty hR⟩

/-- Blocks that are accepted live are accepted by `reindex`, which ends in the same tables but for
the one of the transactions. -/
theorem replay_reindex (l : List B.Block) {T : Table P.transactionKeys} {c' : Contents P.tables}
    (h : replay P.chain (c.extend T) (l.map fun b => (skip_nothing, b)) = .ok c') :
    replay P.chain (c.extend .empty) (l.map fun b => (reindex_flags, b)) =
      .ok (c'.base.extend .empty) := by
  induction l generalizing c T with
  | nil =>
    cases h
    rfl
  | cons b rest ih =>
    simp only [List.map_cons, replay] at h ⊢
    cases hrun : (P.chain.applyBlock skip_nothing b).run (c.extend T) with
    | mk r d =>
      rw [hrun] at h
      cases r with
      | error e => cases h
      | ok u =>
        rw [← Contents.extend_base_added d] at hrun h
        obtain ⟨T', hrun', rfl⟩ := applyBlock_follows (R := fun _ => P.Forgets)
          within_reindex_flags (forgets_steps rfl) clear_forgets b rfl hrun
        rw [hrun']
        exact ih h

/-! ## With less in the table of transactions -/

/-- Of the transactions `txs`, the second node knows no more than the first. -/
def Knows (P : Protocol B) (txs : List P.Tx) : TableRel P := fun T T' =>
  ∀ trx ∈ txs, P.isKnown T'.rows trx = true → P.isKnown T.rows trx = true

theorem isKnown_iff {rows : OrdMap ℕ P.TransactionObject} :
    P.isKnown rows trx = true ↔ ∃ i o, rows.find? i = some o ∧ o.trx_id = P.trx_id trx := by
  simp only [isKnown, List.any_eq_true, decide_eq_true_eq]
  constructor
  · rintro ⟨⟨i, o⟩, hmem, ho⟩
    exact ⟨i, o, OrdMap.mem_rows.1 hmem, ho⟩
  · rintro ⟨i, o, hfind, ho⟩
    exact ⟨(i, o), OrdMap.mem_rows.2 hfind, ho⟩

theorem sameKey_transaction (i j : ℕ) (o o' : P.TransactionObject) :
    sameKey P.transactionKeys i o j o' = decide (o.trx_id = o'.trx_id) := by
  simp [sameKey, transactionKeys]

/-- A transaction is noted exactly if it is not known. -/
theorem create_isSome_iff (T : Table P.transactionKeys) (trx : P.Tx) :
    (T.create (P.transactionObject trx)).isSome = true ↔ P.isKnown T.rows trx = false := by
  have htaken : taken P.transactionKeys T.rows T.next_id (P.transactionObject trx) =
      false ↔ P.isKnown T.rows trx = false := by
    rw [taken_eq_false_iff, ← Bool.not_eq_true, isKnown_iff]
    simp only [sameKey_transaction, decide_eq_false_iff_not]
    constructor
    · rintro h ⟨i, o, hfind, ho⟩
      exact h i o hfind (T.below i o hfind).ne ho.symm
    · intro h j o hfind _ ho
      exact h ⟨j, o, hfind, ho.symm⟩
  rw [← htaken, Table.create]
  split <;> simp_all

theorem isKnown_create {T T' : Table P.transactionKeys}
    (h : T.create (P.transactionObject trx) = some T') (x : P.Tx) :
    P.isKnown T'.rows x = true ↔ P.isKnown T.rows x = true ∨ P.trx_id trx = P.trx_id x := by
  obtain ⟨-, hrows, -⟩ := Table.create_eq_some h
  simp only [isKnown_iff, hrows, OrdMap.find?_insert]
  constructor
  · rintro ⟨i, o, hfind, ho⟩
    split at hfind
    · cases hfind
      exact Or.inr ho
    · exact Or.inl ⟨i, o, hfind, ho⟩
  · rintro (⟨i, o, hfind, ho⟩ | hid)
    · refine ⟨i, o, ?_, ho⟩
      rw [if_neg (T.below i o hfind).ne']
      exact hfind
    · exact ⟨T.next_id, P.transactionObject trx, if_pos rfl, hid⟩

theorem run_noteTransaction {c' : Contents P.S} {T T' : Table P.transactionKeys}
    (hdupe : skip.skip_transaction_dupe_check = false) :
    (P.noteTransaction skip trx).run (c.extend T) = (.ok (), c'.extend T') ↔
      c' = c ∧ T.create (P.transactionObject trx) = some T' := by
  rw [Laws.run_noteTransaction_iff, hdupe]
  exact Iff.rfl

theorem knows_steps (hdupe : skip.skip_transaction_dupe_check = false) :
    P.TableSteps skip skip P.Knows where
  duplicate trx rest := by
    intro c T T' a c1 T1 hR hrun
    simp only [checkDuplicate, Prog.run, hdupe, Bool.false_or] at hrun ⊢
    split at hrun
    · next hnew =>
      obtain rfl : c = c1 := congrArg Contents.base (Prod.mk.inj hrun).2
      obtain rfl : T = T1 := congrArg Contents.added (Prod.mk.inj hrun).2
      refine ⟨T', ?_, hR⟩
      have hnew' : (!P.is_known_transaction (c.extend T').view trx) = true := by
        rw [Bool.not_eq_true'] at hnew ⊢
        exact Bool.eq_false_iff.2 fun hk =>
          Bool.eq_false_iff.1 hnew (hR trx List.mem_cons_self hk)
      rw [if_pos hnew']
      rfl
    · cases hrun
  note trx rest := by
    intro c T T' a c1 T1 hR hrun
    obtain ⟨rfl, hcreate⟩ := (run_noteTransaction hdupe).1 hrun
    have hnew : P.isKnown T.rows trx = false := (create_isSome_iff T trx).1 (by rw [hcreate]; rfl)
    have hnew' : P.isKnown T'.rows trx = false :=
      Bool.eq_false_iff.2 fun hk => Bool.eq_false_iff.1 hnew (hR trx List.mem_cons_self hk)
    obtain ⟨T2', hcreate'⟩ := Option.isSome_iff_exists.1 ((create_isSome_iff T' trx).2 hnew')
    refine ⟨T2', (run_noteTransaction hdupe).2 ⟨rfl, hcreate'⟩, fun x hx hk => ?_⟩
    rw [isKnown_create hcreate]
    exact ((isKnown_create hcreate' x).1 hk).imp_left (hR x (List.mem_cons_of_mem _ hx))

/-- The first node knows one of the transactions `txs`, and the second one has the same table. -/
def Repeats (P : Protocol B) (txs : List P.Tx) : TableRel P := fun T T' =>
  T' = T ∧ ∃ trx ∈ txs, P.isKnown T.rows trx = true

/-- A known transaction does not get through, so it is among those that are still to come. -/
theorem repeats_steps (hdupe : skip.skip_transaction_dupe_check = false) :
    P.TableSteps skip skip P.Repeats where
  duplicate trx rest := by
    rintro c _ T a c1 T1 ⟨rfl, hknown⟩ hrun
    refine ⟨T1, hrun, rfl, ?_⟩
    simp only [checkDuplicate, Prog.run] at hrun
    split at hrun
    · obtain rfl : T = T1 := congrArg Contents.added (Prod.mk.inj hrun).2
      exact hknown
    · cases hrun
  note trx rest := by
    rintro c _ T a c1 T1 ⟨rfl, x, hx, hknown⟩ hrun
    refine ⟨T1, hrun, rfl, ?_⟩
    obtain ⟨-, hcreate⟩ := (run_noteTransaction hdupe).1 hrun
    have hnew : P.isKnown T.rows trx = false := (create_isSome_iff T trx).1 (by rw [hcreate]; rfl)
    rcases List.mem_cons.1 hx with rfl | hx
    · exact absurd hknown (Bool.eq_false_iff.1 hnew)
    · exact ⟨x, hx, (isKnown_create hcreate x).2 (Or.inl hknown)⟩

/-- Clearing the expired transactions never throws. -/
theorem clear_follows (R : TableRel P) : Follows R (fun _ _ => ∃ T T', R T T')
    P.clear_expired_transactions P.clear_expired_transactions := by
  intro c T T' a c1 T1 hR hrun
  obtain ⟨T2, hT2, -⟩ := run_clear_expired_transactions c T
  obtain ⟨T2', hT2', -⟩ := run_clear_expired_transactions c T'
  obtain rfl : c = c1 := congrArg Contents.base (Prod.mk.inj (hT2.symm.trans hrun)).2
  exact ⟨T2', hT2', T, T', hR⟩

/-- A program over the transactions `txs` succeeds exactly if none of them is known and it succeeds
on an empty table. -/
theorem ok_iff {p : Prog P.tables P.E Unit} {txs : List P.Tx} {R' : TableRel P}
    (hknows : Follows (P.Knows txs) R' p p) (hrepeats : Follows (P.Repeats txs) (fun _ _ => False) p p)
    (c : Contents P.S) (T : Table P.transactionKeys) :
    (p.run (c.extend T)).1 = .ok () ↔
      (p.run (c.extend .empty)).1 = .ok () ∧ ∀ trx ∈ txs, P.isKnown T.rows trx = false := by
  -- the run as a whole, from its result
  have hwhole : ∀ {T : Table P.transactionKeys}, (p.run (c.extend T)).1 = .ok () →
      p.run (c.extend T) = (.ok (), (p.run (c.extend T)).2.base.extend (p.run (c.extend T)).2.added) := by
    intro T h
    rw [Contents.extend_base_added, ← h]
  constructor
  · intro h
    have hempty : P.Knows txs T .empty := fun _ _ hk => by cases hk
    obtain ⟨T1', hrun, -⟩ := hknows hempty (hwhole h)
    refine ⟨by rw [hrun], fun trx htrx => Bool.eq_false_iff.2 fun hk => ?_⟩
    obtain ⟨-, -, hfalse⟩ := hrepeats ⟨rfl, trx, htrx, hk⟩ (hwhole h)
    exact hfalse
  · rintro ⟨h, hnew⟩
    have hknown : P.Knows txs .empty T := fun trx htrx hk =>
      absurd hk (Bool.eq_false_iff.1 (hnew trx htrx))
    obtain ⟨T1', hrun, -⟩ := hknows hknown (hwhole h)
    rw [hrun]

theorem applyBlock_ok_iff (hdupe : skip.skip_transaction_dupe_check = false) (b : B.Block)
    (c : Contents P.S) (T : Table P.transactionKeys) :
    ((P.chain.applyBlock skip b).run (c.extend T)).1 = .ok () ↔
      ((P.chain.applyBlock skip b).run (c.extend .empty)).1 = .ok () ∧
        ∀ trx ∈ P.transactions b, P.isKnown T.rows trx = false := by
  refine ok_iff (applyBlock_follows (.refl skip) (knows_steps hdupe) (clear_follows _) b) ?_ c T
  refine (applyBlock_follows (.refl skip) (repeats_steps hdupe) (clear_follows _) b).mono
    (fun _ _ h => h) ?_
  rintro _ _ ⟨_, _, -, _, hmem, -⟩
  cases hmem

theorem apply_transaction_ok_iff (hdupe : skip.skip_transaction_dupe_check = false) (trx : P.Tx)
    (c : Contents P.S) (T : Table P.transactionKeys) :
    ((P.apply_transaction skip trx).run (c.extend T)).1 = .ok () ↔
      ((P.apply_transaction skip trx).run (c.extend .empty)).1 = .ok () ∧
        P.isKnown T.rows trx = false := by
  have hknows := apply_transaction_follows (.refl skip) (knows_steps hdupe) trx []
  have hrepeats : Follows (P.Repeats [trx]) (fun _ _ => False)
      (P.apply_transaction skip trx) (P.apply_transaction skip trx) := by
    refine (apply_transaction_follows (.refl skip) (repeats_steps hdupe) trx []).mono
      (fun _ _ h => h) ?_
    rintro _ _ ⟨-, _, hmem, -⟩
    cases hmem
  simpa only [List.forall_mem_singleton] using ok_iff hknows hrepeats c T

end Protocol

/-! ## Nodes -/

section Nodes

variable {B : BlockSpec} {S : Schema} {C : ChainSpec B S} {n : Node C}

/-- `set_revision`. -/
def setRevision (revision : ℤ) : NodeM C Unit := fun n =>
  match n.db.set_revision revision with
  | .ok db => (.ok (), { n with db })
  | .error e => (.error (.chain (.index e)), n)

/-- `reindex`, on a node that was wiped and opened at genesis with the blocks in its log. -/
def reindex : NodeM C Unit := do
  setFork fun _ => .init
  let n ← get
  match n.block_log.getLast? with
  | none => raise .empty_block_log
  | some last => do
    forEach n.block_log (apply_block reindex_flags [])
    let n ← get
    setRevision n.head_block_num
    setFork fun f => f.start_block last

/-- Blocks pushed one after the other without skip flags, up to the first exception. -/
def pushAll (l : List B.Block) : NodeM C Unit :=
  forEach l fun b => do let _ ← push_block skip_nothing b

/-- The block can be applied on top of the tables. -/
def Node.AcceptsBlock (n : Node C) (b : B.Block) : Prop :=
  ((C.applyBlock skip_nothing b).exec n.db).1 = .ok ()

/-- The transaction can be applied to the tables. -/
def Node.AcceptsTransaction (n : Node C) (trx : C.Tx) : Prop :=
  ((C.applyTransaction skip_nothing trx).exec n.db).1 = .ok ()

theorem liftProg_of_ok {α : Type} {p : Prog S C.E α} {s : SnapshotStack (Contents S)} {a : α}
    {c : Contents S} (h : Refinement n.db s) (hrun : p.run s.cur = (.ok a, c)) :
    ∃ db, Refinement db (s.setCur c) ∧ liftProg p n = (.ok a, { n with db := db }) := by
  obtain ⟨db, href, heq⟩ := liftProg_spec p h
  rw [hrun] at href heq
  exact ⟨db, href, heq⟩

variable {r : ℤ}

/-- A block applied without a session and without the block log. -/
theorem apply_block_of_run {skip : SkipFlags} (hlog : skip.skip_block_log = true) (held : List Ptr)
    {b : B.Block} {c c' : Contents S} (h : Refinement n.db ⟨c, [], r⟩)
    (hrun : (C.applyBlock skip b).run c = (.ok (), c')) :
    ∃ n', apply_block skip held b n = (.ok (), n') ∧ Refinement n'.db ⟨c', [], r⟩ := by
  obtain ⟨u, c1, hbefore, hrest⟩ := run_bind_ok.1 hrun
  obtain ⟨u', c2, hupdate, hafter⟩ := run_bind_ok.1 hrest
  obtain ⟨db1, href1, heq1⟩ := liftProg_of_ok h hbefore
  obtain ⟨db2, href2, heq2⟩ := liftProg_of_ok (n := { n with db := db1 }) href1 hupdate
  let n2 : Node C := { n with db := db2 }
  let n3 : Node C := { n2 with
    db := db2.commit n2.last_irreversible_block_num
    committed := max n.committed n2.last_irreversible_block_num }
  let n4 : Node C := { n3 with
    fork := n.fork.set_max_size (n3.head_block_num - n3.last_irreversible_block_num + 1) }
  have hlogged : logIrreversible skip held n3 = (.ok (), n3) := by
    unfold logIrreversible
    rw [get_bind_apply, hlog]
    rfl
  -- there are no sessions to commit
  have href3 : Refinement n4.db ⟨c2, [], r⟩ := href2.commit n2.last_irreversible_block_num
  obtain ⟨db5, href5, heq5⟩ := liftProg_of_ok (n := n4) href3 hafter
  refine ⟨{ n4 with db := db5 }, ?_, href5⟩
  have hlast : update_last_irreversible_block skip held { n with db := db1 } = (.ok (), n4) := by
    unfold update_last_irreversible_block
    rw [bind_of_ok heq2, bind_of_ok (show commitIrreversible n2 = (.ok (), n3) from rfl),
      bind_of_ok hlogged]
    rfl
  unfold apply_block
  rw [bind_of_ok heq1, bind_of_ok hlast]
  exact heq5

theorem forEach_apply_block {skip : SkipFlags} (hlog : skip.skip_block_log = true) {c' : Contents S}
    (l : List B.Block) {n : Node C} {c : Contents S} (h : Refinement n.db ⟨c, [], r⟩)
    (hrun : replay C c (l.map fun b => (skip, b)) = .ok c') :
    ∃ n', forEach l (apply_block skip []) n = (.ok (), n') ∧ Refinement n'.db ⟨c', [], r⟩ := by
  induction l generalizing n c with
  | nil =>
    cases hrun
    exact ⟨n, rfl, h⟩
  | cons b rest ih =>
    simp only [List.map_cons, replay] at hrun
    cases hb : (C.applyBlock skip b).run c with
    | mk res c1 =>
      rw [hb] at hrun
      cases res with
      | error e => cases hrun
      | ok u =>
        obtain ⟨n1, heq, h1⟩ := apply_block_of_run hlog [] h hb
        obtain ⟨n', heq', h'⟩ := ih h1 hrun
        exact ⟨n', (bind_of_ok heq).trans heq', h'⟩

/-- `reindex` ends in the contents that the blocks of the log lead to under its flags. -/
theorem reindex_of_replay {c c' : Contents S} (h : Refinement n.db ⟨c, [], r⟩)
    (hne : n.block_log ≠ [])
    (hrun : replay C c (n.block_log.map fun b => (reindex_flags, b)) = .ok c') :
    ∃ n' r', reindex n = (.ok (), n') ∧ Refinement n'.db ⟨c', [], r'⟩ := by
  obtain ⟨n1, heq1, h1⟩ := forEach_apply_block (n := { n with fork := .init }) rfl n.block_log h hrun
  obtain ⟨db, heq2, h2⟩ := h1.set_revision n1.head_block_num
  have hset : setRevision n1.head_block_num n1 = ((.ok (), { n1 with db := db }) : _ × Node C) := by
    simp only [setRevision, heq2]
  refine ⟨{ n1 with db := db, fork := n1.fork.start_block (n.block_log.getLast hne) },
    n1.head_block_num, ?_, h2⟩
  unfold reindex
  rw [bind_of_ok (setFork_apply _ n), get_bind_apply]
  simp only [List.getLast?_eq_some_getLast hne]
  rw [bind_of_ok heq1, get_bind_apply, bind_of_ok hset]
  rfl

/-- A chain of blocks that is pushed live without an exception is applied block by block. -/
theorem pushAll_replay {L : ChainLaws C} {last : B.Id} (l : List B.Block)
    {s : SnapshotStack (Contents S)} {n n' : Node C} (h : NodeInvAt (Tracked.trivial L) s n)
    (ha : n.ForkAgrees) (hl : Linked B n.head_block_id l last) (hres : pushAll l n = (.ok (), n')) :
    ∃ s', NodeInvAt (Tracked.trivial L) s' n' ∧
      replay C s.cur (l.map fun b => (skip_nothing, b)) = .ok s'.cur := by
  induction l generalizing s n with
  | nil =>
    cases hres
    exact ⟨s, h, rfl⟩
  | cons b rest ih =>
    obtain ⟨u, n1, hfirst, hrest⟩ := bind_eq_ok hres
    obtain ⟨x, n2, hpush, hpure⟩ := bind_eq_ok hfirst
    obtain rfl : n2 = n1 := congrArg Prod.snd hpure
    obtain ⟨ha1, hid, s1, h1, happ⟩ := push_block_applied rfl h ha hl.1 hpush
    obtain ⟨s', h', hreplay⟩ := ih h1 ha1 (hid ▸ hl.2) hrest
    refine ⟨s', h', ?_⟩
    simp only [List.map_cons, replay, happ.run_applyBlock]
    exact hreplay

end Nodes

namespace Protocol

variable {B : BlockSpec} {P : Protocol B}

/-- The tables of two nodes are the same, except for `transaction_index`. -/
def SameTablesButTransactions (n n' : Node P.chain) : Prop :=
  ∀ t : P.S.T, (n.db (some t)).indices = (n'.db (some t)).indices ∧
    (n.db (some t)).next_id = (n'.db (some t)).next_id

/-- A chain of blocks that a node takes live from genesis is taken by `reindex` from the block log,
with the same tables but for `transaction_index`, which is empty. On top of them the live node
accepts a block or a transaction exactly if the reindexed one does and it repeats no transaction in
the table of the live node. -/
theorem reindex_live (L : ChainLaws P.chain) {n₀ n : Node P.chain} {g : Contents P.S}
    (h₀ : Opened L n₀ (g.extend .empty)) (ha : n₀.ForkAgrees) {l : List B.Block} {last : B.Id}
    (hne : l ≠ []) (hl : Linked B n₀.head_block_id l last) (hlive : pushAll l n₀ = (.ok (), n)) :
    ∃ m n', clear_pending n = (.ok (), m) ∧ reindex { n₀ with block_log := l } = (.ok (), n') ∧
      SameTablesButTransactions m n' ∧ (n'.db none).indices = .empty ∧
      (∀ b, m.AcceptsBlock b ↔ n'.AcceptsBlock b ∧
        ∀ trx ∈ P.transactions b, P.is_known_transaction m.db.view trx = false) ∧
      ∀ trx : P.Tx, m.AcceptsTransaction trx ↔ n'.AcceptsTransaction trx ∧
        P.is_known_transaction m.db.view trx = false := by
  have hinv : NodeInvAt (Tracked.trivial L) _ n₀ := h₀.nodeInvAt True.intro h₀.heap
  obtain ⟨s, h, hreplay⟩ := pushAll_replay l hinv ha hl hlive
  obtain ⟨db, hclear, -, -, href⟩ := clear_pending_clean h
  obtain ⟨n', r, hre, href'⟩ := reindex_of_replay (n := { n₀ with block_log := l }) h₀.db hne
    (replay_reindex l hreplay)
  -- what programs return on the two nodes, on contents that differ in one table
  have hm : ∀ p : Prog P.tables P.E Unit,
      (p.exec db).1 = .ok () ↔ (p.run (s.cur.base.extend s.cur.added)).1 = .ok () := fun p => by
    rw [Contents.extend_base_added, (href.exec p).1]
  have hn' : ∀ p : Prog P.tables P.E Unit,
      (p.exec n'.db).1 = .ok () ↔ (p.run (s.cur.base.extend .empty)).1 = .ok () := fun p => by
    rw [(href'.exec p).1]
  have hknown : ∀ trx, P.is_known_transaction db.view trx = P.isKnown s.cur.added.rows trx := by
    intro trx
    rw [href.view_eq]
    rfl
  refine ⟨_, n', hclear, hre, fun t => ⟨?_, ?_⟩, (href' none).rows, fun b => ?_, fun trx => ?_⟩
  · exact (href (some t)).rows.trans (href' (some t)).rows.symm
  · exact (href (some t)).next_id.trans (href' (some t)).next_id.symm
  · simp only [hknown]
    exact (hm (P.chain.applyBlock skip_nothing b)).trans
      ((applyBlock_ok_iff rfl b _ _).trans (and_congr_left' (hn' _).symm))
  · rw [hknown]
    exact (hm (P.apply_transaction skip_nothing trx)).trans
      ((apply_transaction_ok_iff rfl trx _ _).trans (and_congr_left' (hn' _).symm))

end Protocol

/-! ## A chain with transactions -/

namespace HeaderChain

/-- The chain of headers with transactions: a block whose salt is not zero carries the transaction of
that number. The transactions do nothing, as a `custom_json_operation` that no plugin interprets. -/
abbrev ledger : Protocol blocks where
  S := tables
  E := BlockCheck
  fail := id
  Tx := ℕ
  TxId := ℕ
  decTxId := inferInstance
  trx_id := id
  expiration _ := 100
  ref_block_num _ := 0
  ref_block_prefix _ := 0
  Op := Unit
  operations _ := [()]
  validate _ := .ok ()
  verify_authority _ _ := .ok ()
  tx_missing_active_auth _ := false
  Merkle := Unit
  decMerkle := inferInstance
  Witness := Unit
  decWitness := inferInstance
  Key := Unit
  timestamp b := b.timestamp
  witness _ := ()
  transactions b := if b.salt = 0 then [] else [b.salt]
  transaction_merkle_root _ := ()
  calculate_merkle_root _ := ()
  shared_db_merkle _ := none
  block_size _ := 0
  validate_signee _ _ := true
  head_block_id v := (properties v).head_block_id
  head_block_num v := (properties v).head_block_number
  head_block_time v := (properties v).time
  last_irreversible_block_num v := (properties v).last_irreversible_block_num
  maximum_block_size _ := 1000
  has_hardfork _ _ := true
  signing_key _ _ := some ()
  runs_current_version _ _ := true
  get_slot_at_time _ _ := 1
  get_scheduled_witness _ _ := ()
  tapos_prefix _ _ := some 0
  setCurrentWitness _ := .pure ()
  process_header_extensions _ := .pure ()
  apply_operation _ := .pure ()
  update_global_dynamic_data b := .modify () 0 (Properties.next b) (keepsKeys _) (.pure ())
  update_signing_witness _ := .pure ()
  updateIrreversible := .modify () 0 Properties.settle (keepsKeys _) (.pure ())
  create_block_summary _ := .pure ()
  maintain _ := .pure ()
  GenArgs := ℕ
  mayGenerate _ _ _ := .ok ()
  trx_size _ := 1
  isExpired _ _ := false
  max_block_header_size := 0
  assemble _ v salt _ := ⟨(properties v).head_block_id, (properties v).time + 1, salt⟩
  fits _ := true

instance : DecidableEq ledger.chain.E := inferInstanceAs (DecidableEq BlockCheck)

theorem moves_pure : Moves (ledger.Stays Inv) (.pure () : Prog tables BlockCheck Unit) :=
  fun c => Protocol.Stays.refl c

def ledgerLaws : ledger.Laws where
  Inv := Inv
  head_num := laws.head_num
  lib_le := laws.lib_le
  setCurrentWitness _ := moves_pure
  process_header_extensions _ := moves_pure
  apply_operation _ := moves_pure
  update_global_dynamic_data := by
    rintro c c' b ⟨p, hp, hnum, hlib⟩ hprev hrun
    have hp' := run_modify hp hrun
    simp only [properties_of_find hp, properties_of_find hp'] at hprev ⊢
    refine ⟨⟨p.next b, hp', rfl, hlib.trans ?_⟩, rfl, rfl⟩
    rw [hnum, hprev]
    exact Nat.sub_le_sub_right (Nat.le_succ _) 21
  update_signing_witness _ := moves_pure
  updateIrreversible := by
    rintro c c' ⟨p, hp, hnum, hlib⟩ hrun
    have hp' := run_modify hp hrun
    obtain ⟨hn, hid⟩ := settle_head p
    simp only [properties_of_find hp, properties_of_find hp']
    refine ⟨⟨p.settle, hp', ?_, ?_⟩, hid, (settle_lib_le hlib).1⟩
    · rw [hn, hid]
      exact hnum
    · rw [hn]
      exact (settle_lib_le hlib).2
  create_block_summary _ := moves_pure
  maintain _ := moves_pure
  assemble_previous _ _ _ _ := rfl

def ledgerNode : Node ledger.chain where
  db
    | none => ⟨[], 0, 0, .empty⟩
    | some _ => ⟨[], 0, 1, genesisTable.rows⟩
  fork := .init
  pending_tx := []
  pending_tx_session := false
  popped_tx := []
  block_log := []
  committed := 0
  reverted := []

theorem opened_ledger : Opened ledgerLaws.chainLaws ledgerNode (genesis.extend .empty) where
  inv := inv_genesis
  db
    | none => ⟨rfl, rfl, rfl, trivial⟩
    | some _ => ⟨rfl, rfl, rfl, trivial⟩
  committed := rfl
  no_pending := rfl
  heap := .nil _

/-- The first block, with the transaction 7. -/
def firstBlock : Header := ⟨.zero, 1, 7⟩

/-- The live node knows the transaction of the first block, the reindexed one takes it again. -/
theorem reindex_forgets_transaction :
    (pushAll [firstBlock] ledgerNode).1 = .ok () ∧
      (reindex { ledgerNode with block_log := [firstBlock] }).1 = .ok () ∧
      ¬ (pushAll [firstBlock] ledgerNode).2.AcceptsTransaction (7 : ℕ) ∧
      (reindex { ledgerNode with block_log := [firstBlock] }).2.AcceptsTransaction (7 : ℕ) := by
  unfold Node.AcceptsTransaction
  decide +kernel

/-- The second block, with the transaction 9. -/
def secondBlock : Header := ⟨blocks.id firstBlock, 2, 9⟩

theorem reindex_live_twoBlocks :
    ∃ m n', clear_pending (pushAll [firstBlock, secondBlock] ledgerNode).2 = (.ok (), m) ∧
      reindex { ledgerNode with block_log := [firstBlock, secondBlock] } = (.ok (), n') ∧
      Protocol.SameTablesButTransactions m n' ∧ (n'.db none).indices = .empty ∧
      (m.AcceptsTransaction (8 : ℕ) ↔ n'.AcceptsTransaction (8 : ℕ) ∧
        ledger.is_known_transaction m.db.view 8 = false) := by
  have hlive : pushAll [firstBlock, secondBlock] ledgerNode =
      (.ok (), (pushAll [firstBlock, secondBlock] ledgerNode).2) := Prod.ext (by decide +kernel) rfl
  have hlinked : Linked blocks ledgerNode.head_block_id [firstBlock, secondBlock]
      (blocks.id secondBlock) := ⟨rfl, rfl, rfl⟩
  obtain ⟨m, n', hm, hn', hsame, hempty, -, htrx⟩ := Protocol.reindex_live ledgerLaws.chainLaws
    opened_ledger (rfl : ledgerNode.head_block_id = HeaderId.zero) (List.cons_ne_nil _ _)
    hlinked hlive
  exact ⟨m, n', hm, hn', hsame, hempty, htrx 8⟩

end HeaderChain

end Calibrd.Chain
