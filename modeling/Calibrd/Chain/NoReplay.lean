import Calibrd.Chain.Pending
import Calibrd.Chain.Reindex

/-!
# No transaction is applied twice

A transaction stays in `transaction_index` until the head block is later than its expiration, and
from then on it is too late to apply it: `clear_expired_transactions` removes what expired before the
head block, `_apply_transaction` refuses what expired before the head block, and the time of the head
block only moves forward (`Guarded`). In the first block transactions are not checked for their
expiration, but none was removed before it.
-/

namespace Calibrd.Chain

open Calibrd.Lib Calibrd.Chainbase Stateful Prog

/-! ## The blocks behind the contents of a node -/

section Taken

variable {B : BlockSpec} {S : Schema} {C : ChainSpec B S}

/-- The block was applied, or it threw after it began and could not be undone. -/
def Took (C : ChainSpec B S) (skip : SkipFlags) (c : Contents S) (b : B.Block) (d : Contents S) :
    Prop :=
  ∃ c2, Began C skip c b c2 ∧ LeftAt C skip c2 b d

variable {skip : SkipFlags} {b : B.Block}

theorem Applied.took {c c' : Contents S} (h : Applied C skip c b c') : Took C skip c b c' := by
  obtain ⟨c2, hb, hrun⟩ := h
  exact ⟨c2, hb, Or.inr (by rw [hrun])⟩

/-- The blocks, each with its flags, were taken in order. -/
def TookChain (C : ChainSpec B S) : Contents S → List (SkipFlags × B.Block) → Contents S → Prop
  | c, [], d => c = d
  | c, (skip, b) :: rest, d => ∃ c', Took C skip c b c' ∧ TookChain C c' rest d

theorem TookChain.snoc {c d d' : Contents S} {l : List (SkipFlags × B.Block)}
    (h : TookChain C c l d) (hb : Took C skip d b d') :
    TookChain C c (l ++ [(skip, b)]) d' := by
  induction l generalizing c with
  | nil =>
    cases h
    exact ⟨d', hb, rfl⟩
  | cons p rest ih =>
    obtain ⟨c', hfirst, hrest⟩ := h
    exact ⟨c', hfirst, ih hrest⟩

/-- Blocks that came in with the calls, under flags of the calls, were taken from `g` to `c`. -/
def Taken (C : ChainSpec B S) (calls : List (Call C)) (g c : Contents S)
    (l : List (SkipFlags × B.Block)) : Prop :=
  (∀ p ∈ l, (∃ call ∈ calls, call.Uses p.1) ∧ ∃ call ∈ calls, call.Brings p.2) ∧
    Linked B (C.head_block_id g.view) (l.map Prod.snd) (C.head_block_id c.view) ∧ TookChain C g l c

theorem Taken.took {L : ChainLaws C} {calls : List (Call C)} {g c c' : Contents S}
    {l : List (SkipFlags × B.Block)} (h : Taken C calls g c l) (hc : L.Inv c)
    (huses : ∃ call ∈ calls, call.Uses skip) (hbrings : ∃ call ∈ calls, call.Brings b)
    (hb : Took C skip c b c') :
    Taken C calls g c' (l ++ [(skip, b)]) := by
  obtain ⟨hl, hlinked, htook⟩ := h
  obtain ⟨c2, hbegan, hleft⟩ := hb
  have hat := (hleft.atBlock (hbegan.atBlock hc)).1
  refine ⟨?_, ?_, htook.snoc ⟨c2, hbegan, hleft⟩⟩
  · exact List.forall_mem_append.2 ⟨hl, List.forall_mem_singleton.2 ⟨huses, hbrings⟩⟩
  · rw [List.map_append, hat.id]
    exact hlinked.snoc hat.previous.symm

/-- Contents with taken blocks behind them, in every run. -/
def Tracked.taken (L : ChainLaws C) (calls : List (Call C)) (g : Contents S) : Tracked L where
  Flags skip := ∃ call ∈ calls, call.Uses skip
  Ok b := ∃ call ∈ calls, call.Brings b
  R c := ∃ l, Taken C calls g c l
  guard _ := True
  guard_tail := id
  applied hflags hok hc hr hb := by
    obtain ⟨l, hl⟩ := hr
    exact ⟨_, hl.took hc hflags hok hb.took⟩
  stuck hflags hok hc hr hb hleft _ _ := by
    obtain ⟨l, hl⟩ := hr
    exact ⟨_, hl.took hc hflags hok ⟨_, hb, hleft⟩⟩

theorem Tracked.taken_admits (L : ChainLaws C) (g : Contents S) {calls : List (Call C)}
    {call : Call C} (h : call ∈ calls) : (Tracked.taken L calls g).Admits call :=
  admits_of_mem (fun _ => id) (fun _ => id) h

end Taken

namespace Protocol

variable {B : BlockSpec} {P : Protocol B}

/-! ## The clock -/

/-- The time of the head block stays. -/
def KeepsTime (P : Protocol B) (Inv : Contents P.S → Prop) (c c' : Contents P.S) : Prop :=
  Inv c → P.head_block_time c'.view = P.head_block_time c.view

/-- What is assumed of the parts of block application: `update_global_dynamic_data` sets the time of
the head block to the timestamp of the block, and nothing else changes it. -/
structure Clock (Λ : P.Laws) : Prop where
  setCurrentWitness : ∀ b, Moves (P.KeepsTime Λ.Inv) (P.setCurrentWitness b)
  process_header_extensions : ∀ b, Moves (P.KeepsTime Λ.Inv) (P.process_header_extensions b)
  apply_operation : ∀ op, Moves (P.KeepsTime Λ.Inv) (P.apply_operation op)
  update_global_dynamic_data : ∀ {c c' b}, Λ.Inv c → P.head_block_id c.view = B.previous b →
    (P.update_global_dynamic_data b).run c = (.ok (), c') →
    P.head_block_time c'.view = P.timestamp b
  update_signing_witness : ∀ b, Moves (P.KeepsTime Λ.Inv) (P.update_signing_witness b)
  updateIrreversible : ∀ {c c'}, Λ.Inv c → P.updateIrreversible.run c = (.ok (), c') →
    P.head_block_time c'.view = P.head_block_time c.view
  create_block_summary : ∀ b, Moves (P.KeepsTime Λ.Inv) (P.create_block_summary b)
  maintain : ∀ b, Moves (P.KeepsTime Λ.Inv) (P.maintain b)

/-- The invariant, the head block and its time stay. -/
def Stands (P : Protocol B) (Inv : Contents P.S → Prop) (c c' : Contents P.S) : Prop :=
  Inv c → Inv c' ∧ P.head_block_id c'.view = P.head_block_id c.view ∧
    P.head_block_time c'.view = P.head_block_time c.view

variable {Inv : Contents P.S → Prop} {p : Prog P.S P.E Unit} {trx : P.Tx}

theorem Stands.refl (c : Contents P.S) : P.Stands Inv c c :=
  fun h => ⟨h, rfl, rfl⟩

theorem Stands.trans {a b c : Contents P.S} (h : P.Stands Inv a b) (h' : P.Stands Inv b c) :
    P.Stands Inv a c := by
  intro ha
  obtain ⟨hb, hid, htime⟩ := h ha
  obtain ⟨hc, hid', htime'⟩ := h' hb
  exact ⟨hc, hid'.trans hid, htime'.trans htime⟩

theorem Stands.num_eq {Λ : P.Laws} {c c' : Contents P.S} (h : P.Stands Λ.Inv c c') (hc : Λ.Inv c) :
    P.head_block_num c'.view = P.head_block_num c.view := by
  obtain ⟨hc', hid, -⟩ := h hc
  rw [Λ.head_num hc', Λ.head_num hc, hid]

theorem Laws.stands {Λ : P.Laws} (h : Moves (P.Stays Λ.Inv) p) (htime : Moves (P.KeepsTime Λ.Inv) p)
    : Moves (P.Stands Λ.Inv) p := by
  intro c hc
  obtain ⟨hc', hid, -⟩ := h c hc
  exact ⟨hc', hid, htime c hc⟩

theorem Clock.operations {Λ : P.Laws} (K : P.Clock Λ) (l : List P.Op) :
    Moves (P.Stands Λ.Inv) (forAll P.apply_operation l) :=
  moves_forAll Stands.refl (fun _ _ _ => Stands.trans)
    (fun op => Laws.stands (Λ.apply_operation op) (K.apply_operation op)) l

theorem stands_of_part {c c' : Contents P.tables} (hp : Moves (P.Stands Inv) p)
    (h : (P.part p).run c = (.ok (), c')) :
    P.Stands Inv c.base c'.base :=
  hp.of_ok (Laws.run_part_ok h)

/-! ## Applied once -/

/-- Transactions with the same id are the same up to their signatures; what is used is that they
expire at the same time. -/
def CollisionFree (P : Protocol B) : Prop :=
  ∀ x y, P.trx_id x = P.trx_id y → P.expiration x = P.expiration y

/-- The table of transactions after `txs` were applied: it has no others. Where `D` holds, each of
them was applied once and with the duplicate check, and is in the table or expired before the head
block. -/
structure Guarded (P : Protocol B) (D : Prop) (txs : List P.Tx) (c : Contents P.tables) : Prop where
  recorded : ∀ i o, c.added.rows.find? i = some o → ∃ x ∈ txs, o = P.transactionObject x
  nodup : D → (txs.map P.trx_id).Nodup
  kept : D → ∀ x ∈ txs, P.isKnown c.added.rows x = true ∨
    0 < P.head_block_num c.base.view ∧ P.expiration x < P.head_block_time c.base.view

namespace Guarded

variable {D : Prop} {txs : List P.Tx} {c c' : Contents P.tables} {Λ : P.Laws} {skip : SkipFlags}

theorem empty (c : Contents P.S) : P.Guarded D [] (c.extend .empty) :=
  ⟨nofun, fun _ => List.nodup_nil, fun _ => List.forall_mem_nil _⟩

theorem mem_of_isKnown (h : P.Guarded D txs c) (hk : P.isKnown c.added.rows trx = true) :
    ∃ x ∈ txs, P.trx_id x = P.trx_id trx := by
  obtain ⟨i, o, hfind, ho⟩ := isKnown_iff.1 hk
  obtain ⟨x, hx, rfl⟩ := h.recorded i o hfind
  exact ⟨x, hx, ho⟩

theorem later (h : P.Guarded D txs c) (hadded : c'.added = c.added)
    (hnum : 0 < P.head_block_num c.base.view → 0 < P.head_block_num c'.base.view)
    (htime : P.head_block_time c.base.view ≤ P.head_block_time c'.base.view) :
    P.Guarded D txs c' := by
  refine ⟨fun i o hfind => h.recorded i o (hadded ▸ hfind), h.nodup, fun hD x hx => ?_⟩
  rw [hadded]
  rcases h.kept hD x hx with hknown | ⟨hpos, hlt⟩
  · exact Or.inl hknown
  · exact Or.inr ⟨hnum hpos, hlt.trans_le htime⟩

theorem stands (h : P.Guarded D txs c) (hadded : c'.added = c.added) (hc : Λ.Inv c.base)
    (hstands : P.Stands Λ.Inv c.base c'.base) : Λ.Inv c'.base ∧ P.Guarded D txs c' := by
  obtain ⟨hc', -, htime⟩ := hstands hc
  exact ⟨hc', h.later hadded (fun hpos => (hstands.num_eq hc).symm ▸ hpos) htime.ge⟩

theorem clears {c : Contents P.S} {T T' : Table P.transactionKeys} (h : P.Guarded D txs (c.extend T))
    (hpos : 0 < P.head_block_num c.view) (hclears : P.Clears c T T') :
    P.Guarded D txs (c.extend T') := by
  refine ⟨fun i o hfind => h.recorded i o (hclears.kept i o hfind), h.nodup, fun hD x hx => ?_⟩
  rcases h.kept hD x hx with hknown | hexpired
  · obtain ⟨i, o, hfind, ho⟩ := isKnown_iff.1 hknown
    rcases hclears.expired i o hfind with hfind' | hlt
    · exact Or.inl (isKnown_iff.2 ⟨i, o, hfind', ho⟩)
    · -- the removed object is that of `x`, as no other transaction has its id
      obtain ⟨y, hy, rfl⟩ := h.recorded i o hfind
      obtain rfl : y = x := List.inj_on_of_nodup_map (h.nodup hD) hy hx ho
      exact Or.inr ⟨hpos, hlt⟩
  · exact Or.inr hexpired

/-- An applied transaction is not one of those before. -/
theorem not_mem (h : P.Guarded D txs c) (hD : D) (hfree : P.CollisionFree)
    (hnew : P.isKnown c.added.rows trx = false)
    (htime : 0 < P.head_block_num c.base.view → P.head_block_time c.base.view ≤ P.expiration trx) :
    ∀ x ∈ txs, P.trx_id x ≠ P.trx_id trx := by
  intro x hx hid
  rcases h.kept hD x hx with hknown | ⟨hpos, hlt⟩
  · rw [isKnown, hid, ← isKnown, hnew] at hknown
    cases hknown
  · have hle := htime hpos
    rw [hfree x trx hid] at hlt
    omega

theorem recorded_create {T T' : Table P.transactionKeys}
    (h : ∀ i o, T.rows.find? i = some o → ∃ x ∈ txs, o = P.transactionObject x)
    (hcreate : T.create (P.transactionObject trx) = some T') :
    ∀ i o, T'.rows.find? i = some o → ∃ x ∈ txs ++ [trx], o = P.transactionObject x := by
  obtain ⟨-, hrows, -⟩ := Table.create_eq_some hcreate
  rw [hrows]
  refine OrdMap.forall_insert (fun i o hfind => ?_)
    ⟨trx, List.mem_append_right _ List.mem_cons_self, rfl⟩
  obtain ⟨x, hx, ho⟩ := h i o hfind
  exact ⟨x, List.mem_append_left _ hx, ho⟩

theorem apply_transaction (K : P.Clock Λ) (hfree : D → P.CollisionFree)
    (hdupe : D → skip.skip_transaction_dupe_check = false) (hc : Λ.Inv c.base)
    (h : P.Guarded D txs c) (hrun : (P.apply_transaction skip trx).run c = (.ok (), c')) :
    P.Stands Λ.Inv c.base c'.base ∧ P.Guarded D (txs ++ [trx]) c' := by
  obtain ⟨-, -, href, htable, hops⟩ := Laws.run_apply_transaction_iff.1 hrun
  have htime := Laws.time_le_of_checkReference href
  rw [Laws.Notes] at htable
  have hstands : P.Stands Λ.Inv c.base c'.base := (K.operations _).of_ok hops
  obtain ⟨-, -, htime'⟩ := hstands hc
  refine ⟨hstands, ?_⟩
  cases hskip : skip.skip_transaction_dupe_check with
  | true =>
    rw [hskip, if_pos rfl] at htable
    have hnot : ¬ D := fun hD => Bool.false_ne_true ((hdupe hD).symm.trans hskip)
    refine ⟨fun i o hfind => ?_, fun hD => absurd hD hnot, fun hD => absurd hD hnot⟩
    obtain ⟨x, hx, ho⟩ := h.recorded i o (htable ▸ hfind)
    exact ⟨x, List.mem_append_left _ hx, ho⟩
  | false =>
    rw [hskip, if_neg Bool.false_ne_true] at htable
    obtain ⟨hnew, hcreate⟩ := htable
    refine ⟨recorded_create h.recorded hcreate, fun hD => ?_, fun hD => ?_⟩
    · rw [List.map_append, List.map_singleton, ← List.concat_eq_append]
      refine (h.nodup hD).concat fun hmem => ?_
      obtain ⟨x, hx, hid⟩ := List.mem_map.1 hmem
      exact h.not_mem hD (hfree hD) hnew htime x hx hid
    · refine List.forall_mem_append.2 ⟨fun x hx => ?_, List.forall_mem_singleton.2 ?_⟩
      · rw [hstands.num_eq hc, htime']
        exact (h.kept hD x hx).imp_left fun hk => (isKnown_create hcreate x).2 (Or.inl hk)
      · exact Or.inl ((isKnown_create hcreate trx).2 (Or.inr rfl))

theorem transactions (K : P.Clock Λ) (hfree : D → P.CollisionFree)
    (hdupe : D → skip.skip_transaction_dupe_check = false) (l : List P.Tx) (hc : Λ.Inv c.base)
    (h : P.Guarded D txs c) (hrun : (forAll (P.apply_transaction skip) l).run c = (.ok (), c')) :
    P.Stands Λ.Inv c.base c'.base ∧ P.Guarded D (txs ++ l) c' := by
  induction l generalizing txs c with
  | nil =>
    obtain rfl : c = c' := (Prod.mk.inj hrun).2
    rw [List.append_nil]
    exact ⟨.refl _, h⟩
  | cons trx rest ih =>
    obtain ⟨_, c1, hfirst, hrest⟩ := run_bind_ok.1 hrun
    obtain ⟨hstands, h1⟩ := h.apply_transaction K hfree hdupe hc hfirst
    obtain ⟨hstands', h'⟩ := ih (hstands hc).1 h1 hrest
    rw [List.append_cons]
    exact ⟨hstands.trans hstands', h'⟩

/-- The pending transactions are among the applied ones. -/
theorem applyTransactions (K : P.Clock Λ) (hfree : D → P.CollisionFree)
    {q : List (SkipFlags × P.Tx)} (hdupe : D → ∀ p ∈ q, p.1.skip_transaction_dupe_check = false)
    (hc : Λ.Inv c.base) (h : P.Guarded D txs c) (hrun : applyTransactions P.chain c q = .ok c') :
    P.Guarded D (txs ++ q.map Prod.snd) c' := by
  induction q generalizing txs c with
  | nil =>
    obtain rfl : c = c' := Except.ok.inj hrun
    rw [List.map_nil, List.append_nil]
    exact h
  | cons p rest ih =>
    obtain ⟨skip, trx⟩ := p
    obtain ⟨c1, hfirst, hrest⟩ := applyTransactions_cons hrun
    obtain ⟨hstands, h1⟩ :=
      h.apply_transaction K hfree (fun hD => hdupe hD _ List.mem_cons_self) hc hfirst
    rw [List.map_cons, List.append_cons]
    exact ih (fun hD p hp => hdupe hD p (List.mem_cons_of_mem _ hp)) (hstands hc).1 h1 hrest

end Guarded

/-! ## Blocks -/

theorem validate_block_header_time {skip : SkipFlags} {b : B.Block} {v : View P.S}
    (h : P.validate_block_header skip b v = .ok ()) : P.head_block_time v < P.timestamp b := by
  simp only [validate_block_header, bind_eq_ok, check_eq_ok, decide_eq_true_eq] at h
  exact h.2.1

section Blocks

variable {D : Prop} {txs : List P.Tx} {c c' : Contents P.tables} {Λ : P.Laws} {skip : SkipFlags}
  {b : B.Block}

/-- A block moves the clock forward, and adds its transactions. -/
theorem Guarded.applyBefore (K : P.Clock Λ) (hfree : D → P.CollisionFree)
    (hdupe : D → skip.skip_transaction_dupe_check = false) (hc : Λ.Inv c.base)
    (h : P.Guarded D txs c) (hrun : (P.applyBefore skip b).run c = (.ok (), c')) :
    Λ.Inv c'.base ∧ 0 < P.head_block_num c'.base.view ∧ P.Guarded D (txs ++ P.transactions b) c' := by
  obtain ⟨c3, c4, hthrough, hglobal, hsigning⟩ := Laws.run_applyBefore_ok hrun
  obtain ⟨-, hheader, -, c1, c2, hcurrent, hextensions, -, htransactions⟩ :=
    Laws.run_applyThrough_iff.1 hthrough
  have hcur := stands_of_part (Laws.stands (Λ.setCurrentWitness b) (K.setCurrentWitness b)) hcurrent
  have hext := stands_of_part
    (Laws.stands (Λ.process_header_extensions b) (K.process_header_extensions b)) hextensions
  obtain ⟨hc1, h1⟩ := h.stands (Laws.added_of_part hcurrent) hc hcur
  obtain ⟨hc2, h2⟩ := h1.stands (Laws.added_of_part hextensions) hc1 hext
  obtain ⟨htrx, h3⟩ := h2.transactions K hfree hdupe _ hc2 htransactions
  -- up to here the head and the time stay where the header check found them
  obtain ⟨hc3, hid3, htime3⟩ := (hcur.trans (hext.trans htrx)) hc
  have hprevious := hid3.trans (Laws.validate_block_header_previous hheader)
  obtain ⟨hc4, hid4, -⟩ :=
    Λ.update_global_dynamic_data hc3 hprevious (Laws.run_part_ok hglobal)
  have htime4 := K.update_global_dynamic_data hc3 hprevious (Laws.run_part_ok hglobal)
  have hpos4 : 0 < P.head_block_num c4.base.view := by
    rw [Λ.head_num hc4, hid4, B.num_id]
    exact Nat.succ_pos _
  have h4 : P.Guarded D (txs ++ P.transactions b) c4 := by
    refine h3.later (Laws.added_of_part hglobal) (fun _ => hpos4) ?_
    rw [htime3, htime4]
    exact (validate_block_header_time hheader).le
  have hsign := stands_of_part
    (Laws.stands (Λ.update_signing_witness b) (K.update_signing_witness b)) hsigning
  obtain ⟨hc', h'⟩ := h4.stands (Laws.added_of_part hsigning) hc4 hsign
  exact ⟨hc', (hsign.num_eq hc4).symm ▸ hpos4, h'⟩

/-- From the second block on, everything that is guarded stays so. -/
def Upholds (Λ : P.Laws) (c c' : Contents P.tables) : Prop :=
  Λ.Inv c.base → 0 < P.head_block_num c.base.view → Λ.Inv c'.base ∧
    0 < P.head_block_num c'.base.view ∧ ∀ D txs, P.Guarded D txs c → P.Guarded D txs c'

theorem Upholds.trans {a b c : Contents P.tables} (h : P.Upholds Λ a b) (h' : P.Upholds Λ b c) :
    P.Upholds Λ a c := by
  intro ha hpos
  obtain ⟨hb, hposb, hguard⟩ := h ha hpos
  obtain ⟨hc, hposc, hguard'⟩ := h' hb hposb
  exact ⟨hc, hposc, fun D txs hg => hguard' D txs (hguard D txs hg)⟩

theorem upholds_part (hp : Moves (P.Stands Λ.Inv) p) :
    Moves (P.Upholds Λ) (P.part p) := by
  intro c hc hpos
  rw [part, run_lift_eq]
  have hstands := hp c.base
  refine ⟨(hstands hc).1, (hstands.num_eq hc).symm ▸ hpos, fun D txs h => ?_⟩
  have hadded : ((p.run c.base).2.extend c.added).added = c.added := rfl
  exact (h.stands hadded hc hstands).2

theorem upholds_clear_expired : Moves (P.Upholds Λ) P.clear_expired_transactions := by
  intro c hc hpos
  obtain ⟨T', hrun, hclears, -⟩ := run_clear_expired_transactions c.base c.added
  rw [Contents.extend_base_added] at hrun
  rw [hrun]
  refine ⟨hc, hpos, fun D txs h => ?_⟩
  rw [← Contents.extend_base_added c] at h
  exact h.clears hpos hclears

variable (K : P.Clock Λ)

include K

theorem upholds_applyAfter (b : B.Block) :
    Moves (P.Upholds Λ) (P.applyAfter b) := by
  have hsummary := Laws.stands (Λ.create_block_summary b) (K.create_block_summary b)
  have hmaintain := Laws.stands (Λ.maintain b) (K.maintain b)
  refine Moves.bind (fun _ _ _ => Upholds.trans) (upholds_part hsummary) fun _ => ?_
  exact Moves.bind (fun _ _ _ => Upholds.trans) upholds_clear_expired fun _ =>
    upholds_part hmaintain

/-- A block that was taken, also one that threw too late to be undone. -/
theorem Guarded.took (hfree : D → P.CollisionFree)
    (hdupe : D → skip.skip_transaction_dupe_check = false) (hc : Λ.Inv c.base)
    (h : P.Guarded D txs c) (hb : Took P.chain skip c b c') :
    Λ.Inv c'.base ∧ P.Guarded D (txs ++ P.transactions b) c' := by
  obtain ⟨c2, ⟨c1, hbefore, hupdate⟩, hleft⟩ := hb
  obtain ⟨hc1, hpos1, h1⟩ := h.applyBefore K hfree hdupe hc hbefore
  have hupdated := Laws.run_part_ok hupdate
  obtain ⟨hc2, hid2, -⟩ := Λ.updateIrreversible hc1 hupdated
  have hstands : P.Stands Λ.Inv c1.base c2.base :=
    fun _ => ⟨hc2, hid2, K.updateIrreversible hc1 hupdated⟩
  obtain ⟨-, h2⟩ := h1.stands (Laws.added_of_part hupdate) hc1 hstands
  rcases hleft with rfl | rfl
  · exact ⟨hc2, h2⟩
  · obtain ⟨hc', -, hguard⟩ :=
      upholds_applyAfter K b c2 hc2 ((hstands.num_eq hc1).symm ▸ hpos1)
    exact ⟨hc', hguard D _ h2⟩

theorem Guarded.tookChain (hfree : D → P.CollisionFree) {l : List (SkipFlags × B.Block)}
    (hdupe : D → ∀ p ∈ l, p.1.skip_transaction_dupe_check = false) (hc : Λ.Inv c.base)
    (h : P.Guarded D txs c) (hl : TookChain P.chain c l c') :
    P.Guarded D (txs ++ l.flatMap fun p => P.transactions p.2) c' := by
  induction l generalizing txs c with
  | nil =>
    cases hl
    rw [List.flatMap_nil, List.append_nil]
    exact h
  | cons p rest ih =>
    obtain ⟨c1, hfirst, hrest⟩ := hl
    obtain ⟨hc1, h1⟩ := h.took K hfree (fun hD => hdupe hD p List.mem_cons_self) hc hfirst
    rw [List.flatMap_cons, ← List.append_assoc]
    exact ih (fun hD p hp => hdupe hD p (List.mem_cons_of_mem _ hp)) hc1 h1 hrest

/-- A transaction with the id of an applied one is refused. -/
theorem Guarded.refuses_transaction (hfree : P.CollisionFree)
    (hdupe : skip.skip_transaction_dupe_check = false) (hc : Λ.Inv c.base)
    (h : P.Guarded True txs c) {x trx : P.Tx} (hx : x ∈ txs) (hid : P.trx_id trx = P.trx_id x) :
    ((P.apply_transaction skip trx).run c).1 ≠ .ok () := by
  intro hok
  have hrun : (P.apply_transaction skip trx).run c = (.ok (), _) := Prod.ext hok rfl
  obtain ⟨-, h'⟩ := h.apply_transaction K (fun _ => hfree) (fun _ => hdupe) hc hrun
  have hnodup := h'.nodup True.intro
  rw [List.map_append, List.nodup_append] at hnodup
  exact hnodup.2.2 _ (List.mem_map_of_mem hx) _ (List.mem_map_of_mem List.mem_cons_self) hid.symm

/-- So is a block with such a transaction. -/
theorem Guarded.refuses_block (hfree : P.CollisionFree)
    (hdupe : skip.skip_transaction_dupe_check = false) (hc : Λ.Inv c.base)
    (h : P.Guarded True txs c) {x trx : P.Tx} (hx : x ∈ txs) (hid : P.trx_id trx = P.trx_id x)
    (htrx : trx ∈ P.transactions b) : ((P.chain.applyBlock skip b).run c).1 ≠ .ok () := by
  intro hok
  have hrun : (P.chain.applyBlock skip b).run c = (.ok (), _) := Prod.ext hok rfl
  obtain ⟨_, c1, hbefore, -⟩ := run_bind_ok.1 hrun
  obtain ⟨-, -, h'⟩ := h.applyBefore K (fun _ => hfree) (fun _ => hdupe) hc hbefore
  have hnodup := h'.nodup True.intro
  rw [List.map_append, List.nodup_append] at hnodup
  exact hnodup.2.2 _ (List.mem_map_of_mem hx) _ (List.mem_map_of_mem htrx) hid.symm

end Blocks

end Protocol

/-! ## Runs -/

theorem Opened.taken {B : BlockSpec} {S : Schema} {C : ChainSpec B S} {L : ChainLaws C} {n₀ : Node C}
    {g : Contents S} (h₀ : Opened L n₀ g) (hfork : n₀.fork = .init) (calls : List (Call C)) :
    CleanAt (Tracked.taken L calls g) ⟨g, [], C.head_block_num g.view⟩ n₀ := by
  have hnone : Taken C calls g g [] := ⟨List.forall_mem_nil _, rfl, rfl⟩
  have hstart : (Tracked.taken L calls g).R g := ⟨[], hnone⟩
  refine ⟨h₀.no_pending, (h₀.nodeInvAt hstart ?_).1, h₀.db⟩
  rw [hfork]
  exact .nil _

namespace Protocol

variable {B : BlockSpec} {P : Protocol B}

/-- The duplicate check is on. -/
def ChecksDuplicates (skip : SkipFlags) : Prop := skip.skip_transaction_dupe_check = false

/-- The blocks use the flags of the calls that transactions are pushed under. -/
theorem checksDuplicates_of_uses {C : ChainSpec B P.tables} {F : SkipFlags → Prop} {call : Call C}
    {skip : SkipFlags} (h : call.PushesUnder F) (huses : call.Uses skip) : F skip := by
  cases call with
  | push_block skip' b => exact (show skip = skip' from huses) ▸ h
  | generate_block skip' args => exact (show skip = skip' from huses) ▸ h
  | push_transaction => exact huses.elim
  | pop_block => exact huses.elim
  | clear_pending => exact huses.elim

/-- In every run from genesis with the duplicate check on, through fork switches, failed pushes and
the removal of expired transactions: the blocks behind the tables have no transaction id twice, and
a transaction with the id of one of theirs is refused, alone on the tables as they are or without the
pending transactions, and in a block. -/
theorem run_no_replay (Λ : P.Laws) (K : P.Clock Λ) (hfree : P.CollisionFree) {n₀ : Node P.chain}
    {g : Contents P.S} (h₀ : Opened Λ.chainLaws n₀ (g.extend .empty)) (hfork : n₀.fork = .init)
    (calls : List (Call P.chain)) (hcalls : ∀ call ∈ calls, call.PushesUnder ChecksDuplicates) :
    ∃ m c l, clear_pending (n₀.run calls) = (.ok (), m) ∧ m.Holds c ∧
      Taken P.chain calls (g.extend .empty) c l ∧
      ((l.flatMap fun p => P.transactions p.2).map P.trx_id).Nodup ∧
      ∀ p ∈ l, ∀ x ∈ P.transactions p.2, ∀ trx : P.Tx, P.trx_id trx = P.trx_id x →
        ¬ (n₀.run calls).AcceptsTransaction trx ∧ ¬ m.AcceptsTransaction trx ∧
          ∀ b, trx ∈ P.transactions b → ¬ m.AcceptsBlock b := by
  have hstart : SessionInv (Tracked.taken Λ.chainLaws calls (g.extend .empty)) ChecksDuplicates False
      n₀ := (h₀.taken hfork calls).sessionInv False.elim
  obtain ⟨s, q, d, hat, hq, -⟩ := run_sessionInv
    (fun call hcall => Tracked.taken_admits Λ.chainLaws (g.extend .empty) hcall) hcalls hstart
    False.elim
  obtain ⟨db, hclear, -, hbase, href⟩ := clear_pending_clean hat.nodeInvAt
  obtain ⟨l, hl⟩ := hbase.tracked True.intro _ s.cur_mem_values
  have hc : Λ.Inv s.cur.base := hbase.stack.inv_cur
  -- the blocks, and then the pending transactions
  have hflags : ∀ p ∈ l, p.1.skip_transaction_dupe_check = false := by
    intro p hp
    obtain ⟨⟨call, hcall, huses⟩, -⟩ := hl.1 p hp
    exact checksDuplicates_of_uses (hcalls call hcall) huses
  have hguard := (Guarded.empty (D := True) g).tookChain K (fun _ => hfree) (fun _ => hflags) h₀.inv
    hl.2.2
  rw [List.nil_append] at hguard
  have hpending := hguard.applyTransactions K (fun _ => hfree) (fun _ => hq) hc hat.applied
  have hd : Λ.Inv d.base := (SameHead.applyTransactions hbase.stack.inv_cur hat.applied).inv
  refine ⟨_, s.cur, l, hclear, fun t => ⟨(href t).rows, (href t).next_id⟩, hl,
    hguard.nodup True.intro, ?_⟩
  intro p hp x hx trx hid
  have hmem : x ∈ l.flatMap fun p => P.transactions p.2 := List.mem_flatMap.2 ⟨p, hp, hx⟩
  refine ⟨?_, ?_, fun b hb => ?_⟩
  · unfold Node.AcceptsTransaction
    rw [(hat.db.exec _).1, hat.cur_eq]
    exact hpending.refuses_transaction K hfree rfl hd (List.mem_append_left _ hmem) hid
  · unfold Node.AcceptsTransaction
    rw [(href.exec _).1]
    exact hguard.refuses_transaction K hfree rfl hc hmem hid
  · unfold Node.AcceptsBlock
    rw [(href.exec _).1]
    exact hguard.refuses_block K hfree rfl hc hmem hid hb

end Protocol

namespace HeaderChain

theorem keepsTime_pure : Moves (ledger.KeepsTime Inv) (.pure () : Prog tables BlockCheck Unit) :=
  fun _ _ => rfl

theorem ledgerClock : ledger.Clock ledgerLaws where
  setCurrentWitness _ := keepsTime_pure
  process_header_extensions _ := keepsTime_pure
  apply_operation _ := keepsTime_pure
  update_global_dynamic_data := by
    rintro c c' b ⟨p, hp, -⟩ - hrun
    have hp' := run_modify hp hrun
    simp only [properties_of_find hp']
    rfl
  update_signing_witness _ := keepsTime_pure
  updateIrreversible := by
    rintro c c' ⟨p, hp, -⟩ hrun
    have hp' := run_modify hp hrun
    simp only [properties_of_find hp, properties_of_find hp']
    unfold Properties.settle
    split <;> rfl
  create_block_summary _ := keepsTime_pure
  maintain _ := keepsTime_pure

/-- The transaction 7 in the first block, another one pending, and a block after both expired. -/
def expiryCalls : List (Call ledger.chain) :=
  [.push_block skip_nothing firstBlock, .push_transaction skip_nothing (8 : ℕ),
    .push_block skip_nothing (⟨.block .zero 1 7, 200, 0⟩ : Header)]

theorem run_no_replay_expiry :
    ((ledgerNode.run expiryCalls).head_block_num = 2 ∧
        ledger.is_known_transaction (ledgerNode.run expiryCalls).db.view 7 = false) ∧
      ∃ m c l, clear_pending (ledgerNode.run expiryCalls) = (.ok (), m) ∧ m.Holds c ∧
        Taken ledger.chain expiryCalls (genesis.extend .empty) c l ∧
        ((l.flatMap fun p => ledger.transactions p.2).map ledger.trx_id).Nodup ∧
        ∀ p ∈ l, ∀ x ∈ ledger.transactions p.2, ∀ trx : ℕ, trx = x →
          ¬ (ledgerNode.run expiryCalls).AcceptsTransaction trx ∧ ¬ m.AcceptsTransaction trx ∧
            ∀ b, trx ∈ ledger.transactions b → ¬ m.AcceptsBlock b := by
  refine ⟨by decide +kernel, ?_⟩
  have hcalls : ∀ call ∈ expiryCalls, call.PushesUnder Protocol.ChecksDuplicates := by
    simp [expiryCalls, Call.PushesUnder, Protocol.ChecksDuplicates, skip_nothing]
  exact Protocol.run_no_replay ledgerLaws ledgerClock (fun _ _ _ => rfl) opened_ledger rfl
    expiryCalls hcalls

end HeaderChain

end Calibrd.Chain
