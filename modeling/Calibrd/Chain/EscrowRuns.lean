import Calibrd.Chain.Escrows

/-!
# Runs of the escrows

A trace is a run of the escrow operations and of the loop over unratified escrows, with the escrows
that were opened, the approvals and the payments. Ids are given out once, so the trace of each escrow
can be told apart (`Tracked`), and every accepted call makes moves of the machine. In every run each
escrow is therefore in a phase, which is what `run_lawful` says in terms of deposits and payments.
-/

namespace Calibrd.Chain.Escrows

open Calibrd.Lib Calibrd.Protocol Calibrd.Chain.Ledger

/-- The chain, with the escrows that were opened, the approvals and the payments so far. -/
structure Trace where
  state : State := {}
  opened : List Escrow := []
  approvals : List (ℕ × AccountName) := []
  payouts : List Payout := []

namespace Trace

def step (t : Trace) (c : Call) : Result Trace := do
  let s ← c.apply t.state
  .ok {
    state := s
    opened := t.opened ++ c.opens t.state
    approvals := t.approvals ++ c.approves t.state
    payouts := t.payouts ++ c.payouts t.state }

/-- What is left of the escrow. -/
def row (t : Trace) (e : Escrow) : Option Escrow :=
  (t.state.escrows.find? (key e)).filter fun r => r.id = e.id

/-- Who has approved the escrow. -/
def approvalsOf (t : Trace) (e : Escrow) : List AccountName :=
  (t.approvals.filter fun a => a.1 = e.id).map Prod.snd

/-- What the escrow has paid. -/
def payoutsOf (t : Trace) (e : Escrow) : List Payout := t.payouts.filter fun p => p.escrow.id = e.id

/-- A run from a state without escrows. -/
def run (calls : List Call) : Trace := runCalls Trace.step {} calls

end Trace

variable {r : Option Escrow}

theorem Move.id_payouts {now : ℕ} {e : Escrow} {approvals : List AccountName}
    {payouts : List Payout} (h : Move now e approvals payouts r) :
    ∀ p ∈ payouts, p.escrow.id = e.id := by
  intro p hp
  cases h with
  | approve => cases hp
  | ratify who hwho h =>
    cases List.mem_singleton.1 hp
    rfl
  | refund h =>
    obtain ⟨_, -, rfl⟩ := List.mem_map.1 hp
    rfl
  | dispute => cases hp
  | release who receiver steem sbd hmay =>
    rcases List.mem_pair.1 hp with rfl | rfl
    · rfl
    · rfl

theorem Move.same {now : ℕ} {e r : Escrow} {approvals : List AccountName} {payouts : List Payout}
    (h : Move now e approvals payouts (some r)) : r.id = e.id ∧ key r = key e := by
  generalize hr : some r = r' at h
  cases h with
  | approve => cases hr; exact ⟨rfl, rfl⟩
  | ratify => cases hr; exact ⟨rfl, rfl⟩
  | refund => cases hr
  | dispute => cases hr; exact ⟨rfl, rfl⟩
  | release =>
    split at hr
    · cases hr
    · cases hr
      exact ⟨rfl, rfl⟩

/-- Ids are given out once, so the row, the approvals and the payments of an escrow are told apart
from those of the others; each escrow is in a phase of the machine. -/
structure Tracked (t : Trace) : Prop where
  keyed : Keyed t.state.escrows
  opened : ∀ e ∈ t.opened, Opened e ∧ e.id < t.state.next_id
  rows : ∀ k r, t.state.escrows.find? k = some r → r.id < t.state.next_id ∧
    ∀ e ∈ t.opened, e.id = r.id → key e = k
  approvals : ∀ a ∈ t.approvals, a.1 < t.state.next_id
  payouts : ∀ p ∈ t.payouts, p.escrow.id < t.state.next_id
  phase : ∀ e ∈ t.opened, Phase e (t.row e) (t.approvalsOf e) (t.payoutsOf e)

namespace Tracked

variable {t : Trace} {s' : State} {e : Escrow}

theorem empty : Tracked {} where
  keyed := nofun
  opened := List.forall_mem_nil _
  rows := nofun
  approvals := List.forall_mem_nil _
  payouts := List.forall_mem_nil _
  phase := List.forall_mem_nil _

theorem filter_id_of_eq {id : ℕ} (h : ∀ r' ∈ r, r'.id = id) :
    r.filter (fun r' => decide (r'.id = id)) = r := by
  cases r with
  | none => rfl
  | some r' => exact Option.filter_eq_some_iff.2 ⟨rfl, decide_eq_true (h r' rfl)⟩

theorem filter_id_of_ne {id : ℕ} (h : ∀ r' ∈ r, r'.id ≠ id) :
    r.filter (fun r' => decide (r'.id = id)) = none :=
  Option.filter_eq_none_iff.2 fun r' hr' => by simpa using h r' hr'

/-- The trace after a move of the escrow. -/
def moved (t : Trace) (s' : State) (e : Escrow) (approvals : List AccountName)
    (payouts : List Payout) : Trace :=
  { t with
    state := s'
    approvals := t.approvals ++ approvals.map fun who => (e.id, who)
    payouts := t.payouts ++ payouts }

section Moved

variable {approvals : List AccountName} {payouts : List Payout}

theorem approvalsOf_moved (x : Escrow) :
    (moved t s' e approvals payouts).approvalsOf x =
      t.approvalsOf x ++ if e.id = x.id then approvals else [] := by
  simp only [moved, Trace.approvalsOf, List.filter_append, List.map_append, List.filter_map,
    List.map_map]
  split_ifs with hid
  · simp [Function.comp_def, hid]
  · simp [Function.comp_def, hid]

theorem payoutsOf_moved (hids : ∀ p ∈ payouts, p.escrow.id = e.id) (x : Escrow) :
    (moved t s' e approvals payouts).payoutsOf x =
      t.payoutsOf x ++ if e.id = x.id then payouts else [] := by
  simp only [moved, Trace.payoutsOf, List.filter_append]
  congr 1
  split_ifs with hid
  · exact List.filter_eq_self.2 fun p hp => decide_eq_true ((hids p hp).trans hid)
  · exact List.filter_eq_nil_iff.2 fun p hp => by simpa [hids p hp] using hid

theorem row_moved (hrow : t.state.escrows.find? (key e) = some e)
    (hedit : s'.escrows = setRow t.state.escrows (key e) r) (hr : ∀ r' ∈ r, r'.id = e.id)
    (x : Escrow) (hx : x.id = e.id → key x = key e) :
    (moved t s' e approvals payouts).row x = if e.id = x.id then r else t.row x := by
  have hfind : (moved t s' e approvals payouts).row x =
      (if key e = key x then r else t.state.escrows.find? (key x)).filter fun r => r.id = x.id := by
    simp only [moved, Trace.row, hedit, find?_setRow]
  rw [hfind]
  by_cases hid : e.id = x.id
  · rw [if_pos (hx hid.symm).symm, if_pos hid]
    exact filter_id_of_eq fun r' hr' => (hr r' hr').trans hid
  · rw [if_neg hid]
    by_cases hkey : key e = key x
    · -- the row of another escrow is none of `x`
      rw [if_pos hkey, Trace.row, ← hkey, hrow, filter_id_of_ne fun r' hr' => (hr r' hr').trans_ne hid]
      exact (filter_id_of_ne fun r' hr' => (Option.mem_some.1 hr') ▸ hid).symm
    · rw [if_neg hkey]
      rfl

theorem move (h : Tracked t) (hmoves : Moves t.state s' e approvals payouts) :
    Tracked (moved t s' e approvals payouts) := by
  obtain ⟨r, hmove, hedit⟩ := hmoves.edit
  have hids := hmove.id_payouts
  obtain ⟨hid, hkey⟩ := h.rows _ e hmoves.row
  have hr : ∀ r' ∈ r, r'.id = e.id ∧ key r' = key e := by
    intro r' hr'
    rw [Option.mem_def] at hr'
    subst hr'
    exact hmove.same
  -- a row of the new table is the new row or an old one
  have hfind : ∀ k r', s'.escrows.find? k = some r' →
      (k = key e ∧ r' ∈ r) ∨ t.state.escrows.find? k = some r' := by
    intro k r' hk
    rw [hedit, find?_setRow] at hk
    split at hk
    · rename_i hsame
      exact .inl ⟨hsame.symm, hk⟩
    · exact .inr hk
  constructor
  case keyed =>
    intro k r' hk
    rcases hfind k r' hk with ⟨rfl, hr'⟩ | hk
    · exact (hr r' hr').2
    · exact h.keyed k r' hk
  case opened =>
    intro x hx
    refine ⟨(h.opened x hx).1, ?_⟩
    rw [moved, hmoves.next_id]
    exact (h.opened x hx).2
  case rows =>
    intro k r' hk
    rw [moved, hmoves.next_id]
    rcases hfind k r' hk with ⟨rfl, hr'⟩ | hk
    · rw [(hr r' hr').1]
      exact ⟨hid, hkey⟩
    · exact h.rows k r' hk
  case approvals =>
    intro a ha
    rw [moved, hmoves.next_id]
    rcases List.mem_append.1 ha with ha | ha
    · exact h.approvals a ha
    · obtain ⟨_, -, rfl⟩ := List.mem_map.1 ha
      exact hid
  case payouts =>
    intro p hp
    rw [moved, hmoves.next_id]
    rcases List.mem_append.1 hp with hp | hp
    · exact h.payouts p hp
    · rw [hids p hp]
      exact hid
  case phase =>
    intro x hx
    rw [approvalsOf_moved, payoutsOf_moved hids,
      row_moved hmoves.row hedit (fun r' hr' => (hr r' hr').1) x (hkey x hx)]
    have hphase := h.phase x hx
    split
    · rename_i hsame
      have hrow : t.row x = some e := by
        rw [Trace.row, hkey x hx hsame.symm, hmoves.row]
        simp [hsame]
      rw [hrow] at hphase
      exact hphase.move (h.opened x hx).1 hmove
    · rw [List.append_nil, List.append_nil]
      exact hphase

end Moved

theorem open_escrow (h : Tracked t) (hopens : Opens t.state s' e) :
    Tracked { t with state := s', opened := t.opened ++ [e] } := by
  have hfind : ∀ k r, s'.escrows.find? k = some r →
      (k = key e ∧ r = e) ∨ t.state.escrows.find? k = some r := by
    rw [hopens.edit]
    exact OrdMap.forall_insert (fun _ _ hk => .inr hk) (.inl ⟨rfl, rfl⟩)
  have hlt : ∀ {n : ℕ}, n < t.state.next_id → n < s'.next_id := by
    intro n hn
    rw [hopens.next_id]
    omega
  have hidlt : e.id < s'.next_id := by
    rw [hopens.next_id, hopens.id]
    omega
  constructor
  case keyed =>
    intro k r hk
    rcases hfind k r hk with ⟨rfl, rfl⟩ | hk
    · rfl
    · exact h.keyed k r hk
  case opened =>
    exact List.forall_mem_append.2 ⟨fun x hx => ⟨(h.opened x hx).1, hlt (h.opened x hx).2⟩,
      List.forall_mem_singleton.2 ⟨hopens.opened, hidlt⟩⟩
  case rows =>
    intro k r hk
    rcases hfind k r hk with ⟨rfl, rfl⟩ | hk
    · refine ⟨hidlt, fun x hx hsame => ?_⟩
      rcases List.mem_append.1 hx with hx | hx
      · have hold := (h.opened x hx).2
        rw [hsame, hopens.id] at hold
        exact absurd hold (lt_irrefl _)
      · cases List.mem_singleton.1 hx
        rfl
    · refine ⟨hlt (h.rows k r hk).1, fun x hx hsame => ?_⟩
      rcases List.mem_append.1 hx with hx | hx
      · exact (h.rows k r hk).2 x hx hsame
      · cases List.mem_singleton.1 hx
        have hold := (h.rows k r hk).1
        rw [← hsame, hopens.id] at hold
        exact absurd hold (lt_irrefl _)
  case approvals => exact fun a ha => hlt (h.approvals a ha)
  case payouts => exact fun p hp => hlt (h.payouts p hp)
  case phase =>
    intro x hx
    rcases List.mem_append.1 hx with hx | hx
    · have hne : x.id ≠ e.id := by
        have hold := (h.opened x hx).2
        rw [hopens.id]
        omega
      have hrow : Trace.row { t with state := s', opened := t.opened ++ [e] } x = t.row x := by
        simp only [Trace.row, hopens.edit, OrdMap.find?_insert]
        split
        · rename_i hkey
          rw [← hkey, hopens.fresh]
          exact filter_id_of_ne fun r hr => (Option.mem_some.1 hr) ▸ hne.symm
        · rfl
      rw [hrow]
      exact h.phase x hx
    · cases List.mem_singleton.1 hx
      have hrow : Trace.row { t with state := s', opened := t.opened ++ [e] } e = some e := by
        simp only [Trace.row, hopens.edit, OrdMap.find?_insert_self]
        exact filter_id_of_eq fun r hr => (Option.mem_some.1 hr) ▸ rfl
      have happrovals : Trace.approvalsOf { t with state := s', opened := t.opened ++ [e] } e = [] := by
        refine List.map_eq_nil_iff.2 (List.filter_eq_nil_iff.2 fun a ha => ?_)
        have hold := h.approvals a ha
        rw [← hopens.id] at hold
        simpa using hold.ne
      have hpayouts : Trace.payoutsOf { t with state := s', opened := t.opened ++ [e] } e = [] := by
        refine List.filter_eq_nil_iff.2 fun p hp => ?_
        have hold := h.payouts p hp
        rw [← hopens.id] at hold
        simpa using hold.ne
      rw [hrow, happrovals, hpayouts]
      exact .start hopens.opened

theorem givenBack {s : State} {es : List Escrow} (h : Tracked t) (hback : GivenBack s es s')
    (hs : t.state = s) :
    Tracked { t with state := s', payouts := t.payouts ++ es.flatMap (refunds s.time) } := by
  induction hback generalizing t with
  | nil s =>
    subst hs
    simpa using h
  | cons hmoves htime _ ih =>
    subst hs
    have hfirst := h.move hmoves
    have hrest := ih hfirst rfl
    simpa [moved, htime] using hrest

/-- An accepted call keeps every escrow in a phase. -/
theorem step {t' : Trace} {c : Call} (h : Tracked t) (hstep : t.step c = .ok t') : Tracked t' := by
  obtain ⟨s', hs', hstep⟩ := bind_ok.1 hstep
  cases hstep
  cases c with
  | escrow_transfer o =>
    simpa [Call.opens, Call.approves, Call.payouts] using h.open_escrow (opens_of_escrow_transfer hs')
  | escrow_approve o =>
    obtain ⟨e, approvals, hmoves, happroves⟩ := moves_of_escrow_approve h.keyed hs'
    rw [happroves]
    simpa [Call.opens, moved] using h.move hmoves
  | escrow_dispute o =>
    obtain ⟨e, hmoves⟩ := moves_of_escrow_dispute h.keyed hs'
    simpa [Call.opens, Call.approves, Call.payouts, moved] using h.move hmoves
  | escrow_release o =>
    obtain ⟨e, hmoves⟩ := moves_of_escrow_release h.keyed hs'
    simpa [Call.opens, Call.approves, moved] using h.move hmoves
  | expire_escrow_ratification =>
    simpa [Call.opens, Call.approves, Call.payouts] using
      h.givenBack (givenBack_of_expire h.keyed hs') rfl
  | other u =>
    cases hs'
    have hlt : ∀ {n : ℕ}, n < t.state.next_id → n < t.state.next_id + u.next_id := by
      intro n hn
      omega
    simp only [Call.opens, Call.approves, Call.payouts, List.append_nil]
    exact {
      keyed := h.keyed
      opened := fun e he => ⟨(h.opened e he).1, hlt (h.opened e he).2⟩
      rows := fun k r hk => ⟨hlt (h.rows k r hk).1, (h.rows k r hk).2⟩
      approvals := fun a ha => hlt (h.approvals a ha)
      payouts := fun p hp => hlt (h.payouts p hp)
      phase := h.phase }

theorem run (calls : List Call) : Tracked (Trace.run calls) :=
  runCalls_rule_all (fun h hstep => h.step hstep) .empty calls

end Tracked

/-- An accepted call of the escrows changes balances by its payments and nothing else. -/
theorem Call.pays_payments {s s' : State} {c : Call} (hs : Keyed s.escrows) (hown : c.own = true)
    (h : c.apply s = .ok s') : Pays s s' (c.payments s) := by
  cases c with
  | escrow_transfer o => simpa [payments, opens, payouts] using (opens_of_escrow_transfer h).pays
  | escrow_approve o =>
    obtain ⟨e, approvals, hmoves, -⟩ := moves_of_escrow_approve hs h
    exact hmoves.pays
  | escrow_dispute o =>
    obtain ⟨e, hmoves⟩ := moves_of_escrow_dispute hs h
    exact hmoves.pays
  | escrow_release o =>
    obtain ⟨e, hmoves⟩ := moves_of_escrow_release hs h
    exact hmoves.pays
  | expire_escrow_ratification => exact (givenBack_of_expire hs h).pays
  | other u => cases hown

/-- In every run, a call of the escrows pays what the trace says, and every escrow that was opened
follows the rules. -/
theorem run_lawful (calls : List Call) :
    (∀ (c : Call) (s' : State), c.own = true → c.apply (Trace.run calls).state = .ok s' →
      Pays (Trace.run calls).state s' (c.payments (Trace.run calls).state)) ∧
    ∀ e ∈ (Trace.run calls).opened, Lawful e ((Trace.run calls).row e)
      ((Trace.run calls).approvalsOf e) ((Trace.run calls).payoutsOf e) := by
  have htracked := Tracked.run calls
  refine ⟨fun c s' hown h => Call.pays_payments htracked.keyed hown h, fun e he => ?_⟩
  exact (htracked.phase e he).lawful (htracked.opened e he).1

/-- Account 1 has 1000 STEEM and 1000 SBD; 2 and 3 have nothing. -/
def parties : OrdMap AccountName Account :=
  ((OrdMap.empty.insert 1 { purse := { steem := 1000, sbd := { balance := 1000 } } }).insert 2 {}).insert 3 {}

/-- Account 1 deposits 100 STEEM and 20 SBD for 2, with a fee of 5 SBD for 3. Both approve, there is a
dispute, and 3 gives 60 STEEM back to 1. -/
def disputedEscrow : List Call :=
  [ .other { accounts := parties },
    .escrow_transfer ⟨1, 2, 3, 7, ⟨20, .SBD⟩, ⟨100, .STEEM⟩, ⟨5, .SBD⟩, 10, 20⟩,
    .escrow_approve ⟨1, 2, 3, 2, 7, true⟩,
    .escrow_approve ⟨1, 2, 3, 3, 7, true⟩,
    .escrow_dispute ⟨1, 2, 3, 7⟩,
    .escrow_release ⟨1, 2, 3, 3, 1, 7, ⟨0, .SBD⟩, ⟨60, .STEEM⟩⟩ ]

/-- The rest goes to 2. -/
def lastRelease : Call := .escrow_release ⟨1, 2, 3, 3, 2, 7, ⟨20, .SBD⟩, ⟨40, .STEEM⟩⟩

theorem run_lawful_disputed :
    (∃ s', lastRelease.apply (Trace.run disputedEscrow).state = .ok s' ∧
      Pays (Trace.run disputedEscrow).state s'
        (lastRelease.payments (Trace.run disputedEscrow).state)) ∧
    ∃ e ∈ (Trace.run disputedEscrow).opened, ((Trace.run disputedEscrow).payoutsOf e).length = 3 ∧
      Lawful e ((Trace.run disputedEscrow).row e) ((Trace.run disputedEscrow).approvalsOf e)
        ((Trace.run disputedEscrow).payoutsOf e) := by
  obtain ⟨hpays, hlawful⟩ := run_lawful disputedEscrow
  obtain ⟨s', hs'⟩ := exists_eq_ok (x := lastRelease.apply (Trace.run disputedEscrow).state)
    (by decide +kernel)
  refine ⟨⟨s', hs', hpays lastRelease s' rfl hs'⟩, ?_⟩
  refine ⟨opening ⟨1, 2, 3, 7, ⟨20, .SBD⟩, ⟨100, .STEEM⟩, ⟨5, .SBD⟩, 10, 20⟩ 0, ?_, ?_, hlawful _ ?_⟩
  all_goals decide +kernel

end Calibrd.Chain.Escrows
