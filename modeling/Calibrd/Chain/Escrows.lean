import Calibrd.Chain.Maintenance
import Calibrd.Chain.Payments

/-!
# The life of an escrow

An escrow goes through a small machine of its own: it waits for two approvals, then it is released in
parts until nothing is left; or it is given back before the second approval. `Move` lists the moves
of that machine with what they pay, `Phase` says where an escrow can be and what it has paid so far,
and `Phase.move` that every move stays inside.

The evaluators are connected to the machine by their inversion lemmas: an accepted transfer opens an
escrow and pays for it (`Opens`), every other accepted call is a move of one escrow with exactly the
payments of that move (`Moves`), and the loop over unratified escrows is a sequence of them
(`GivenBack`).
-/

namespace Calibrd.Chain.Escrows

open Calibrd.Lib Calibrd.Protocol Calibrd.Chain.Ledger

/-! ## Payments of an escrow -/

/-- Why an escrow pays. -/
inductive Cause where
  | fee
  | refund
  | release (who : AccountName)
deriving DecidableEq, Repr

/-- A payment out of an escrow, with the escrow and the time at which it is made. -/
structure Payout where
  escrow : Escrow
  time : ℕ
  cause : Cause
  payment : Payment
deriving DecidableEq, Repr

/-- The part of an asset that is of the symbol. -/
def amountOf (a : Asset) (symbol : Symbol) : ℤ := if a.symbol = symbol then a.amount else 0

/-- What the payments give in one symbol. -/
def total (log : List Payout) (symbol : Symbol) : ℤ :=
  (log.map fun p => amountOf p.payment.amount symbol).sum

variable (e : Escrow)

/-- What the escrow holds in one symbol, the fee included. -/
def held (symbol : Symbol) : ℤ :=
  amountOf ⟨e.steem_balance, .STEEM⟩ symbol + amountOf ⟨e.sbd_balance, .SBD⟩ symbol +
    amountOf e.pending_fee symbol

/-- What the sender pays for an escrow. -/
def deposit : List Payment :=
  [⟨e.from_account, ⟨-held e .STEEM, .STEEM⟩⟩, ⟨e.from_account, ⟨-held e .SBD, .SBD⟩⟩]

/-- Everything goes back to the sender. -/
def refundPayments : List Payment :=
  [⟨e.from_account, ⟨e.steem_balance, .STEEM⟩⟩, ⟨e.from_account, ⟨e.sbd_balance, .SBD⟩⟩,
    ⟨e.from_account, e.pending_fee⟩]

def refunds (now : ℕ) (e : Escrow) : List Payout :=
  (refundPayments e).map fun p => ⟨e, now, .refund, p⟩

/-- The payments of a release. -/
def releases (now : ℕ) (e : Escrow) (who receiver : AccountName) (steem sbd : Asset) : List Payout :=
  [⟨e, now, .release who, ⟨receiver, steem⟩⟩, ⟨e, now, .release who, ⟨receiver, sbd⟩⟩]

@[simp] theorem total_nil (symbol : Symbol) : total [] symbol = 0 := rfl

theorem total_cons (p : Payout) (log : List Payout) (symbol : Symbol) :
    total (p :: log) symbol = amountOf p.payment.amount symbol + total log symbol :=
  List.sum_cons

theorem total_append (log log' : List Payout) (symbol : Symbol) :
    total (log ++ log') symbol = total log symbol + total log' symbol := by
  simp [total]

/-! ## The machine -/

def approvedBy (who : AccountName) : Escrow :=
  { e with
    to_approved := e.to_approved || decide (who = e.to_account)
    agent_approved := e.agent_approved || decide (who = e.agent) }

/-- The escrow without its fee. -/
def ratified : Escrow := { e with pending_fee := ⟨0, e.pending_fee.symbol⟩ }

/-- The escrow after a release. -/
def lessened (steem sbd : ℤ) : Escrow :=
  { e with steem_balance := e.steem_balance - steem, sbd_balance := e.sbd_balance - sbd }

/-- The escrow waits for the approval. -/
structure Awaits (e : Escrow) (who : AccountName) : Prop where
  party : who = e.to_account ∨ who = e.agent
  to_account : who = e.to_account → e.to_approved = false
  agent : who = e.agent → e.agent_approved = false

/-- Who may release to whom: in a dispute the agent decides; otherwise one of the two parties does,
and gives to the other one until the escrow expires. -/
structure MayRelease (e : Escrow) (now : ℕ) (who receiver : AccountName) : Prop where
  approved : e.is_approved = true
  receives : receiver = e.from_account ∨ receiver = e.to_account
  disputed : e.disputed = true → who = e.agent
  party : e.disputed = false → who = e.from_account ∨ who = e.to_account
  from_sender : e.disputed = false → now < e.escrow_expiration → who = e.from_account →
    receiver = e.to_account
  from_receiver : e.disputed = false → now < e.escrow_expiration → who = e.to_account →
    receiver = e.from_account

/-- The moves of one escrow: who approves, what is paid and what is left. -/
inductive Move (now : ℕ) (e : Escrow) : List AccountName → List Payout → Option Escrow → Prop
  | approve (who : AccountName) (hwho : Awaits e who) (h : (approvedBy e who).is_approved = false) :
      Move now e [who] [] (some (approvedBy e who))
  | ratify (who : AccountName) (hwho : Awaits e who) (h : (approvedBy e who).is_approved = true) :
      Move now e [who] [⟨approvedBy e who, now, .fee, ⟨e.agent, e.pending_fee⟩⟩]
        (some (ratified (approvedBy e who)))
  | refund (h : e.is_approved = false) : Move now e [] (refunds now e) none
  | dispute (h : e.is_approved = true) : Move now e [] [] (some { e with disputed := true })
  | release (who receiver : AccountName) (steem sbd : ℤ) (hmay : MayRelease e now who receiver)
      (hsteem : 0 ≤ steem) (hsbd : 0 ≤ sbd) (hsteem' : steem ≤ e.steem_balance)
      (hsbd' : sbd ≤ e.sbd_balance) :
      Move now e [] (releases now e who receiver ⟨steem, .STEEM⟩ ⟨sbd, .SBD⟩)
        (if e.steem_balance - steem = 0 ∧ e.sbd_balance - sbd = 0 then none
          else some (lessened e steem sbd))

structure Opened (e : Escrow) : Prop where
  to_approved : e.to_approved = false
  agent_approved : e.agent_approved = false
  disputed : e.disputed = false
  third_party : e.to_account ≠ e.agent
  steem_nonneg : 0 ≤ e.steem_balance
  sbd_nonneg : 0 ≤ e.sbd_balance
  fee_nonneg : 0 ≤ e.pending_fee.amount

/-- Both approvals are among those given. -/
def BothApproved (approvals : List AccountName) : Prop :=
  e.to_account ∈ approvals ∧ e.agent ∈ approvals

instance (approvals : List AccountName) : Decidable (BothApproved e approvals) :=
  inferInstanceAs (Decidable (_ ∧ _))

/-- The escrow `e` while it is waiting for approvals. -/
def waiting (approvals : List AccountName) : Escrow :=
  { e with
    to_approved := decide (e.to_account ∈ approvals)
    agent_approved := decide (e.agent ∈ approvals) }

/-- The escrow `e` after both approvals. -/
def underway (disputed : Bool) (steem sbd : ℤ) : Escrow :=
  { e with
    to_approved := true
    agent_approved := true
    disputed
    steem_balance := steem
    sbd_balance := sbd
    pending_fee := ⟨0, e.pending_fee.symbol⟩ }

/-- A payment of a release of `e`. -/
def IsRelease (p : Payout) : Prop :=
  ∃ who disputed steem sbd, p.cause = .release who ∧ p.escrow = underway e disputed steem sbd ∧
    MayRelease p.escrow p.time who p.payment.account

/-- The payments of an approved escrow: the fee, then releases. -/
inductive Paying (e : Escrow) : List Payout → Prop
  | mk {fee : Payout} {rest : List Payout} (hcause : fee.cause = .fee)
      (hpayment : fee.payment = ⟨e.agent, e.pending_fee⟩) (happroved : fee.escrow.is_approved = true)
      (hrest : ∀ p ∈ rest, IsRelease e p) : Paying e (fee :: rest)

/-- Where an escrow is: the row that is left, the approvals and the payments so far. -/
inductive Phase (e : Escrow) : Option Escrow → List AccountName → List Payout → Prop
  | pending {approvals : List AccountName} (h : ¬ BothApproved e approvals) :
      Phase e (some (waiting e approvals)) approvals []
  | refunded {approvals : List AccountName} {log : List Payout} (h : ¬ BothApproved e approvals)
      (hlog : log.map Payout.payment = refundPayments e) (hcause : ∀ p ∈ log, p.cause = .refund) :
      Phase e none approvals log
  | approved {approvals : List AccountName} {log : List Payout} {disputed : Bool} {steem sbd : ℤ}
      (h : BothApproved e approvals) (hlog : Paying e log) (hsteem : 0 ≤ steem) (hsbd : 0 ≤ sbd)
      (htotal : ∀ symbol, total log symbol + held (underway e disputed steem sbd) symbol =
        held e symbol) :
      Phase e (some (underway e disputed steem sbd)) approvals log
  | closed {approvals : List AccountName} {log : List Payout} (h : BothApproved e approvals)
      (hlog : Paying e log) (htotal : ∀ symbol, total log symbol = held e symbol) :
      Phase e none approvals log

section Machine

variable {e r : Escrow} {approvals approvals' : List AccountName} {log payouts : List Payout}
  {r' : Option Escrow} {now : ℕ} {who : AccountName}

theorem is_approved_waiting :
    (waiting e approvals).is_approved = true ↔ BothApproved e approvals := by
  simp [Escrow.is_approved, waiting, BothApproved]

theorem approvedBy_waiting :
    approvedBy (waiting e approvals) who = waiting e (approvals ++ [who]) := by
  simp only [approvedBy, waiting, Escrow.mk.injEq, true_and, and_true]
  constructor
  · rw [Bool.eq_iff_iff]
    simp only [Bool.or_eq_true, decide_eq_true_eq, List.mem_append, List.mem_singleton,
      eq_comm (a := who)]
  · rw [Bool.eq_iff_iff]
    simp only [Bool.or_eq_true, decide_eq_true_eq, List.mem_append, List.mem_singleton,
      eq_comm (a := who)]

theorem ratified_waiting (h : BothApproved e approvals) :
    ratified (waiting e approvals) = underway e e.disputed e.steem_balance e.sbd_balance := by
  simp [ratified, waiting, underway, h.1, h.2]

theorem Awaits.not_approved (h : Awaits e who) : e.is_approved = false := by
  rcases h.party with hwho | hwho
  · simp [Escrow.is_approved, h.to_account hwho]
  · simp [Escrow.is_approved, h.agent hwho]

theorem amountOf_zero (symbol symbol' : Symbol) : amountOf ⟨0, symbol⟩ symbol' = 0 := by
  simp [amountOf]

theorem amountOf_sub (a b : ℤ) (symbol symbol' : Symbol) :
    amountOf ⟨a - b, symbol⟩ symbol' = amountOf ⟨a, symbol⟩ symbol' - amountOf ⟨b, symbol⟩ symbol' := by
  simp only [amountOf]
  split <;> omega

theorem held_underway (disputed : Bool) (steem sbd : ℤ) (symbol : Symbol) :
    held (underway e disputed steem sbd) symbol =
      amountOf ⟨steem, .STEEM⟩ symbol + amountOf ⟨sbd, .SBD⟩ symbol := by
  simp only [held, underway, amountOf_zero, add_zero]

theorem total_releases (receiver : AccountName) (steem sbd : Asset) (symbol : Symbol) :
    total (releases now e who receiver steem sbd) symbol =
      amountOf steem symbol + amountOf sbd symbol := by
  simp [total, releases]

theorem Paying.append (h : Paying e log) (hpayouts : ∀ p ∈ payouts, IsRelease e p) :
    Paying e (log ++ payouts) := by
  obtain ⟨hcause, hpayment, happroved, hrest⟩ := h
  exact .mk hcause hpayment happroved (List.forall_mem_append.2 ⟨hrest, hpayouts⟩)

theorem Phase.start (he : Opened e) : Phase e (some e) [] [] := by
  have hsame : waiting e [] = e := by
    cases e
    cases he.to_approved
    cases he.agent_approved
    rfl
  have h : Phase e (some (waiting e [])) [] [] := .pending fun h => nomatch h.1
  rwa [hsame] at h

/-- The moves of an escrow that is not approved yet: an approval, the second approval with the fee,
or everything back. -/
theorem Phase.move_waiting (he : Opened e) (hpending : ¬ BothApproved e approvals)
    (hmove : Move now (waiting e approvals) approvals' payouts r') :
    Phase e r' (approvals ++ approvals') payouts := by
  have hwaiting : (waiting e approvals).is_approved = false := by
    rw [← Bool.not_eq_true, is_approved_waiting]
    exact hpending
  cases hmove with
  | approve who hwho hnot =>
    rw [approvedBy_waiting] at hnot ⊢
    rw [← Bool.not_eq_true, is_approved_waiting] at hnot
    exact .pending hnot
  | ratify who hwho hboth =>
    rw [approvedBy_waiting] at hboth ⊢
    have happrovals := is_approved_waiting.1 hboth
    rw [ratified_waiting happrovals]
    refine .approved happrovals (.mk rfl rfl hboth (List.forall_mem_nil _)) he.steem_nonneg
      he.sbd_nonneg fun symbol => ?_
    rw [held_underway, total_cons, total_nil, add_zero, add_comm]
    rfl
  | refund hnot =>
    rw [List.append_nil]
    refine .refunded hpending ?_ ?_
    · rw [refunds, List.map_map]
      exact List.map_id _
    · intro p hp
      obtain ⟨_, -, rfl⟩ := List.mem_map.1 hp
      rfl
  | dispute happroved =>
    rw [hwaiting] at happroved
    cases happroved
  | release who receiver steem sbd hmay =>
    have happroved := hmay.approved
    rw [hwaiting] at happroved
    cases happroved

/-- The moves of an approved escrow: a dispute or a release. -/
theorem Phase.move_underway {disputed : Bool} {steem sbd : ℤ} (hboth : BothApproved e approvals)
    (hlog : Paying e log) (hsteem : 0 ≤ steem) (hsbd : 0 ≤ sbd)
    (htotal : ∀ symbol, total log symbol + held (underway e disputed steem sbd) symbol =
      held e symbol)
    (hmove : Move now (underway e disputed steem sbd) approvals' payouts r') :
    Phase e r' (approvals ++ approvals') (log ++ payouts) := by
  have happroved : (underway e disputed steem sbd).is_approved = true := rfl
  simp only [held_underway] at htotal
  cases hmove with
  | approve who hwho hnot =>
    rw [hwho.not_approved] at happroved
    cases happroved
  | ratify who hwho hboth =>
    rw [hwho.not_approved] at happroved
    cases happroved
  | refund hnot => cases hnot
  | dispute _ =>
    rw [List.append_nil, List.append_nil]
    show Phase e (some (underway e true steem sbd)) approvals log
    refine .approved hboth hlog hsteem hsbd fun symbol => ?_
    rw [held_underway]
    exact htotal symbol
  | release who receiver paidSteem paidSbd hmay hpaidSteem hpaidSbd hleSteem hleSbd =>
    have hreleases : Paying e (log ++ releases now (underway e disputed steem sbd) who receiver
        ⟨paidSteem, .STEEM⟩ ⟨paidSbd, .SBD⟩) := by
      refine hlog.append fun p hp => ?_
      rcases List.mem_pair.1 hp with rfl | rfl
      · exact ⟨who, disputed, steem, sbd, rfl, rfl, hmay⟩
      · exact ⟨who, disputed, steem, sbd, rfl, rfl, hmay⟩
    rw [List.append_nil]
    split
    · rename_i hzero
      refine .closed hboth hreleases fun symbol => ?_
      have hpaidAll : paidSteem = steem ∧ paidSbd = sbd :=
        ⟨(sub_eq_zero.1 hzero.1).symm, (sub_eq_zero.1 hzero.2).symm⟩
      rw [total_append, total_releases, hpaidAll.1, hpaidAll.2]
      exact htotal symbol
    · show Phase e (some (underway e disputed (steem - paidSteem) (sbd - paidSbd))) approvals _
      refine .approved hboth hreleases (sub_nonneg.2 hleSteem) (sub_nonneg.2 hleSbd) fun symbol => ?_
      have h := htotal symbol
      rw [total_append, total_releases, held_underway, amountOf_sub, amountOf_sub]
      omega

/-- Every move of the machine leads to a phase. -/
theorem Phase.move (he : Opened e) (h : Phase e (some r) approvals log)
    (hmove : Move now r approvals' payouts r') :
    Phase e r' (approvals ++ approvals') (log ++ payouts) := by
  cases h with
  | pending hpending => exact .move_waiting he hpending hmove
  | approved hboth hlog hsteem hsbd htotal =>
    exact .move_underway hboth hlog hsteem hsbd htotal hmove

end Machine

/-! ## What a phase says -/

/-- The account gets a payment of the escrow. -/
def Party (account : AccountName) : Prop :=
  account = e.from_account ∨ account = e.to_account ∨ account = e.agent

/-- The rules for an escrow with what is left of it, the approvals and the payments so far. -/
structure Lawful (e : Escrow) (row : Option Escrow) (approvals : List AccountName)
    (log : List Payout) : Prop where
  parties : ∀ p ∈ log, Party e p.payment.account
  bounded : ∀ symbol, total log symbol ≤ held e symbol
  settled : row = none → ∀ symbol, total log symbol = held e symbol
  /-- After both approvals the agent has been paid the fee, and once. -/
  fee : BothApproved e approvals →
    ∃ p, log.filter (fun p => p.cause = .fee) = [p] ∧ p.payment = ⟨e.agent, e.pending_fee⟩
  /-- Before that, the escrow holds everything, or everything has been given back. -/
  back : ¬ BothApproved e approvals →
    (row.isSome = true ∧ log = []) ∨ (row = none ∧ log.map Payout.payment = refundPayments e)
  release : ∀ p ∈ log, ∀ who, p.cause = .release who → BothApproved e approvals ∧
    ∃ disputed steem sbd, p.escrow = underway e disputed steem sbd ∧
      MayRelease (underway e disputed steem sbd) p.time who p.payment.account

section Lawful

variable {e : Escrow} {row : Option Escrow} {approvals : List AccountName} {log : List Payout}

theorem total_of_payments {e : Escrow} (h : log.map Payout.payment = refundPayments e)
    (symbol : Symbol) : total log symbol = held e symbol := by
  have hmap : total log symbol =
      ((log.map Payout.payment).map fun p => amountOf p.amount symbol).sum := by
    rw [List.map_map]
    rfl
  rw [hmap, h]
  simp only [refundPayments, held, List.map_cons, List.map_nil, List.sum_cons, List.sum_nil]
  omega

theorem amountOf_nonneg {a : ℤ} (h : 0 ≤ a) (symbol symbol' : Symbol) :
    0 ≤ amountOf ⟨a, symbol⟩ symbol' := by
  unfold amountOf
  split
  · exact h
  · exact le_rfl

theorem Opened.held_nonneg (he : Opened e) (symbol : Symbol) : 0 ≤ held e symbol :=
  add_nonneg (add_nonneg (amountOf_nonneg he.steem_nonneg _ _) (amountOf_nonneg he.sbd_nonneg _ _))
    (amountOf_nonneg he.fee_nonneg _ _)

theorem Paying.parties (h : Paying e log) : ∀ p ∈ log, Party e p.payment.account := by
  obtain ⟨hcause, hpayment, happroved, hrest⟩ := h
  intro p hp
  rcases List.mem_cons.1 hp with rfl | hp
  · rw [hpayment]
    exact .inr (.inr rfl)
  · obtain ⟨who, disputed, steem, sbd, -, hrow, hmay⟩ := hrest p hp
    rw [hrow] at hmay
    rcases hmay.receives with hreceiver | hreceiver
    · exact .inl hreceiver
    · exact .inr (.inl hreceiver)

theorem Paying.fee (h : Paying e log) :
    ∃ p, log.filter (fun p => p.cause = .fee) = [p] ∧ p.payment = ⟨e.agent, e.pending_fee⟩ := by
  obtain ⟨hcause, hpayment, happroved, hrest⟩ := h
  refine ⟨_, ?_, hpayment⟩
  rw [List.filter_cons, if_pos (decide_eq_true hcause), List.filter_eq_nil_iff.2]
  intro p hp
  obtain ⟨who, _, _, _, hrelease, -⟩ := hrest p hp
  rw [hrelease]
  simp

theorem Paying.release (h : Paying e log) : ∀ p ∈ log, ∀ who, p.cause = .release who →
    ∃ disputed steem sbd, p.escrow = underway e disputed steem sbd ∧
      MayRelease (underway e disputed steem sbd) p.time who p.payment.account := by
  obtain ⟨hcause, hpayment, happroved, hrest⟩ := h
  intro p hp who hwho
  rcases List.mem_cons.1 hp with rfl | hp
  · rw [hcause] at hwho
    cases hwho
  · obtain ⟨who', disputed, steem, sbd, hrelease, hrow, hmay⟩ := hrest p hp
    rw [hrelease] at hwho
    cases hwho
    exact ⟨disputed, steem, sbd, hrow, hrow ▸ hmay⟩

theorem Phase.lawful (he : Opened e) (h : Phase e row approvals log) : Lawful e row approvals log := by
  cases h with
  | pending hnot =>
    exact {
      parties := List.forall_mem_nil _
      bounded := he.held_nonneg
      settled := nofun
      fee := fun hboth => absurd hboth hnot
      back := fun _ => .inl ⟨rfl, rfl⟩
      release := List.forall_mem_nil _ }
  | refunded hnot hlog hcause =>
    refine ⟨?_, fun symbol => (total_of_payments hlog symbol).le, fun _ => total_of_payments hlog,
      fun hboth => absurd hboth hnot, fun _ => .inr ⟨rfl, hlog⟩, ?_⟩
    · intro p hp
      have hpayment : p.payment ∈ refundPayments e := hlog ▸ List.mem_map_of_mem hp
      simp only [refundPayments, List.mem_cons, List.not_mem_nil, or_false] at hpayment
      rcases hpayment with hpayment | hpayment | hpayment <;> exact .inl (by rw [hpayment])
    · intro p hp who hwho
      rw [hcause p hp] at hwho
      cases hwho
  | approved hboth hlog hsteem hsbd htotal =>
    refine ⟨hlog.parties, ?_, nofun, fun _ => hlog.fee, fun hnot => absurd hboth hnot,
      fun p hp who hwho => ⟨hboth, hlog.release p hp who hwho⟩⟩
    intro symbol
    have hheld := htotal symbol
    rw [held_underway] at hheld
    have hsteem := amountOf_nonneg hsteem .STEEM symbol
    have hsbd := amountOf_nonneg hsbd .SBD symbol
    omega
  | closed hboth hlog htotal =>
    exact ⟨hlog.parties, fun symbol => (htotal symbol).le, fun _ => htotal, fun _ => hlog.fee,
      fun hnot => absurd hboth hnot, fun p hp who hwho => ⟨hboth, hlog.release p hp who hwho⟩⟩

end Lawful

/-! ## Calls -/

/-- The place of an escrow in the table. -/
def key : AccountName ×ₗ ℕ := toLex (e.from_account, e.escrow_id)

/-- The table with the row at `k` replaced. -/
def setRow (m : OrdMap (AccountName ×ₗ ℕ) Escrow) (k : AccountName ×ₗ ℕ) :
    Option Escrow → OrdMap (AccountName ×ₗ ℕ) Escrow
  | some e => m.insert k e
  | none => m.erase k

theorem find?_setRow (m : OrdMap (AccountName ×ₗ ℕ) Escrow) (k j : AccountName ×ₗ ℕ)
    (r : Option Escrow) : (setRow m k r).find? j = if k = j then r else m.find? j := by
  cases r with
  | none => exact m.find?_erase k j
  | some e => exact m.find?_insert k j e

/-- The escrow that the operation opens. -/
def opening (o : EscrowTransfer) (id : ℕ) : Escrow where
  id
  escrow_id := o.escrow_id
  from_account := o.from_account
  to_account := o.to_account
  agent := o.agent
  ratification_deadline := o.ratification_deadline
  escrow_expiration := o.escrow_expiration
  sbd_balance := o.sbd_amount.amount
  steem_balance := o.steem_amount.amount
  pending_fee := o.fee

inductive Call where
  | escrow_transfer (o : EscrowTransfer)
  | escrow_approve (o : EscrowApprove)
  | escrow_dispute (o : EscrowDispute)
  | escrow_release (o : EscrowRelease)
  | expire_escrow_ratification
  /-- The rest of the chain leads to `t`, except for the escrows; it may use up ids. -/
  | other (t : State)

def Call.apply (s : State) : Call → Result State
  | escrow_transfer o => s.escrow_transfer o
  | escrow_approve o => s.escrow_approve o
  | escrow_dispute o => s.escrow_dispute o
  | escrow_release o => s.escrow_release o
  | expire_escrow_ratification => s.expire_escrow_ratification
  | other t => .ok { t with escrows := s.escrows, next_id := s.next_id + t.next_id }

/-- The escrows that an accepted call opens. -/
def Call.opens (s : State) : Call → List Escrow
  | escrow_transfer o => [opening o s.next_id]
  | _ => []

/-- The approvals that an accepted call gives, by the id of the escrow. -/
def Call.approves (s : State) : Call → List (ℕ × AccountName)
  | escrow_approve o =>
    if o.approve then
      (s.escrows.find? (toLex (o.from_account, o.escrow_id))).toList.map fun e => (e.id, o.who)
    else []
  | _ => []

/-- What an approval or a rejection pays. -/
def approvePayouts (s : State) (o : EscrowApprove) (e : Escrow) : List Payout :=
  if o.approve then
    if (approvedBy e o.who).is_approved then
      [⟨approvedBy e o.who, s.time, .fee, ⟨e.agent, e.pending_fee⟩⟩]
    else []
  else refunds s.time e

/-- What an accepted call pays. -/
def Call.payouts (s : State) : Call → List Payout
  | escrow_approve o =>
    (s.escrows.find? (toLex (o.from_account, o.escrow_id))).elim [] (approvePayouts s o)
  | escrow_release o =>
    (s.escrows.find? (toLex (o.from_account, o.escrow_id))).elim [] fun e =>
      releases s.time e o.who o.receiver o.steem_amount o.sbd_amount
  | expire_escrow_ratification => s.expiredEscrows.flatMap (refunds s.time)
  | _ => []

/-- The call is one of the escrows' own. -/
def Call.own : Call → Bool
  | other _ => false
  | _ => true

/-- Every payment of a call: the deposits and the payments out of escrows. -/
def Call.payments (s : State) (c : Call) : List Payment :=
  (c.opens s).flatMap deposit ++ (c.payouts s).map Payout.payment

/-- `s'` is `s` after the payments, but for the tables. -/
def Pays (s s' : State) (payments : List Payment) : Prop :=
  ∃ t, s.pay payments = .ok t ∧ s' = t.withTables s'

/-- A move of the escrow `e` in the table. -/
structure Moves (s s' : State) (e : Escrow) (approvals : List AccountName)
    (payouts : List Payout) : Prop where
  row : s.escrows.find? (key e) = some e
  edit : ∃ r, Move s.time e approvals payouts r ∧ s'.escrows = setRow s.escrows (key e) r
  next_id : s'.next_id = s.next_id
  pays : Pays s s' (payouts.map Payout.payment)

/-- Every escrow is under its key. -/
def Keyed (m : OrdMap (AccountName ×ₗ ℕ) Escrow) : Prop := ∀ k e, m.find? k = some e → key e = k

section Calls

variable {s s' t : State} {e : Escrow}

theorem Pays.append {u : State} {l l' : List Payment} (h : Pays s t l) (h' : Pays t u l') :
    Pays s u (l ++ l') := by
  obtain ⟨a, ha, ht⟩ := h
  obtain ⟨b, hb, hu⟩ := h'
  rw [ht] at hb
  obtain ⟨c, hc, rfl⟩ := pay_eq_ok_of_withTables hb
  refine ⟨c, ?_, hu⟩
  rw [pay_append]
  exact bind_ok.2 ⟨a, ha, hc⟩

theorem refundEscrow_eq (s : State) (e : Escrow) :
    s.refundEscrow e.from_account e = s.pay (refundPayments e) := by
  simp only [State.refundEscrow, refundPayments, State.pay]
  refine bind_congr fun s1 => bind_congr fun s2 => ?_
  exact (bind_pure _).symm

theorem find_of_get_escrow {x : AccountName} {id : ℕ} (h : s.get_escrow x id = .ok e) :
    s.escrows.find? (toLex (x, id)) = some e := by
  unfold State.get_escrow at h
  split at h
  · rename_i hrow
    cases h
    exact hrow
  · cases h

/-- An accepted transfer opens an escrow and pays for it. -/
structure Opens (s s' : State) (e : Escrow) : Prop where
  opened : Opened e
  id : e.id = s.next_id
  fresh : s.escrows.find? (key e) = none
  edit : s'.escrows = s.escrows.insert (key e) e
  next_id : s'.next_id = s.next_id + 1
  pays : Pays s s' (deposit e)

theorem deposit_opening {o : EscrowTransfer} (hfee : o.fee.symbol = .STEEM ∨ o.fee.symbol = .SBD)
    (id : ℕ) :
    deposit (opening o id) =
      [⟨o.from_account,
        ⟨-(o.steem_amount.amount + if o.fee.symbol = .STEEM then o.fee.amount else 0), .STEEM⟩⟩,
      ⟨o.from_account,
        ⟨-(o.sbd_amount.amount + if o.fee.symbol = .STEEM then 0 else o.fee.amount), .SBD⟩⟩] := by
  rcases hfee with hfee | hfee
  · simp [deposit, opening, held, amountOf, hfee]
  · simp [deposit, opening, held, amountOf, hfee]

theorem opens_of_escrow_transfer {o : EscrowTransfer} (h : s.escrow_transfer o = .ok s') :
    Opens s s' (opening o s.next_id) := by
  simp only [State.escrow_transfer, bind_ok, exists_check_eq_ok] at h
  obtain ⟨hnonneg, -, hthird, hsymbols, -, _, -, _, -, _, -, -, -, -, -, s1, h1, s2, h2, hfresh,
    h⟩ := h
  cases h
  obtain ⟨hfee, hsbd, hsteem⟩ := of_decide_eq_true hnonneg
  have hpay : s.pay (deposit (opening o s.next_id)) = .ok s2 := by
    rw [deposit_opening (of_decide_eq_true hsymbols).1]
    exact bind_ok.2 ⟨s1, h1, bind_ok.2 ⟨s2, h2, rfl⟩⟩
  have hescrows := escrows_pay hpay
  have hnext : s2.next_id = s.next_id := next_id_pay hpay
  refine ⟨⟨rfl, rfl, rfl, (of_decide_eq_true hthird).2, hsteem, hsbd, hfee⟩, rfl, ?_, ?_, ?_,
    s2, hpay, rfl⟩
  · rw [← hescrows]
    simpa [OrdMap.contains, key, opening] using hfresh
  · rw [← hescrows, ← hnext]
    rfl
  · rw [← hnext]

theorem Moves.of_edit {approvals : List AccountName} {payouts : List Payout} {r : Option Escrow}
    (hrow : s.escrows.find? (key e) = some e) (hmove : Move s.time e approvals payouts r)
    (hpay : s.pay (payouts.map Payout.payment) = .ok t)
    (hs' : s' = { t with escrows := setRow t.escrows (key e) r }) : Moves s s' e approvals payouts := by
  have hescrows := escrows_pay hpay
  have hnext := next_id_pay hpay
  subst hs'
  refine ⟨hrow, ⟨r, hmove, ?_⟩, hnext, t, hpay, rfl⟩
  rw [← hescrows]

theorem moves_of_escrow_dispute (hs : Keyed s.escrows) {o : EscrowDispute}
    (h : s.escrow_dispute o = .ok s') : ∃ e, Moves s s' e [] [] := by
  simp only [State.escrow_dispute, bind_ok, exists_check_eq_ok] at h
  obtain ⟨_, -, e, he, -, happroved, -, -, -, h⟩ := h
  cases h
  have hrow := find_of_get_escrow he
  rw [← hs _ e hrow] at hrow
  exact ⟨e, .of_edit hrow (.dispute happroved) (t := s) rfl rfl⟩

theorem mayRelease_of_eq_true {o : EscrowRelease} (happroved : e.is_approved = true)
    (hreceiver : o.receiver = e.from_account ∨ o.receiver = e.to_account)
    (h : s.mayRelease e o = true) : MayRelease e s.time o.who o.receiver := by
  unfold State.mayRelease at h
  split at h
  · rename_i hdisputed
    exact ⟨happroved, hreceiver, fun _ => of_decide_eq_true h, by simp [hdisputed],
      by simp [hdisputed], by simp [hdisputed]⟩
  · rename_i hdisputed
    simp only [Bool.and_eq_true, Bool.or_eq_true, decide_eq_true_eq] at h
    obtain ⟨hparty, hreceives⟩ := h
    refine ⟨happroved, hreceiver, fun h => absurd h hdisputed, fun _ => hparty, ?_, ?_⟩
    · intro _ hnow hwho
      rcases hreceives with hlate | hreceives
      · omega
      · simpa [hwho] using hreceives
    · intro _ hnow hwho
      rcases hreceives with hlate | hreceives
      · omega
      · split at hreceives
        · rename_i hsame
          rw [of_decide_eq_true hreceives, ← hwho, hsame]
        · exact of_decide_eq_true hreceives

theorem moves_of_escrow_release (hs : Keyed s.escrows) {o : EscrowRelease}
    (h : s.escrow_release o = .ok s') :
    ∃ e, Moves s s' e [] ((Call.escrow_release o).payouts s) := by
  obtain ⟨hnonneg, h⟩ := check_decide_ok.1 h
  replace h := ok_of_check h
  obtain ⟨hsymbols, h⟩ := check_decide_ok.1 h
  obtain ⟨_, -, h⟩ := bind_ok.1 h
  obtain ⟨_, -, h⟩ := bind_ok.1 h
  obtain ⟨e, he, h⟩ := bind_ok.1 h
  obtain ⟨hsteem, h⟩ := check_decide_ok.1 h
  obtain ⟨hsbd, h⟩ := check_decide_ok.1 h
  replace h := ok_of_check h
  replace h := ok_of_check h
  obtain ⟨hreceiver, h⟩ := check_decide_ok.1 h
  obtain ⟨happroved, h⟩ := check_bind_ok.1 h
  obtain ⟨hmay, h⟩ := check_bind_ok.1 h
  obtain ⟨s1, h1, h⟩ := bind_ok.1 h
  obtain ⟨s2, h2, h⟩ := bind_ok.1 h
  have hrow := find_of_get_escrow he
  have hkey := hs _ e hrow
  obtain ⟨hsbd0, hsteem0⟩ := hnonneg
  obtain ⟨hsbdSymbol, hsteemSymbol⟩ := hsymbols
  have hpayouts : (Call.escrow_release o).payouts s =
      releases s.time e o.who o.receiver ⟨o.steem_amount.amount, .STEEM⟩ ⟨o.sbd_amount.amount, .SBD⟩ := by
    rw [← hsteemSymbol, ← hsbdSymbol]
    simp only [Call.payouts, hrow, Option.elim_some]
  have hpay : s.pay ((releases s.time e o.who o.receiver ⟨o.steem_amount.amount, .STEEM⟩
      ⟨o.sbd_amount.amount, .SBD⟩).map Payout.payment) = .ok s2 := by
    rw [← hsteemSymbol, ← hsbdSymbol]
    exact bind_ok.2 ⟨s1, h1, bind_ok.2 ⟨s2, h2, rfl⟩⟩
  have hmay := mayRelease_of_eq_true happroved hreceiver hmay
  have hmove := Move.release o.who o.receiver o.steem_amount.amount o.sbd_amount.amount hmay hsteem0
    hsbd0 hsteem hsbd
  rw [hpayouts]
  refine ⟨e, .of_edit (hkey ▸ hrow) hmove hpay ?_⟩
  dsimp only at h
  split_ifs at h with hzero
  · cases h
    rw [if_pos hzero]
    rfl
  · cases h
    rw [if_neg hzero]
    rfl

/-- The two flags of `escrow_approve`. -/
theorem approvedBy_eq (e : Escrow) (o : EscrowApprove) (hto : e.to_account = o.to_account)
    (hagent : e.agent = o.agent) {e1 : Escrow}
    (h1 : e1 = if o.who = o.to_account then { e with to_approved := true } else e) :
    (if o.who = o.agent then { e1 with agent_approved := true } else e1) = approvedBy e o.who := by
  subst h1
  rw [← hto, ← hagent]
  unfold approvedBy
  split_ifs with hwhoAgent hwhoTo hwhoTo
  · simp only [decide_eq_true hwhoAgent, decide_eq_true hwhoTo, Bool.or_true]
  · simp only [decide_eq_true hwhoAgent, decide_eq_false hwhoTo, Bool.or_true, Bool.or_false]
  · simp only [decide_eq_false hwhoAgent, decide_eq_true hwhoTo, Bool.or_true, Bool.or_false]
  · simp only [decide_eq_false hwhoAgent, decide_eq_false hwhoTo, Bool.or_false]

theorem moves_of_escrow_approve (hs : Keyed s.escrows) {o : EscrowApprove}
    (h : s.escrow_approve o = .ok s') :
    ∃ e approvals, Moves s s' e approvals ((Call.escrow_approve o).payouts s) ∧
      (Call.escrow_approve o).approves s = approvals.map fun who => (e.id, who) := by
  simp only [State.escrow_approve, bind_ok, exists_check_eq_ok] at h
  obtain ⟨hparty, e, he, hto, hagent, -, htoOnce, hagentOnce, h⟩ := h
  have hrow := find_of_get_escrow he
  have hkey := hs _ e hrow
  have hto := of_decide_eq_true hto
  have hagent := of_decide_eq_true hagent
  have hfrom : e.from_account = o.from_account := congrArg Prod.fst (toLex.injective hkey)
  have hflag : (if o.who = o.to_account ∧ o.approve = true then { e with to_approved := true }
      else e).agent_approved = e.agent_approved := by
    split <;> rfl
  rw [hflag] at hagentOnce
  have hawaits : Awaits e o.who := by
    rw [← hto, ← hagent] at hparty
    exact ⟨of_decide_eq_true hparty, fun hwho => by simpa [hwho, hto] using htoOnce,
      fun hwho => by simpa [hwho, hagent] using hagentOnce⟩
  have hpayouts : (Call.escrow_approve o).payouts s = approvePayouts s o e := by
    simp only [Call.payouts, hrow, Option.elim_some]
  have happroves : (Call.escrow_approve o).approves s =
      (if o.approve then [o.who] else []).map fun who => (e.id, who) := by
    simp only [Call.approves, hrow]
    split <;> rfl
  rw [hpayouts, happroves]
  refine ⟨e, _, ?_, rfl⟩
  rw [← hkey] at hrow
  unfold approvePayouts
  cases happrove : o.approve with
  | false =>
    simp only [happrove, Bool.false_eq_true, if_false, and_false] at h ⊢
    obtain ⟨t, ht, h⟩ := bind_ok.1 h
    cases h
    rw [← hfrom, refundEscrow_eq] at ht
    refine .of_edit hrow (.refund hawaits.not_approved) (t := t) ?_ rfl
    rw [refunds, List.map_map]
    exact (congrArg s.pay (List.map_id _)).trans ht
  | true =>
    simp only [happrove, and_true, if_true] at h ⊢
    rw [approvedBy_eq e o hto hagent rfl] at h
    split at h
    · rename_i hboth
      obtain ⟨t, ht, h⟩ := bind_ok.1 h
      cases h
      rw [if_pos hboth]
      refine .of_edit hrow (.ratify o.who hawaits hboth) (t := t) ?_ rfl
      rw [hagent]
      exact (pay_singleton _ _).trans ht
    · rename_i hnot
      cases h
      rw [if_neg hnot]
      exact .of_edit hrow (.approve o.who hawaits (Bool.not_eq_true _ ▸ hnot)) (t := s) rfl rfl

end Calls

/-! ## The loop over escrows that are not ratified -/

inductive GivenBack : State → List Escrow → State → Prop
  | nil (s : State) : GivenBack s [] s
  | cons {s t s' : State} {e : Escrow} {es : List Escrow}
      (h : Moves s t e [] (refunds s.time e)) (htime : t.time = s.time) (hrest : GivenBack t es s') :
      GivenBack s (e :: es) s'

section Expiry

variable {s s' t : State} {es : List Escrow}

theorem givenBack_of_refundEscrows (hrows : ∀ e ∈ es, s.escrows.find? (key e) = some e)
    (hnot : ∀ e ∈ es, e.is_approved = false)
    (hnodup : (es.map key).Nodup) (h : State.refundEscrows es s = .ok s') : GivenBack s es s' := by
  induction es generalizing s with
  | nil =>
    cases h
    exact .nil _
  | cons e es ih =>
    obtain ⟨t, ht, h⟩ := bind_ok.1 h
    rw [refundEscrow_eq] at ht
    have hpay : s.pay ((refunds s.time e).map Payout.payment) = .ok t := by
      rw [refunds, List.map_map]
      exact (congrArg s.pay (List.map_id _)).trans ht
    obtain ⟨hfirst, hnodup⟩ := List.nodup_cons.1 hnodup
    have hescrows := escrows_pay ht
    have hmoves : Moves s (t.removeEscrow e) e [] (refunds s.time e) :=
      .of_edit (hrows e List.mem_cons_self) (.refund (hnot e List.mem_cons_self)) hpay rfl
    have htime : (t.removeEscrow e).time = s.time := (moved_pay ht).time
    refine .cons hmoves htime (ih ?_ (fun x hx => hnot x (List.mem_cons_of_mem _ hx)) hnodup h)
    intro x hx
    have hne : key e ≠ key x := fun heq => hfirst (heq ▸ List.mem_map_of_mem hx)
    show (setRow t.escrows (key e) none).find? (key x) = some x
    rw [find?_setRow, if_neg hne, hescrows]
    exact hrows x (List.mem_cons_of_mem _ hx)

theorem givenBack_of_expire (hs : Keyed s.escrows) (h : s.expire_escrow_ratification = .ok s') :
    GivenBack s s.expiredEscrows s' := by
  have hmem : ∀ e ∈ s.expiredEscrows, s.escrows.find? (key e) = some e ∧
      (!e.is_approved && decide (e.ratification_deadline ≤ s.time)) = true :=
    fun e he => (OrdMap.mem_index hs).1 he
  refine givenBack_of_refundEscrows (fun e he => (hmem e he).1) (fun e he => ?_)
    (OrdMap.nodup_index hs) h
  have hnot := (hmem e he).2
  rw [Bool.and_eq_true, Bool.not_eq_true'] at hnot
  exact hnot.1

theorem GivenBack.pays (h : GivenBack s es s') :
    Pays s s' ((es.flatMap (refunds s.time)).map Payout.payment) := by
  induction h with
  | nil s => exact ⟨s, rfl, rfl⟩
  | cons h htime _ ih =>
    rw [List.flatMap_cons, List.map_append]
    rw [htime] at ih
    exact h.pays.append ih

end Expiry

end Calibrd.Chain.Escrows
