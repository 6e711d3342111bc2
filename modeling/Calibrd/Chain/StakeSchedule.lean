import Calibrd.Chain.StakeTally
import Calibrd.Chain.VirtualTime

/-!
# Stake and schedule together

The votes of a witness are kept in two models: as the tally of the stake behind them
(`Vesting`), and in the witness table that virtual time is computed from (`Schedule`). Here both run
side by side. An operation or a maintenance step is a call of the first and the writes that it makes
to the table of the second; after each of them the two agree on the votes, on the total of shares
and on the last hardfork.

The tally is a sum of shares, so no witness has a negative number of votes when virtual time moves
on, and every witness is on its lap in every state (`virtual_schedule`).
-/

namespace Calibrd.Chain.StakeSchedule

open Calibrd.Lib
open Calibrd.Chain.Schedule (Write Clock OnTime Witness Adjusted applyWrites
  VIRTUAL_SCHEDULE_LAP_LENGTH2)

structure State where
  stake : Vesting.State
  schedule : Schedule.State

inductive StepError where
  | stake (e : Vesting.VestingError)
  | schedule (e : Schedule.Error)
  | overflow
  | disagreement
deriving DecidableEq, Repr

/-- The two models hold the same votes, shares and hardfork, and the shares have 64 bits. -/
def State.agrees (s : State) : Bool :=
  s.schedule.clocks.map Clock.votes ==
      (List.range s.stake.base.num_witnesses).map s.stake.base.votes &&
    s.schedule.total_vesting_shares == s.stake.base.total_vesting_shares &&
    s.schedule.last_hardfork == s.stake.base.last_hardfork &&
    decide (s.stake.base.total_vesting_shares < 2 ^ 63)

inductive Step where
  /-- An operation or a maintenance step, with what it writes to the witness table. -/
  | operation (c : Vesting.Call) (writes : List Write)
  /-- A part of block application that changes no votes. -/
  | block (c : Schedule.Call)

def Step.apply (s : State) : Step → Except StepError State
  | operation c writes => do
    check (writes.all Write.fits) .overflow
    let stake ← withError .stake (c.apply s.stake)
    let schedule ← withError .schedule (applyWrites s.schedule writes)
    check (State.agrees ⟨stake, schedule⟩) .disagreement
    .ok ⟨stake, schedule⟩
  | block c => do
    check c.fits .overflow
    let schedule ← withError .schedule (c.apply s.schedule)
    check (State.agrees ⟨s.stake, schedule⟩) .disagreement
    .ok ⟨s.stake, schedule⟩

def genesis (accounts : List AccountName) (init_miner : AccountName) (init_key : PublicKey) :
    State where
  stake := Vesting.genesis
  schedule := Schedule.genesis accounts init_miner init_key

def run (s : State) (steps : List Step) : State := runCalls Step.apply s steps

variable {s s' : State}

structure Inv (s : State) : Prop where
  balanced : s.stake.base.Balanced
  onTime : OnTime s.schedule
  agrees : s.agrees = true

theorem State.votes_mem (h : s.agrees = true) {k : Clock} (hk : k ∈ s.schedule.clocks) :
    ∃ w, k.votes = s.stake.base.votes w := by
  simp only [State.agrees, Bool.and_eq_true, beq_iff_eq] at h
  have hmem : k.votes ∈ (List.range s.stake.base.num_witnesses).map s.stake.base.votes :=
    h.1.1.1 ▸ List.mem_map_of_mem hk
  obtain ⟨w, -, hw⟩ := List.mem_map.1 hmem
  exact ⟨w, hw.symm⟩

/-- The votes in the table are those of the tally, which is not negative. -/
theorem Inv.settled (h : Inv s) (hfork : 4 ≤ s.schedule.last_hardfork) :
    ∀ k ∈ s.schedule.clocks, 0 ≤ k.votes := by
  intro k hk
  obtain ⟨w, hw⟩ := State.votes_mem h.agrees hk
  have hsame : s.schedule.last_hardfork = s.stake.base.last_hardfork := by
    have hagrees := h.agrees
    simp only [State.agrees, Bool.and_eq_true, beq_iff_eq] at hagrees
    exact hagrees.1.2
  rw [hw]
  exact h.balanced.votes_nonneg (by omega) w

theorem Inv.step {c : Step} (h : Inv s) (hs : c.apply s = .ok s') : Inv s' := by
  cases c with
  | operation c writes =>
    obtain ⟨hfits, hs⟩ := check_bind_ok.1 hs
    obtain ⟨stake, hstake, hs⟩ := bind_ok.1 hs
    obtain ⟨schedule, hschedule, hs⟩ := bind_ok.1 hs
    obtain ⟨hagrees, hs⟩ := check_bind_ok.1 hs
    cases hs
    exact ⟨(Vesting.Call.stakeEffect (withError_eq_ok.1 hstake)).balanced h.balanced,
      h.onTime.applyWrites hfits (withError_eq_ok.1 hschedule), hagrees⟩
  | block c =>
    obtain ⟨hfits, hs⟩ := check_bind_ok.1 hs
    obtain ⟨schedule, hschedule, hs⟩ := bind_ok.1 hs
    obtain ⟨hagrees, hs⟩ := check_bind_ok.1 hs
    cases hs
    exact ⟨h.balanced, h.onTime.call hfits h.settled (withError_eq_ok.1 hschedule), hagrees⟩

theorem genesis_inv (accounts : List AccountName) (init_miner : AccountName)
    (init_key : PublicKey) : Inv (genesis accounts init_miner init_key) :=
  ⟨Vesting.genesis_balanced, Schedule.genesis_onTime accounts init_miner init_key, rfl⟩

theorem run_inv (accounts : List AccountName) (init_miner : AccountName) (init_key : PublicKey)
    (steps : List Step) : Inv (run (genesis accounts init_miner init_key) steps) :=
  runCalls_rule_all (fun h hs => h.step hs) (genesis_inv accounts init_miner init_key) steps

/-- A witness was updated before now and is due from now on, and its votes have not carried it beyond
the end of its lap. -/
structure InTime (s : Schedule.State) (w : Witness) : Prop where
  last_update_le : w.virtual_last_update ≤ s.wso.current_virtual_time
  le_scheduled_time : s.wso.current_virtual_time ≤ w.virtual_scheduled_time
  position_le : w.virtual_position.toNat + w.votes.toNat *
      (s.wso.current_virtual_time.toNat - w.virtual_last_update.toNat) ≤
    VIRTUAL_SCHEDULE_LAP_LENGTH2.toNat

theorem inTime_of_onTime {s : Schedule.State} (h : OnTime s) (hfork : 4 ≤ s.last_hardfork)
    {w : Witness} (hw : w ∈ s.witnesses) : InTime s w := by
  have htime := h.times hfork w.clock (List.mem_map_of_mem hw)
  exact ⟨htime.last_le, htime.le_scheduled, htime.position_le⟩

/-- The first four hardforks, shares for the init miner and its vote for itself, a round of the
schedule, and the vote taken back. -/
def firstVote : List Step :=
  List.replicate 4 (.operation .apply_hardfork [.apply_hardfork 1 []]) ++
    [.operation (.create_vesting 3 1000) [.total_vesting_shares 1000000],
      .operation (.account_witness_vote 3 0 true) [.adjust_witness_vote 0 1000000],
      .block .update_witness_schedule,
      .operation (.account_witness_vote 3 0 false) [.adjust_witness_vote 0 (-1000000)]]

end Calibrd.Chain.StakeSchedule
