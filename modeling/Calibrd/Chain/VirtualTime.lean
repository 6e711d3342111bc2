import Calibrd.Lib.Laps
import Calibrd.Chain.ScheduleRounds

/-!
# Virtual time

From hardfork 4 on every witness is on its lap: it was updated before now and is due from now on,
and until it is due its votes do not carry it beyond the end of the lap (`Clock.OnTime`). So
`adjust_witness_vote` computes what the numbers say (`Adjusted`); only the time at which a witness
is due may not fit, and that is detected.

Inside of an operation the votes of a witness may be below zero for a moment. Nothing is lost then,
since virtual time stands still (`OnTime.write`); only `update_witness_schedule4` needs votes that
are not negative (`OnTime.update_witness_schedule4`).
-/

namespace Calibrd.Chain.Schedule

open Calibrd.Lib

/-- What the place of a witness in virtual time depends on. -/
structure Clock where
  votes : ℤ
  last : BitVec 128
  position : BitVec 128
  scheduled : BitVec 128

def Witness.clock (w : Witness) : Clock where
  votes := w.votes
  last := w.virtual_last_update
  position := w.virtual_position
  scheduled := w.virtual_scheduled_time

/-! ## One witness -/

namespace Clock

variable {now time : BitVec 128} {k k' : Clock}

/-- The clock of a witness at `now`. -/
structure OnTime (now : BitVec 128) (k : Clock) : Prop where
  last_le : k.last ≤ now
  le_scheduled : now ≤ k.scheduled
  lap : 0 ≤ k.votes → k.position.toNat + k.votes.toNat * (k.scheduled.toNat - k.last.toNat) ≤
    VIRTUAL_SCHEDULE_LAP_LENGTH2.toNat
  unsettled : k.votes < 0 → k.last = now

theorem toNat_lap_length2 : VIRTUAL_SCHEDULE_LAP_LENGTH2.toNat = 2 ^ 128 - 1 := by decide

theorem le_lap_length2 (position : BitVec 128) : position ≤ VIRTUAL_SCHEDULE_LAP_LENGTH2 := by
  have hlt := position.isLt
  rw [BitVec.le_def, toNat_lap_length2]
  omega

theorem zero_le (time : BitVec 128) : 0 ≤ time := by
  rw [BitVec.le_def]
  exact Nat.zero_le _

/-- Where the witness is now. -/
theorem OnTime.position_le (h : k.OnTime now) :
    k.position.toNat + k.votes.toNat * (now.toNat - k.last.toNat) ≤
      VIRTUAL_SCHEDULE_LAP_LENGTH2.toNat := by
  obtain hneg | hpos := lt_or_ge k.votes 0
  · have hposition := k.position.isLt
    rw [Int.toNat_of_nonpos hneg.le, zero_mul, toNat_lap_length2]
    omega
  · have hdue : now.toNat ≤ k.scheduled.toNat := h.le_scheduled
    refine le_trans ?_ (h.lap hpos)
    exact Nat.add_le_add_left (Nat.mul_le_mul_left _ (Nat.sub_le_sub_right hdue _)) _

theorem OnTime.toNat_elapsed (h : k.OnTime now) :
    (now - k.last).toNat = now.toNat - k.last.toNat :=
  BitVec.toNat_sub_of_le h.last_le

theorem OnTime.toNat_product (h : k.OnTime now) (hvotes : k.votes < 2 ^ 63) :
    (BitVec.ofInt 128 k.votes * (now - k.last)).toNat =
      k.votes.toNat * (now.toNat - k.last.toNat) := by
  obtain hneg | hpos := lt_or_ge k.votes 0
  · have hstill := h.unsettled hneg
    rw [hstill, BitVec.sub_self, BitVec.mul_zero, Nat.sub_self, mul_zero]
    rfl
  · have hle := h.position_le
    have hint : (BitVec.ofInt 128 k.votes).toNat = k.votes.toNat :=
      toNat_ofInt_of_lt hpos (hvotes.trans (by decide))
    rw [toNat_lap_length2] at hle
    rw [BitVec.toNat_mul, hint, h.toNat_elapsed, Nat.mod_eq_of_lt (by omega)]

theorem OnTime.toNat_position (h : k.OnTime now) (hvotes : k.votes < 2 ^ 63) :
    (k.position + BitVec.ofInt 128 k.votes * (now - k.last)).toNat =
      k.position.toNat + k.votes.toNat * (now.toNat - k.last.toNat) := by
  have hle := h.position_le
  rw [toNat_lap_length2] at hle
  rw [BitVec.toNat_add, h.toNat_product hvotes, Nat.mod_eq_of_lt (by omega)]

/-- What is left of the lap, divided by one more than the votes. -/
theorem toNat_rest {position : BitVec 128} {votes : ℤ} (hpos : 0 ≤ votes) (hvotes : votes < 2 ^ 63) :
    ((VIRTUAL_SCHEDULE_LAP_LENGTH2 - position) / BitVec.ofInt 128 (votes + 1)).toNat =
      (VIRTUAL_SCHEDULE_LAP_LENGTH2.toNat - position.toNat) / (votes.toNat + 1) := by
  have hle := le_lap_length2 position
  have hint : (BitVec.ofInt 128 (votes + 1)).toNat = votes.toNat + 1 := by
    rw [toNat_ofInt_of_lt (by omega) (by omega)]
    omega
  rw [BitVec.toNat_udiv, BitVec.toNat_sub_of_le hle, hint]

/-- A witness that is due when the rest of its lap is shared out. -/
theorem OnTime.of_due {votes : ℤ} {position scheduled : BitVec 128} (hvotes : votes < 2 ^ 63)
    (hdue : scheduled.toNat ≤ now.toNat + ((VIRTUAL_SCHEDULE_LAP_LENGTH2 - position) /
      BitVec.ofInt 128 (votes + 1)).toNat) (hle : now ≤ scheduled) :
    OnTime now ⟨votes, now, position, scheduled⟩ where
  last_le := BitVec.le_refl now
  le_scheduled := hle
  lap hpos := by
    have hpos : 0 ≤ votes := hpos
    rw [toNat_rest hpos hvotes] at hdue
    exact lap_le (le_lap_length2 position) (Nat.sub_le_iff_le_add'.2 hdue)
  unsettled _ := rfl

/-- The clock of a witness that starts its next lap at `time`. -/
def advanced (time : BitVec 128) (k : Clock) : Clock :=
  { k with
    last := time
    position := 0
    scheduled := time + VIRTUAL_SCHEDULE_LAP_LENGTH2 / BitVec.ofInt 128 (k.votes + 1) }

theorem OnTime.advanced (hvotes : k.votes < 2 ^ 63) (h : ¬(k.advanced time).scheduled < time) :
    (k.advanced time).OnTime time := by
  have hsum := toNat_add_of_not_lt h
  refine .of_due hvotes ?_ (BitVec.not_lt.1 h)
  have hlap : VIRTUAL_SCHEDULE_LAP_LENGTH2 - 0 = VIRTUAL_SCHEDULE_LAP_LENGTH2 := BitVec.sub_zero _
  rw [hlap]
  exact hsum.le

end Clock

/-! ## One adjustment -/

/-- `adjust_witness_vote` computes without wrapping around. The sum for the time at which the
witness is due is cut off at the largest number there is. -/
structure Adjusted (now : BitVec 128) (w w' : Witness) : Prop where
  elapsed : (now - w.virtual_last_update).toNat = now.toNat - w.virtual_last_update.toNat
  product : (BitVec.ofInt 128 w.votes * (now - w.virtual_last_update)).toNat =
    w.votes.toNat * (now.toNat - w.virtual_last_update.toNat)
  position : w'.virtual_position.toNat =
    w.virtual_position.toNat + w.votes.toNat * (now.toNat - w.virtual_last_update.toNat)
  rest : (VIRTUAL_SCHEDULE_LAP_LENGTH2 - w'.virtual_position).toNat =
    VIRTUAL_SCHEDULE_LAP_LENGTH2.toNat - w'.virtual_position.toNat
  scheduled : w'.virtual_scheduled_time.toNat =
    min (now.toNat + ((VIRTUAL_SCHEDULE_LAP_LENGTH2 - w'.virtual_position) /
      BitVec.ofInt 128 (w'.votes + 1)).toNat) (2 ^ 128 - 1)

variable {s s' : State}

variable {props : ChainProperties} {delta : ℤ} {time : BitVec 128}

theorem Witness.adjust_eq {w w' : Witness} (hfork : 4 ≤ s.last_hardfork)
    (h : w.adjust s delta = .ok w') :
    w.votes + delta ≤ s.total_vesting_shares ∧
      w' = { w with
        votes := w.votes + delta
        virtual_last_update := s.wso.current_virtual_time
        virtual_position := w'.virtual_position
        virtual_scheduled_time := w'.virtual_scheduled_time } ∧
      w'.virtual_position = w.virtual_position +
        BitVec.ofInt 128 w.votes * (s.wso.current_virtual_time - w.virtual_last_update) ∧
      w'.virtual_scheduled_time =
        if s.wso.current_virtual_time + (VIRTUAL_SCHEDULE_LAP_LENGTH2 - w'.virtual_position) /
          BitVec.ofInt 128 (w'.votes + 1) < s.wso.current_virtual_time then BitVec.allOnes 128
        else s.wso.current_virtual_time + (VIRTUAL_SCHEDULE_LAP_LENGTH2 - w'.virtual_position) /
          BitVec.ofInt 128 (w'.votes + 1) := by
  obtain ⟨hle, h⟩ := check_decide_ok.1 h
  obtain ⟨rest, hrest, h⟩ := bind_ok.1 h
  have hrest := Except.ok.inj (check_bind_ok.1 hrest).2
  have htwo : s.has_hardfork 2 = true := decide_eq_true (by omega)
  have hfour : s.has_hardfork 4 = true := decide_eq_true hfork
  rw [htwo, if_pos rfl] at hrest
  cases h
  refine ⟨hle, rfl, rfl, ?_⟩
  simp only [hfour, Bool.true_and, decide_eq_true_eq, ← hrest]

theorem Witness.adjusted {w w' : Witness} (hfork : 4 ≤ s.last_hardfork)
    (hw : w.clock.OnTime s.wso.current_virtual_time) (hvotes : w.votes < 2 ^ 63)
    (h : w.adjust s delta = .ok w') : Adjusted s.wso.current_virtual_time w w' := by
  obtain ⟨-, -, hposition, hscheduled⟩ := Witness.adjust_eq hfork h
  refine ⟨hw.toNat_elapsed, hw.toNat_product hvotes, ?_, ?_, ?_⟩
  · rw [hposition]
    exact hw.toNat_position hvotes
  · exact BitVec.toNat_sub_of_le (Clock.le_lap_length2 _)
  · rw [hscheduled]
    exact toNat_saturated _ _

theorem Clock.OnTime.adjust {w w' : Witness} (hfork : 4 ≤ s.last_hardfork)
    (htotal : s.total_vesting_shares < 2 ^ 63) (h : w.adjust s delta = .ok w') :
    w'.clock.OnTime s.wso.current_virtual_time := by
  obtain ⟨hle, hw', -, hscheduled⟩ := Witness.adjust_eq hfork h
  have hsum := congrArg BitVec.toNat hscheduled
  rw [toNat_saturated] at hsum
  have hnow := s.wso.current_virtual_time.isLt
  have hvotes : w'.votes = w.votes + delta := by rw [hw']
  have hlast : w'.virtual_last_update = s.wso.current_virtual_time := by rw [hw']
  have hdue : Clock.OnTime s.wso.current_virtual_time ⟨w'.votes, s.wso.current_virtual_time,
      w'.virtual_position, w'.virtual_scheduled_time⟩ :=
    .of_due (by omega) (by omega) (by rw [BitVec.le_def]; omega)
  rw [Witness.clock, hlast]
  exact hdue

/-! ## All witnesses -/

def State.clocks (s : State) : List Clock := s.witnesses.map Witness.clock

/-- Amounts have 64 bits, and from hardfork 4 on every witness is on its lap. -/
structure OnTime (s : State) : Prop where
  total_lt : s.total_vesting_shares < 2 ^ 63
  votes_lt : ∀ k ∈ s.clocks, k.votes < 2 ^ 63
  times : 4 ≤ s.last_hardfork → ∀ k ∈ s.clocks, k.OnTime s.wso.current_virtual_time

structure SameClocks (s s' : State) : Prop where
  clocks : s'.clocks = s.clocks
  now : s'.wso.current_virtual_time = s.wso.current_virtual_time
  total : s'.total_vesting_shares = s.total_vesting_shares
  last_hardfork : s'.last_hardfork = s.last_hardfork

theorem OnTime.same (hs : OnTime s) (h : SameClocks s s') : OnTime s' where
  total_lt := h.total.symm ▸ hs.total_lt
  votes_lt := h.clocks.symm ▸ hs.votes_lt
  times hfork := by
    rw [h.clocks, h.now]
    exact hs.times (h.last_hardfork ▸ hfork)

theorem SameClocks.refl (s : State) : SameClocks s s := ⟨rfl, rfl, rfl, rfl⟩

theorem SameClocks.trans {s'' : State} (h : SameClocks s s') (h' : SameClocks s' s'') :
    SameClocks s s'' :=
  ⟨h'.clocks.trans h.clocks, h'.now.trans h.now, h'.total.trans h.total,
    h'.last_hardfork.trans h.last_hardfork⟩

theorem getElem?_clocks (s : State) (i : WitnessId) :
    s.clocks[i]? = s.witnesses[i]?.map Witness.clock := List.getElem?_map

theorem getElem?_clocks_modifyWitness (s : State) (id : WitnessId) (f : Witness → Witness)
    (i : WitnessId) : (s.modifyWitness id f).clocks[i]? =
      s.witnesses[i]?.map fun w => if id = i then (f w).clock else w.clock := by
  simp only [State.clocks, State.modifyWitness, List.getElem?_map, List.getElem?_modify]
  cases s.witnesses[i]? with
  | none => rfl
  | some w => by_cases hi : id = i <;> simp [hi]

theorem SameClocks.modifyWitness {id : WitnessId} {f : Witness → Witness}
    (h : ∀ w, (f w).clock = w.clock) : SameClocks s (s.modifyWitness id f) :=
  ⟨map_modifyWitness h, rfl, rfl, rfl⟩

/-! ## What operations write -/

section

variable (hs : OnTime s)

include hs

/-- A new witness has no votes and is due at the end of time. -/
theorem OnTime.createWitness {w : Witness}
    (hw : w.clock = ⟨0, 0, 0, BitVec.allOnes 128⟩) : OnTime (s.createWitness w) := by
  have hclocks : (s.createWitness w).clocks = s.clocks ++ [⟨0, 0, 0, BitVec.allOnes 128⟩] := by
    rw [State.clocks, State.createWitness, List.map_append, List.map_singleton, hw]
    rfl
  refine ⟨hs.total_lt, fun k hk => ?_, fun hfork k hk => ?_⟩
  all_goals
    rw [hclocks, List.mem_append, List.mem_singleton] at hk
    obtain hk | rfl := hk
  · exact hs.votes_lt k hk
  · decide
  · exact hs.times hfork k hk
  · exact ⟨Clock.zero_le _, Clock.le_lap_length2 _, fun _ => by decide, fun h => absurd h (lt_irrefl 0)⟩

theorem OnTime.adjust {id : WitnessId} {w w' : Witness} (hadjust : w.adjust s delta = .ok w') :
    OnTime (s.modifyWitness id fun _ => w') := by
  -- the clocks are those of before, with one exception
  have hclock : ∀ k ∈ (s.modifyWitness id fun _ => w').clocks, k = w'.clock ∨ k ∈ s.clocks := by
    intro k hk
    obtain ⟨i, hi⟩ := List.getElem?_of_mem hk
    rw [getElem?_clocks_modifyWitness, Option.map_eq_some_iff] at hi
    obtain ⟨v, hv, hk⟩ := hi
    split at hk
    · exact .inl hk.symm
    · exact .inr (hk ▸ List.mem_map_of_mem (List.mem_of_getElem? hv))
  refine ⟨hs.total_lt, fun k hk => ?_, fun hfork k hk => ?_⟩
  · obtain rfl | hk := hclock k hk
    · have hle : w'.votes ≤ s.total_vesting_shares := by
        obtain ⟨hle, hadjust⟩ := check_bind_ok.1 hadjust
        obtain ⟨rest, -, hadjust⟩ := bind_ok.1 hadjust
        cases hadjust
        exact of_decide_eq_true hle
      exact hle.trans_lt hs.total_lt
    · exact hs.votes_lt k hk
  · obtain rfl | hk := hclock k hk
    · exact .adjust hfork hs.total_lt hadjust
    · exact hs.times hfork k hk

theorem OnTime.clearVotes : OnTime (clearVotes s) := by
  have hclocks : (Schedule.clearVotes s).clocks =
      s.clocks.map fun k => { k with votes := 0, position := 0 } := by
    simp only [State.clocks, Schedule.clearVotes, List.map_map]
    rfl
  refine ⟨hs.total_lt, fun k hk => ?_, fun hfork k hk => ?_⟩
  all_goals
    rw [hclocks, List.mem_map] at hk
    obtain ⟨k, hk, rfl⟩ := hk
  · exact Int.pow_pos (by decide)
  · have honTime := hs.times hfork k hk
    exact ⟨honTime.last_le, honTime.le_scheduled, fun _ => by simp, fun h => absurd h (lt_irrefl 0)⟩

end

/-- All witnesses start over. -/
theorem clocks_reset_virtual_schedule_time (h : reset_virtual_schedule_time s = .ok s') :
    s'.clocks = s.clocks.map (Clock.advanced 0) ∧ s'.wso.current_virtual_time = 0 ∧
      s'.total_vesting_shares = s.total_vesting_shares ∧ s'.last_hardfork = s.last_hardfork := by
  obtain ⟨l, hl, h⟩ := bind_ok.1 h
  cases h
  refine ⟨?_, rfl, rfl, rfl⟩
  have hall := mapM_eq_ok.1 hl
  simp only [State.clocks]
  clear hl h
  generalize s.witnesses = witnesses at hall
  induction hall with
  | nil => rfl
  | cons hw _ ih =>
    obtain ⟨time, htime, hw⟩ := bind_ok.1 hw
    have htime := Except.ok.inj (check_bind_ok.1 htime).2
    have hzero : ∀ x : BitVec 128, 0 + x = x := BitVec.zero_add
    simp only [List.map_cons, ih, ← Except.ok.inj hw, Witness.clock, Clock.advanced, ← htime, hzero]

theorem OnTime.reset_virtual_schedule_time (hvotes : ∀ k ∈ s.clocks, k.votes < 2 ^ 63)
    (h : reset_virtual_schedule_time s = .ok s') :
    ∀ k ∈ s'.clocks, k.votes < 2 ^ 63 ∧ k.OnTime s'.wso.current_virtual_time := by
  obtain ⟨hclocks, hnow, -, -⟩ := clocks_reset_virtual_schedule_time h
  intro k hk
  rw [hclocks, List.mem_map] at hk
  obtain ⟨k, hk, rfl⟩ := hk
  rw [hnow]
  exact ⟨hvotes k hk, .advanced (hvotes k hk) (BitVec.not_lt.2 (Clock.zero_le _))⟩

theorem OnTime.retally_witness_votes {ballots : List (WitnessId × ℤ)} (hs : OnTime s)
    (h : retally_witness_votes s ballots = .ok s') : OnTime s' :=
  retally_rule hs.clearVotes (fun ht _ hadjust => ht.adjust hadjust) h

theorem OnTime.hardfork {s1 : State} {version : ℕ} {ballots : List (WitnessId × ℤ)} (hs : OnTime s)
    (h1 : hardforkChanges s ballots (s.last_hardfork + 1) = .ok s1) : OnTime { s1 with
      last_hardfork := s.last_hardfork + 1
      current_hardfork_version := version } := by
  -- before hardfork 4 only the amounts count
  have hearly : OnTime s1 → s.last_hardfork + 1 < 4 → OnTime { s1 with
      last_hardfork := s.last_hardfork + 1
      current_hardfork_version := version } := fun hs1 hlt =>
    ⟨hs1.total_lt, hs1.votes_lt, fun hfork => absurd hfork (Nat.not_le.2 hlt)⟩
  unfold hardforkChanges at h1
  split at h1
  · exact hearly (hs.retally_witness_votes h1) (by omega)
  · exact hearly (hs.retally_witness_votes h1) (by omega)
  · have hreset := OnTime.reset_virtual_schedule_time hs.votes_lt h1
    obtain ⟨-, -, htotal, -⟩ := clocks_reset_virtual_schedule_time h1
    exact ⟨htotal.symm ▸ hs.total_lt, fun k hk => (hreset k hk).1, fun _ k hk => (hreset k hk).2⟩
  -- any other hardfork leaves the clocks alone
  · rename_i hlast
    cases h1
    exact ⟨hs.total_lt, hs.votes_lt, fun _ => hs.times (by omega)⟩
  · rename_i hnot _
    cases h1
    refine ⟨hs.total_lt, hs.votes_lt, fun hfork => hs.times ?_⟩
    exact Nat.lt_succ_iff.1 (lt_of_le_of_ne hfork (Ne.symm hnot))

/-- Amounts that a write brings in have 64 bits. -/
def Write.fits : Write → Bool
  | total_vesting_shares amount => decide (amount < 2 ^ 63)
  | _ => true

theorem OnTime.write {w : Write} (hs : OnTime s) (hfits : w.fits = true) (h : w.apply s = .ok s') :
    OnTime s' := by
  cases Write.wrote h with
  | accounts => exact hs.same ⟨rfl, rfl, rfl, rfl⟩
  | update => exact hs.same (.modifyWitness fun _ => rfl)
  | create accounts =>
    have hnames : OnTime { s with accounts } := hs.same ⟨rfl, rfl, rfl, rfl⟩
    exact hnames.createWitness rfl
  | adjust _ hadjust => exact hs.adjust hadjust
  | total => exact ⟨of_decide_eq_true hfits, hs.votes_lt, hs.times⟩
  | hardfork version ballots h1 => exact hs.hardfork h1

theorem OnTime.applyWrites {writes : List Write} (hs : OnTime s) (hfits : writes.all Write.fits = true)
    (h : applyWrites s writes = .ok s') : OnTime s' := by
  induction writes generalizing s with
  | nil => exact Except.ok.inj h ▸ hs
  | cons w writes ih =>
    rw [List.all_cons, Bool.and_eq_true] at hfits
    rw [Schedule.applyWrites, List.foldlM_cons] at h
    obtain ⟨s1, h1, h⟩ := bind_ok.1 h
    exact ih (hs.write hfits.1 h1) hfits.2 h

/-! ## The next round -/

theorem timeBefore.le {a b : Witness × WitnessId} (h : timeBefore a b) :
    a.1.virtual_scheduled_time ≤ b.1.virtual_scheduled_time := by
  obtain hlt | ⟨heq, -⟩ := h
  · exact BitVec.le_of_lt hlt
  · exact heq ▸ BitVec.le_refl _

theorem timeAfter_bounds {first rest : List (Witness × WitnessId)}
    (hsorted : (first ++ rest).Pairwise timeBefore)
    (hdue : ∀ w ∈ first ++ rest, time ≤ w.1.virtual_scheduled_time) :
    time ≤ timeAfter time first ∧ ∀ w ∈ rest, timeAfter time first ≤ w.1.virtual_scheduled_time := by
  induction first generalizing time with
  | nil => exact ⟨BitVec.le_refl time, hdue⟩
  | cons v first ih =>
    obtain ⟨hfirst, hrest⟩ := List.pairwise_cons.1 hsorted
    obtain ⟨hle, hlater⟩ := ih hrest fun w hw => (hfirst w hw).le
    exact ⟨BitVec.le_trans (hdue v List.mem_cons_self) hle, hlater⟩

/-- Time does not go back, and does not pass a witness that does not run. -/
theorem selectRunners_time (hdue : ∀ w ∈ s.witnesses, s.wso.current_virtual_time ≤
      w.virtual_scheduled_time) :
    s.wso.current_virtual_time ≤ (selectRunners s).new_virtual_time ∧
      ∀ w ∈ s.witnesses.zipIdx, w ∉ (selectRunners s).processed →
        (selectRunners s).new_virtual_time ≤ w.1.virtual_scheduled_time := by
  obtain ⟨first, rest, hl, hprocessed, htime⟩ := addRunners_prefix ((selectVoted s).map (·.2))
    (selectVoted s).length { new_virtual_time := s.wso.current_virtual_time } (by_schedule_time s)
  have hall : ∀ w ∈ first ++ rest, w ∈ s.witnesses.zipIdx := by
    intro w hw
    exact (by_schedule_time_perm s).mem_iff.1 (hl ▸ hw)
  have hbounds := timeAfter_bounds (hl ▸ pairwise_by_schedule_time s) fun w hw =>
    hdue w.1 (List.mem_of_getElem? (List.mem_zipIdx_iff_getElem?.1 (hall w hw)))
  have hnew : (selectRunners s).new_virtual_time =
      timeAfter s.wso.current_virtual_time first := htime
  have hrun : (selectRunners s).processed = first := hprocessed
  rw [hnew, hrun]
  refine ⟨hbounds.1, fun w hw hout => ?_⟩
  have hmem : w ∈ first ++ rest := hl ▸ (by_schedule_time_perm s).mem_iff.2 hw
  exact hbounds.2 w ((List.mem_append.1 hmem).resolve_left hout)

/-- A witness that is on the list starts its next lap, the others are as before. -/
theorem clocks_advanceProcessed {l : List (Witness × WitnessId)}
    (h : advanceProcessed time s l = .ok (s', false))
    (hl : ∀ x ∈ l, ∃ k, s.clocks[x.2]? = some k ∧ k.votes = x.1.votes) {i : WitnessId} {k' : Clock}
    (hk' : s'.clocks[i]? = some k') : ∃ k, s.clocks[i]? = some k ∧
      (k' = k ∧ i ∉ l.map (·.2) ∨ k' = k.advanced time ∧ ¬k'.scheduled < time) := by
  induction l generalizing s with
  | nil =>
    obtain ⟨rfl, -⟩ := Prod.mk.inj (Except.ok.inj h)
    exact ⟨k', hk', .inl ⟨rfl, List.not_mem_nil⟩⟩
  | cons x l ih =>
    obtain ⟨lap, hlap, h⟩ := bind_ok.1 h
    have hlap := Except.ok.inj (check_bind_ok.1 hlap).2
    dsimp only at h
    split at h
    · exact absurd (Prod.mk.inj (Except.ok.inj h)).2 Bool.noConfusion
    · rename_i hfits
      obtain ⟨k0, hk0, hvotes⟩ := hl x List.mem_cons_self
      have hadvanced : (k0.advanced time).scheduled = time + lap := by
        rw [← hlap, Clock.advanced, hvotes]
      -- the table after the first witness
      have hstep : ∀ j, (s.modifyWitness x.2 fun w => { w with
          virtual_position := 0
          virtual_last_update := time
          virtual_scheduled_time := time + lap }).clocks[j]? =
          s.clocks[j]?.map fun k => if x.2 = j then k.advanced time else k := by
        intro j
        rw [getElem?_clocks_modifyWitness, getElem?_clocks, Option.map_map]
        cases hj : s.witnesses[j]? with
        | none => rfl
        | some w =>
          by_cases hx : x.2 = j
          · rw [getElem?_clocks, hx, hj, Option.map_some, Option.some.injEq] at hk0
            simp only [Option.map_some, hx, if_true, Function.comp_apply, hk0, ← hadvanced]
            simp [Clock.advanced, Witness.clock, ← hk0]
          · simp [hx]
      have hrest : ∀ y ∈ l, ∃ k, (s.modifyWitness x.2 fun w => { w with
          virtual_position := 0
          virtual_last_update := time
          virtual_scheduled_time := time + lap }).clocks[y.2]? = some k ∧ k.votes = y.1.votes := by
        intro y hy
        obtain ⟨k, hk, hvotes⟩ := hl y (List.mem_cons_of_mem x hy)
        refine ⟨if x.2 = y.2 then k.advanced time else k, by rw [hstep, hk, Option.map_some], ?_⟩
        split
        · exact hvotes
        · exact hvotes
      obtain ⟨k1, hk1, hcase⟩ := ih h hrest
      rw [hstep, Option.map_eq_some_iff] at hk1
      obtain ⟨k, hk, rfl⟩ := hk1
      refine ⟨k, hk, ?_⟩
      by_cases hx : x.2 = i
      · right
        rw [if_pos hx] at hcase
        have hk0 : k = k0 := by
          rw [← hx, hk0] at hk
          exact (Option.some.inj hk).symm
        obtain ⟨hsame, -⟩ | ⟨hsame, hlt⟩ := hcase
        · exact ⟨hsame, by rw [hsame, hk0, hadvanced]; exact hfits⟩
        · exact ⟨hsame, hlt⟩
      · rw [if_neg hx] at hcase
        refine hcase.imp_left fun hsame => ⟨hsame.1, ?_⟩
        rw [List.map_cons, List.mem_cons, not_or]
        exact ⟨fun he => hx he.symm, hsame.2⟩

theorem clocks_marked (s : State) : (marked s).clocks = s.clocks := by
  refine List.ext_getElem? fun i => ?_
  rw [getElem?_clocks, getElem?_clocks, getElem?_marked, Option.map_map]
  rfl

/-- What differs from the marked table in virtual times only has the votes of before. -/
theorem OnTime.votes_lt_of_untimed (hs : OnTime s)
    (h : s'.witnesses.map Witness.untimed = (marked s).witnesses.map Witness.untimed) :
    ∀ k ∈ s'.clocks, k.votes < 2 ^ 63 := by
  intro k hk
  obtain ⟨w, hw, rfl⟩ := List.mem_map.1 hk
  have hmem : w.untimed ∈ (marked s).witnesses.map Witness.untimed := h ▸ List.mem_map_of_mem hw
  obtain ⟨v, hv, hvw⟩ := List.mem_map.1 hmem
  have hclock : v.clock ∈ s.clocks := clocks_marked s ▸ List.mem_map_of_mem hv
  have hvotes : v.untimed.votes = w.untimed.votes := by rw [hvw]
  calc w.votes = v.votes := hvotes.symm
    _ < 2 ^ 63 := hs.votes_lt v.clock hclock

/-- The virtual times of the next round, for votes that are not negative. -/
theorem OnTime.advanceTimes {s1 : State} (hs : OnTime s)
    (hfork : 4 ≤ s.last_hardfork) (hsettled : ∀ k ∈ s.clocks, 0 ≤ k.votes)
    (h : advanceTimes (marked s) (selectRunners s) = .ok (s1, time)) :
    ∀ k ∈ s1.clocks, k.OnTime time := by
  have htimes := hs.times hfork
  obtain ⟨⟨s2, reset⟩, h2, h⟩ := bind_ok.1 h
  have hvotes := hs.votes_lt_of_untimed (SameButTimes.advanceProcessed h2).witnesses
  dsimp only at h
  cases reset with
  | true =>
    obtain ⟨s3, h3, h⟩ := bind_ok.1 h
    obtain ⟨rfl, rfl⟩ := Prod.mk.inj (Except.ok.inj h)
    intro k hk
    have honTime := (OnTime.reset_virtual_schedule_time hvotes h3 k hk).2
    rwa [(clocks_reset_virtual_schedule_time h3).2.1] at honTime
  | false =>
    obtain ⟨rfl, rfl⟩ := Prod.mk.inj (Except.ok.inj h)
    obtain ⟨hnow, hlater⟩ := selectRunners_time fun w hw =>
      (htimes w.clock (List.mem_map_of_mem hw)).le_scheduled
    have hsnapshot : ∀ x ∈ (selectRunners s).processed,
        ∃ k, (marked s).clocks[x.2]? = some k ∧ k.votes = x.1.votes := by
      intro x hx
      refine ⟨x.1.clock, ?_, rfl⟩
      rw [clocks_marked, getElem?_clocks, List.mem_zipIdx_iff_getElem?.1 (mem_processed hx),
        Option.map_some]
    intro k' hk'
    obtain ⟨i, hi⟩ := List.getElem?_of_mem hk'
    obtain ⟨k, hk, ⟨rfl, hout⟩ | ⟨rfl, hlt⟩⟩ := clocks_advanceProcessed h2 hsnapshot hi
    · -- a witness that time does not reach
      rw [clocks_marked] at hk
      have honTime := htimes k' (List.mem_of_getElem? hk)
      rw [getElem?_clocks, Option.map_eq_some_iff] at hk
      obtain ⟨w, hw, rfl⟩ := hk
      have hmem : (w, i) ∈ s.witnesses.zipIdx := List.mem_zipIdx_iff_getElem?.2 hw
      have hnot : (w, i) ∉ (selectRunners s).processed := fun hp => hout (List.mem_map_of_mem hp)
      refine ⟨BitVec.le_trans honTime.last_le hnow, hlater (w, i) hmem hnot, honTime.lap,
        fun hneg => ?_⟩
      have hpos := hsettled w.clock (List.mem_map_of_mem (List.mem_of_getElem? hw))
      omega
    · have hk : k ∈ s.clocks := clocks_marked s ▸ List.mem_of_getElem? hk
      exact .advanced (hs.votes_lt k hk) hlt

theorem OnTime.update_witness_schedule4 (hs : OnTime s)
    (hsettled : 4 ≤ s.last_hardfork → ∀ k ∈ s.clocks, 0 ≤ k.votes)
    (h : update_witness_schedule4 s = .ok s') : OnTime s' := by
  have hvotes := hs.votes_lt_of_untimed (Round.of_ok h).witnesses
  obtain ⟨s1, s2, time, props, h1, -, -, hrest, rfl⟩ := update_witness_schedule4_steps h
  rw [hrest] at hvotes ⊢
  refine ⟨hs.total_lt, hvotes, fun hfork k hk => ?_⟩
  exact hs.advanceTimes hfork (hsettled hfork) h1 k hk

/-! ## Every call -/

theorem SameClocks.process_header_extensions (s : State) (b : Block) (id : WitnessId) :
    SameClocks s (process_header_extensions s b id) := by
  refine .modifyWitness fun w => ?_
  obtain ⟨_, _, _, hw⟩ := Extension.foldl_eq b.extensions w
  rw [hw]
  rfl

theorem SameClocks.update_global_dynamic_data {b : Block}
    (h : update_global_dynamic_data s b = .ok s') : SameClocks s s' := by
  obtain ⟨t, ht, rfl⟩ := update_global_dynamic_data_rule (P := SameClocks s)
    (fun _ _ hu => hu.trans (.modifyWitness fun _ => rfl)) (.refl s) h
  exact ht.trans ⟨rfl, rfl, rfl, rfl⟩

theorem SameClocks.update_last_irreversible_block (h : update_last_irreversible_block s = .ok s') :
    SameClocks s s' := by
  rw [update_last_irreversible_block_rest h]
  exact ⟨rfl, rfl, rfl, rfl⟩

def Call.fits : Call → Bool
  | write w => w.fits
  | _ => true

theorem OnTime.call {c : Call} (hs : OnTime s) (hfits : c.fits = true)
    (hsettled : 4 ≤ s.last_hardfork → ∀ k ∈ s.clocks, 0 ≤ k.votes) (h : c.apply s = .ok s') :
    OnTime s' := by
  cases c with
  | write w => exact hs.write hfits h
  | process_header_extensions b id =>
    cases h
    exact hs.same (.process_header_extensions s b id)
  | update_global_dynamic_data b => exact hs.same (.update_global_dynamic_data h)
  | update_signing_witness id b =>
    cases h
    exact hs.same (.modifyWitness fun _ => rfl)
  | update_last_irreversible_block => exact hs.same (.update_last_irreversible_block h)
  | update_witness_schedule =>
    unfold Call.apply Schedule.update_witness_schedule at h
    dsimp only at h
    split at h
    · exact hs.update_witness_schedule4 hsettled h
    · exact Except.ok.inj h ▸ hs

theorem genesis_onTime (accounts : List AccountName) (init_miner : AccountName)
    (init_key : PublicKey) : OnTime (genesis accounts init_miner init_key) := by
  refine ⟨Int.pow_pos (by decide), fun k hk => ?_, fun hfork => ?_⟩
  · rw [List.mem_singleton.1 hk]
    exact Int.pow_pos (by decide)
  · have hnone : 4 ≤ 0 := hfork
    omega

end Calibrd.Chain.Schedule
