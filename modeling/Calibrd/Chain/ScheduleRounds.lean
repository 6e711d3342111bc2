import Calibrd.Chain.ScheduleRuns
import Calibrd.Lib.Proportion

/-!
# The witnesses of a round and their pay

What `update_witness_schedule4` leaves behind when it returns. `Round s s'` lists it: the schedule is
a shuffle of the elected witnesses (the first ones by votes) and of the runners (the first of the
others by virtual time), and each of them is marked with the way it came in. From that follow who is
scheduled (`update_witness_schedule4_round`) and what a round costs: the pay of a block is divided by
`witness_pay_normalization_factor`, which counts the elected witnesses a second time
(`budgetNeutral_iff`).
-/

namespace Calibrd.Chain.Schedule

open Calibrd.Lib

section Orders

/-- The order of `by_vote_name`: most votes first, then by name. -/
def votesBefore (a b : Witness × WitnessId) : Prop :=
  b.1.votes < a.1.votes ∨ (a.1.votes = b.1.votes ∧ a.1.owner ≤ b.1.owner)

/-- The order of `by_schedule_time`: the earliest time first, then by id. -/
def timeBefore (a b : Witness × WitnessId) : Prop :=
  a.1.virtual_scheduled_time < b.1.virtual_scheduled_time ∨
    (a.1.virtual_scheduled_time = b.1.virtual_scheduled_time ∧ a.2 ≤ b.2)

instance : DecidableRel votesBefore := fun a b =>
  inferInstanceAs (Decidable (b.1.votes < a.1.votes ∨ (a.1.votes = b.1.votes ∧ a.1.owner ≤ b.1.owner)))

instance : DecidableRel timeBefore := fun a b =>
  inferInstanceAs (Decidable (a.1.virtual_scheduled_time < b.1.virtual_scheduled_time ∨
    (a.1.virtual_scheduled_time = b.1.virtual_scheduled_time ∧ a.2 ≤ b.2)))

/-- The witnesses with a signing key. -/
def State.enabledWitnesses (s : State) : List (Witness × WitnessId) := s.witnesses.zipIdx.filter enabled

variable (s : State)

theorem pairwise_by_vote_name : (by_vote_name s).Pairwise votesBefore := by
  have htotal : Std.Total votesBefore := ⟨fun a b => by grind [votesBefore]⟩
  have htrans : IsTrans (Witness × WitnessId) votesBefore := ⟨fun a b c => by grind [votesBefore]⟩
  exact List.pairwise_insertionSort votesBefore _

theorem pairwise_by_schedule_time : (by_schedule_time s).Pairwise timeBefore := by
  have htotal : Std.Total timeBefore := ⟨fun a b => by grind [timeBefore]⟩
  have htrans : IsTrans (Witness × WitnessId) timeBefore := ⟨fun a b c => by grind [timeBefore]⟩
  exact List.pairwise_insertionSort timeBefore _

theorem leading_selectVoted :
    Leading votesBefore s.enabledWitnesses s.wso.max_voted_witnesses (selectVoted s) := by
  rw [selectVoted_eq]
  exact leading_take ((nodup_zipIdx _).filter _) ((by_vote_name_perm s).filter _)
    ((pairwise_by_vote_name s).filter _)

/-- Among the witnesses with a key that are not elected. -/
theorem leading_timeshare :
    Leading timeBefore (s.enabledWitnesses.filter (· ∉ selectVoted s))
      (STEEMIT_MAX_WITNESSES - (selectVoted s).length) (selectRunners s).timeshare := by
  rw [timeshare_eq]
  refine leading_take (((nodup_zipIdx _).filter _).filter _) ?_
    ((pairwise_by_schedule_time s).filter _)
  -- an elected id is an elected witness
  have hsame : s.enabledWitnesses.filter (· ∉ selectVoted s) =
      s.witnesses.zipIdx.filter (canRun ((selectVoted s).map (·.2))) := by
    rw [State.enabledWitnesses, List.filter_filter]
    refine List.filter_congr fun w hw => ?_
    have hid : w.2 ∈ (selectVoted s).map (·.2) ↔ w ∈ selectVoted s := by
      constructor
      · intro h
        obtain ⟨v, hv, hvw⟩ := List.mem_map.1 h
        rwa [← eq_of_id (mem_selectVoted hv).1 hw hvw]
      · exact List.mem_map_of_mem
    simp only [canRun, List.contains_eq_mem, hid, decide_not]
    exact Bool.and_comm _ _
  rw [hsame]
  exact (by_schedule_time_perm s).filter _

end Orders

variable {w : Witness × WitnessId} {time : BitVec 128}

section Round

variable {s s' : State}

/-- What `update_witness_schedule4` leaves behind. -/
structure Round (s s' : State) : Prop where
  witnesses : s'.witnesses.map Witness.untimed = (marked s).witnesses.map Witness.untimed
  names : s'.wso.current_shuffled_witnesses = shuffle (UInt64.ofNat s.head_block_time <<< 32)
    (scheduleNames ((active s).map (·.1.owner)))
  top19_weight : s'.wso.top19_weight = s.wso.top19_weight
  timeshare_weight : s'.wso.timeshare_weight = s.wso.timeshare_weight
  factor : s'.wso.witness_pay_normalization_factor =
    s.wso.top19_weight * (selectVoted s).length + s.wso.timeshare_weight * (active s).length

theorem Round.of_ok (h : update_witness_schedule4 s = .ok s') : Round s s' := by
  obtain ⟨s1, s2, time, props, h1, -, -, hrest, rfl⟩ := update_witness_schedule4_steps h
  have hlength : ((active s).map (·.1.owner)).length = (active s).length := List.length_map _
  refine ⟨?_, ?_, ?_, ?_, ?_⟩
  · rw [hrest]
    exact (SameButTimes.advanceTimes h1).witnesses
  · rw [hrest]
    rfl
  · rw [hrest]
    rfl
  · rw [hrest]
    rfl
  · rw [hrest, ← hlength]
    rfl

/-- A witness of the next round, as it stands in the table afterwards. -/
theorem Round.getElem? (h : Round s s') (hw : w ∈ s.witnesses.zipIdx) :
    ∃ w', s'.witnesses[w.2]? = some w' ∧
      w'.untimed = { w.1 with schedule := nextSchedule s w.2 w.1.schedule }.untimed := by
  have hget : s'.witnesses[w.2]?.map Witness.untimed =
      (marked s).witnesses[w.2]?.map Witness.untimed := by
    rw [← List.getElem?_map, ← List.getElem?_map, h.witnesses]
  rw [getElem?_marked, List.mem_zipIdx_iff_getElem?.1 hw, Option.map_some, Option.map_some,
    Option.map_eq_some_iff] at hget
  exact hget

/-- The schedule holds the names of the witnesses that were picked. -/
theorem Round.names_perm (h : Round s s') (hne : active s ≠ []) :
    s'.wso.current_shuffled_witnesses.toList.Perm ((active s).map (·.1.owner)) := by
  rw [h.names]
  have hperm := Array.perm_iff_toList_perm.1 (shuffle_perm (UInt64.ofNat s.head_block_time <<< 32)
    (scheduleNames ((active s).map (·.1.owner))))
  rwa [scheduleNames_toList (List.map_eq_nil_iff.not.2 hne)] at hperm

/-- In every run in which `update_witness_schedule4` returns: the schedule is a shuffle of the best
`max_voted_witnesses` by votes and, up to `STEEMIT_MAX_WITNESSES` in all, of the first of the others
in virtual time, all of them with a signing key and none of them twice; and a shuffle, at whatever
time, only permutes. -/
theorem update_witness_schedule4_round (accounts : List AccountName) (init_miner : AccountName)
    (init_key : PublicKey) (calls : List Call) (s s' : State)
    (hs : run (genesis accounts init_miner init_key) calls = s)
    (h : update_witness_schedule4 s = .ok s') :
    ∃ elected runners : List (Witness × WitnessId),
      Leading votesBefore s.enabledWitnesses s.wso.max_voted_witnesses elected ∧
      Leading timeBefore (s.enabledWitnesses.filter (· ∉ elected))
        (STEEMIT_MAX_WITNESSES - elected.length) runners ∧
      s'.wso.current_shuffled_witnesses =
        shuffle (UInt64.ofNat s.head_block_time <<< 32)
          ((elected ++ runners).map (·.1.owner)).toArray ∧
      s'.wso.current_shuffled_witnesses.toList.Perm ((elected ++ runners).map (·.1.owner)) ∧
      s'.wso.current_shuffled_witnesses.toList.Nodup ∧
      (∀ name ∈ s'.wso.current_shuffled_witnesses.toList,
        ∃ w ∈ s'.witnesses, w.owner = name ∧ w.signing_key ≠ none) ∧
      ∀ (now_hi : UInt64) (names : Array AccountName), (shuffle now_hi names).Perm names := by
  have hordered : Ordered s := hs ▸ run_ordered accounts init_miner init_key calls
  have hround := Round.of_ok h
  have hne := hordered.active_ne_nil (Rescheduled.of_ok h).count
  have hnames := hround.names_perm hne
  refine ⟨selectVoted s, (selectRunners s).timeshare, leading_selectVoted s, leading_timeshare s, ?_,
    hnames, (hordered.rescheduled (.of_ok h)).distinct, ?_, shuffle_perm⟩
  · rw [hround.names, scheduleNames, if_neg]
    · rfl
    · rw [List.isEmpty_iff, List.map_eq_nil_iff]
      exact hne
  · intro name hname
    obtain ⟨w, hw, rfl⟩ := List.mem_map.1 (hnames.mem_iff.1 hname)
    obtain ⟨hmem, hkey⟩ := mem_active hw
    obtain ⟨w', hget, hw'⟩ := hround.getElem? hmem
    obtain ⟨howner, hsame, -⟩ := Witness.eq_of_untimed hw'
    refine ⟨w', List.mem_of_getElem? hget, howner, ?_⟩
    rw [hsame]
    exact Option.isSome_iff_ne_none.1 hkey

/-- Twenty-one more witnesses with a key, the last of them with votes. -/
def registrations : List Call :=
  ((List.range' 2 21).map fun name => .write (.witness_update name 0 (some (100 + name)) {} true)) ++
    [.write (.total_vesting_shares 1000), .write (.adjust_witness_vote 21 1000)]

/-- Nineteen elected witnesses and two runners; one of the 22 witnesses is left out. -/
theorem update_witness_schedule4_round_runners : ∃ s' elected runners,
    update_witness_schedule4 (run (genesis (List.range' 1 22) 1 101) registrations) = .ok s' ∧
      Leading votesBefore (run (genesis (List.range' 1 22) 1 101) registrations).enabledWitnesses 19
        elected ∧ elected.length = 19 ∧ runners.length = 2 ∧
      s'.wso.current_shuffled_witnesses.toList.Perm ((elected ++ runners).map (·.1.owner)) ∧
      s'.wso.current_shuffled_witnesses.toList.Nodup := by
  have hsize : (update_witness_schedule4
      (run (genesis (List.range' 1 22) 1 101) registrations)).toOption.map
        (·.wso.current_shuffled_witnesses.toList.length) = some 21 := by decide +kernel
  obtain ⟨s', hs', hlength⟩ := Option.map_eq_some_iff.1 hsize
  have hok := eq_ok_of_mem_toOption hs'
  obtain ⟨elected, runners, helected, -, -, hperm, hnodup, -⟩ := update_witness_schedule4_round
    (List.range' 1 22) 1 101 registrations _ s' rfl hok
  have hmax : (run (genesis (List.range' 1 22) 1 101) registrations).wso.max_voted_witnesses = 19 := by
    decide +kernel
  rw [hmax] at helected
  have hcount : elected.length = 19 := helected.length_eq.trans (by decide +kernel)
  have hall := hperm.length_eq
  rw [hlength, List.length_map, List.length_append, hcount] at hall
  exact ⟨s', elected, runners, hok, helected, hcount, by omega, hperm, hnodup⟩

end Round

section Pay

variable {s s' : State}

/-- The weight of a producer in `process_funds`; an unknown type is only logged. -/
def WitnessSchedule.weight (wso : WitnessSchedule) : ScheduleType → ℕ
  | .timeshare => wso.timeshare_weight
  | .miner => wso.miner_weight
  | .top19 => wso.top19_weight
  | .none => 1

/-- What `process_funds` pays the producer of a block of which `witness_reward` is left for the
witnesses. -/
def witnessPay (wso : WitnessSchedule) (schedule : ScheduleType) (witness_reward : ℤ) : ℤ :=
  share (witness_reward * STEEMIT_MAX_WITNESSES) wso.witness_pay_normalization_factor
    (wso.weight schedule)

/-- The weights of the witnesses of a round. -/
def roundWeights (wso : WitnessSchedule) (round : List (Witness × WitnessId)) : List ℤ :=
  round.map fun w => (wso.weight w.1.schedule : ℤ)

/-- The factor is the weight of the round, and a full round in which each witness produces once is
paid what `STEEMIT_MAX_WITNESSES` blocks have for the witnesses, but for one unit a block. -/
structure BudgetNeutral (wso : WitnessSchedule) (round : List (Witness × WitnessId)) : Prop where
  factor : (wso.witness_pay_normalization_factor : ℤ) = (roundWeights wso round).sum
  pay : round.length = STEEMIT_MAX_WITNESSES → ∀ r : ℤ, 0 ≤ r →
    (round.map fun w => witnessPay wso w.1.schedule r).sum ≤ STEEMIT_MAX_WITNESSES * r ∧
      STEEMIT_MAX_WITNESSES * r ≤
        (round.map fun w => witnessPay wso w.1.schedule r).sum + STEEMIT_MAX_WITNESSES

variable {round : List (Witness × WitnessId)}

theorem BudgetNeutral.of_factor {wso : WitnessSchedule}
    (hpos : 0 < wso.witness_pay_normalization_factor)
    (h : (wso.witness_pay_normalization_factor : ℤ) = (roundWeights wso round).sum) :
    BudgetNeutral wso round := by
  refine ⟨h, fun hlength r hr => ?_⟩
  have hpay : (round.map fun w => witnessPay wso w.1.schedule r) = (roundWeights wso round).map
      (share (r * STEEMIT_MAX_WITNESSES) wso.witness_pay_normalization_factor) := by
    simp only [roundWeights, List.map_map, Function.comp_def, witnessPay]
  have hweights : ∀ w ∈ roundWeights wso round, 0 ≤ w := by
    intro w hw
    obtain ⟨v, -, rfl⟩ := List.mem_map.1 hw
    exact Int.natCast_nonneg _
  obtain ⟨hle, hge⟩ := sum_share_of_total (mul_nonneg hr (Int.natCast_nonneg STEEMIT_MAX_WITNESSES))
    (Int.natCast_pos.2 hpos) hweights h.symm
  rw [roundWeights, List.length_map, hlength, ← roundWeights] at hge
  rw [hpay, mul_comm (STEEMIT_MAX_WITNESSES : ℤ) r]
  exact ⟨hle, hge⟩

/-- A witness of the round is found under its name, marked with the way it came in. -/
theorem Round.get_witness (h : Round s s') (hs' : Ordered s') (hw : w ∈ active s) :
    ∃ w', s'.get_witness w.1.owner = .ok (w', w.2) ∧
      w'.schedule = nextSchedule s w.2 w.1.schedule := by
  obtain ⟨w', hget, hw'⟩ := h.getElem? (mem_active hw).1
  obtain ⟨howner, -, hschedule, -⟩ := Witness.eq_of_untimed hw'
  have hmem : (w', w.2) ∈ s'.witnesses.zipIdx := List.mem_zipIdx_iff_getElem?.2 hget
  have hname : w'.owner ∈ s'.owners := owner_mem_of_zipIdx hmem
  obtain ⟨v, hv⟩ := get_witness_ok hname
  obtain ⟨hvmem, hvowner⟩ := get_witness_spec hv
  rw [hs'.eq_of_owner hvmem hmem hvowner] at hv
  exact ⟨w', howner ▸ hv, hschedule⟩

theorem nextSchedule_of_voted (h : w ∈ selectVoted s) (old : ScheduleType) :
    nextSchedule s w.2 old = .top19 := by
  have hid : w.2 ∈ (selectVoted s).map (·.2) := List.mem_map_of_mem h
  rw [nextSchedule, if_neg, if_pos hid]
  intro hrun
  obtain ⟨v, hv, hvw⟩ := List.mem_map.1 hrun
  exact (mem_timeshare hv).2.2 (hvw ▸ hid)

theorem nextSchedule_of_timeshare (h : w ∈ (selectRunners s).timeshare) (old : ScheduleType) :
    nextSchedule s w.2 old = .timeshare :=
  if_pos (List.mem_map_of_mem h)

/-- The weight of the witness with that name. -/
def weightOf (s : State) (name : AccountName) : ℤ :=
  match s.get_witness name with
  | .ok w => s.wso.weight w.1.schedule
  | .error _ => 0

theorem roundWeights_eq (h : scheduledWitnesses s = .ok round) :
    roundWeights s.wso round = s.wso.current_shuffled_witnesses.toList.map (weightOf s) := by
  have hall := mapM_eq_ok.1 h
  clear h
  generalize s.wso.current_shuffled_witnesses.toList = names at hall
  induction hall with
  | nil => rfl
  | cons hw _ ih =>
    rw [List.map_cons, ← ih, weightOf, hw]
    rfl

/-- The weight of a round: its elected witnesses and its runners, each once. -/
theorem Round.sum_weights (h : Round s s') (hs' : Ordered s') (hne : active s ≠ [])
    (hround : scheduledWitnesses s' = .ok round) :
    (roundWeights s'.wso round).sum = s.wso.top19_weight * (selectVoted s).length +
      s.wso.timeshare_weight * (selectRunners s).timeshare.length := by
  have hvoted : ∀ w ∈ selectVoted s, weightOf s' w.1.owner = s.wso.top19_weight := by
    intro w hw
    obtain ⟨w', hget, hschedule⟩ := h.get_witness hs' (List.mem_append_left _ hw)
    rw [weightOf, hget, ← h.top19_weight]
    simp only [hschedule, nextSchedule_of_voted hw, WitnessSchedule.weight]
  have hrunners : ∀ w ∈ (selectRunners s).timeshare,
      weightOf s' w.1.owner = s.wso.timeshare_weight := by
    intro w hw
    obtain ⟨w', hget, hschedule⟩ := h.get_witness hs' (List.mem_append_right _ hw)
    rw [weightOf, hget, ← h.timeshare_weight]
    simp only [hschedule, nextSchedule_of_timeshare hw, WitnessSchedule.weight]
  have hconst : ∀ {l : List (Witness × WitnessId)} {c : ℕ},
      (∀ w ∈ l, weightOf s' w.1.owner = c) →
        (l.map fun w => weightOf s' w.1.owner).sum = c * l.length := by
    intro l c hl
    rw [List.map_congr_left hl, List.map_const', List.sum_replicate, nsmul_eq_mul, mul_comm]
  rw [roundWeights_eq hround, ((h.names_perm hne).map (weightOf s')).sum_eq, active, List.map_map,
    List.map_append, List.sum_append]
  exact congrArg₂ (· + ·) (hconst hvoted) (hconst hrunners)

/-- There is a place for elected witnesses in every state of a run. -/
theorem run_max_voted_pos (accounts : List AccountName) (init_miner : AccountName)
    (init_key : PublicKey) (calls : List Call) :
    0 < (run (genesis accounts init_miner init_key) calls).wso.max_voted_witnesses := by
  have hwritten : ∀ {s s' : State}, Written s s' → 0 < s.wso.max_voted_witnesses →
      0 < s'.wso.max_voted_witnesses := fun h hs =>
    h.max_voted.elim (fun heq => heq ▸ hs) fun heq => heq ▸ by decide
  refine runCalls_rule_all (P := fun s : State => 0 < s.wso.max_voted_witnesses)
    (fun {s s' c} hs h => ?_) (by decide : 0 < STEEMIT_MAX_VOTED_WITNESSES_HF0) calls
  cases c with
  | write w => exact hwritten (Write.written h) hs
  | process_header_extensions b id =>
    cases h
    exact hs
  | update_global_dynamic_data b =>
    obtain ⟨t, ht, -, hwso⟩ := update_global_dynamic_data_spec h
    rw [hwso]
    exact hwritten ht hs
  | update_signing_witness id b =>
    cases h
    exact hs
  | update_last_irreversible_block =>
    rw [update_last_irreversible_block_rest h]
    exact hs
  | update_witness_schedule =>
    unfold Call.apply Schedule.update_witness_schedule at h
    dsimp only at h
    split at h
    · rw [(Rescheduled.of_ok h).max_voted]
      exact hs
    · rwa [← Except.ok.inj h]

/-- After every schedule update: the factor counts the elected witnesses a second time, as runners, so
the round costs what it should exactly if there is no place for elected witnesses, and that is so in no
state of a run. -/
theorem budgetNeutral_iff (s s' : State) (hs : Ordered s) (hshare : 0 < s.wso.timeshare_weight)
    (h : update_witness_schedule4 s = .ok s') :
    ∃ round, scheduledWitnesses s' = .ok round ∧
      (s'.wso.witness_pay_normalization_factor : ℤ) = (roundWeights s'.wso round).sum +
        s.wso.timeshare_weight * (selectVoted s).length ∧
      (BudgetNeutral s'.wso round ↔ s.wso.max_voted_witnesses = 0) ∧
      ∀ accounts init_miner init_key calls, run (genesis accounts init_miner init_key) calls = s →
        ¬ BudgetNeutral s'.wso round := by
  have hround := Round.of_ok h
  have hs' := hs.rescheduled (.of_ok h)
  have hne := hs.active_ne_nil (Rescheduled.of_ok h).count
  obtain ⟨round, hscheduled⟩ := scheduledWitnesses_ok hs'.registered
  have hsum := hround.sum_weights hs' hne hscheduled
  have hfactor : (s'.wso.witness_pay_normalization_factor : ℤ) = (roundWeights s'.wso round).sum +
      s.wso.timeshare_weight * (selectVoted s).length := by
    rw [hround.factor, hsum, active, List.length_append]
    push_cast
    ring
  -- with a key there is an elected witness, if there is a place for one
  have helected : (selectVoted s).length = 0 ↔ s.wso.max_voted_witnesses = 0 := by
    have hpos := List.length_pos_of_ne_nil hne
    rw [length_active hs.max_voted] at hpos
    rw [length_selectVoted]
    omega
  have hiff : BudgetNeutral s'.wso round ↔ s.wso.max_voted_witnesses = 0 := by
    rw [← helected]
    constructor
    · intro hneutral
      have hzero : (s.wso.timeshare_weight : ℤ) * (selectVoted s).length = 0 := by
        linarith [hneutral.factor]
      rcases mul_eq_zero.1 hzero with hzero | hzero
      · omega
      · exact_mod_cast hzero
    · intro hzero
      have hlength : 0 < (active s).length := List.length_pos_of_ne_nil hne
      refine .of_factor ?_ (by rw [hfactor, hzero]; simp)
      rw [hround.factor]
      exact Nat.add_pos_right _ (Nat.mul_pos hshare hlength)
  refine ⟨round, hscheduled, hfactor, hiff, ?_⟩
  rintro accounts init_miner init_key calls rfl hneutral
  exact (run_max_voted_pos accounts init_miner init_key calls).ne' (hiff.1 hneutral)

/-- The first schedule update, with the init miner elected. -/
theorem budgetNeutral_genesis : ∃ s' round, update_witness_schedule4 (genesis [1] 1 10) = .ok s' ∧
    scheduledWitnesses s' = .ok round ∧ ¬ BudgetNeutral s'.wso round := by
  obtain ⟨s', hs'⟩ : ∃ s', update_witness_schedule4 (genesis [1] 1 10) = .ok s' :=
    exists_eq_ok (by decide +kernel)
  obtain ⟨round, hround, -, -, hnot⟩ :=
    budgetNeutral_iff _ s' (.genesis [1] 1 10) (by decide) hs'
  exact ⟨s', round, hs', hround, hnot [1] 1 10 [] rfl⟩

/-- All hardforks, with 21 witnesses that have a key, and a schedule update. -/
def fullRound : State :=
  run (genesis (List.range' 1 21) 1 101) <|
    ((List.range' 2 20).map fun name => .write (.witness_update name 0 (some (100 + name)) {} true)) ++
      ((List.range' 1 19).map fun n => .write (.apply_hardfork (n * 2 ^ 16) [])) ++
        [.update_witness_schedule]

/-- Twenty elected witnesses and one runner weigh 25, but the factor is 125: of 21 times 1000 the
round is paid 4200. -/
theorem elected_counted_twice :
    fullRound.last_hardfork = STEEMIT_NUM_HARDFORKS ∧
    fullRound.wso.witness_pay_normalization_factor = 125 ∧
    ∃ round, scheduledWitnesses fullRound = .ok round ∧ round.length = STEEMIT_MAX_WITNESSES ∧
      (roundWeights fullRound.wso round).sum = 25 ∧
      (round.map fun w => witnessPay fullRound.wso w.1.schedule 1000).sum = 4200 ∧
      ¬ BudgetNeutral fullRound.wso round := by
  have hsums : (scheduledWitnesses fullRound).toOption.map (fun round => (round.length,
      (roundWeights fullRound.wso round).sum,
      (round.map fun w => witnessPay fullRound.wso w.1.schedule 1000).sum)) =
        some (21, 25, 4200) := by decide +kernel
  have hfactor : fullRound.wso.witness_pay_normalization_factor = 125 := by decide +kernel
  refine ⟨by decide +kernel, hfactor, ?_⟩
  cases hround : scheduledWitnesses fullRound with
  | error e => simp [hround, Except.toOption] at hsums
  | ok round =>
    simp only [hround, Except.toOption, Option.map_some, Option.some.injEq, Prod.mk.injEq] at hsums
    obtain ⟨hlength, hweights, hpay⟩ := hsums
    refine ⟨round, rfl, hlength, hweights, hpay, fun hneutral => ?_⟩
    have hsame := hneutral.factor
    rw [hfactor, hweights] at hsame
    omega

end Pay

end Calibrd.Chain.Schedule
