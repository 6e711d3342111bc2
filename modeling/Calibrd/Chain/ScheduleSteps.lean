import Calibrd.Chain.WitnessSchedule

/-!
# What the steps of a block can do

One lemma for each step of block application, from which the invariants of the witness table, of the
hardforks and of virtual time are read off. `Wrote` lists what a write does; the missed slots of
`update_global_dynamic_data` have a rule; `update_witness_schedule4_steps` takes the schedule update
apart. The virtual times change in two of its parts only (`SameButTimes`).
-/

namespace Calibrd.Chain.Schedule

open Calibrd.Lib

def State.owners (s : State) : List AccountName := s.witnesses.map (·.owner)

variable {w : Witness × WitnessId} {b : Block} {time : BitVec 128}

section Lookup

variable {s : State} {name : AccountName}

theorem not_mem_owners (h : s.find_witness name = none) : name ∉ s.owners := by
  intro hmem
  obtain ⟨w, hw, rfl⟩ := List.mem_map.1 hmem
  rw [State.find_witness, List.findIdx?_eq_none_iff] at h
  exact absurd (h w hw) (by rw [beq_self_eq_true]; exact nofun)

theorem get_witness_spec (h : s.get_witness name = .ok w) :
    w ∈ s.witnesses.zipIdx ∧ w.1.owner = name := by
  rw [State.get_witness] at h
  split at h
  · rename_i v hv
    have hfound : (v.1.owner == name) = true :=
      List.find?_some (p := fun w : Witness × WitnessId => w.1.owner == name) hv
    cases h
    exact ⟨List.mem_of_find?_eq_some hv, beq_iff_eq.1 hfound⟩
  · exact nomatch h

theorem get_witness_ok (h : name ∈ s.owners) : ∃ w, s.get_witness name = .ok w := by
  obtain ⟨v, hv, hname⟩ := List.mem_map.1 h
  obtain ⟨id, hid⟩ := List.getElem?_of_mem hv
  rw [State.get_witness]
  split
  · exact ⟨_, rfl⟩
  · rename_i hnone
    have hall := List.find?_eq_none.1 hnone (v, id) (List.mem_zipIdx_iff_getElem?.2 hid)
    exact absurd (beq_iff_eq.2 hname) hall

/-- The schedule is read if all its names are registered. -/
theorem scheduledWitnesses_ok
    (h : ∀ name ∈ s.wso.current_shuffled_witnesses.toList, name ∈ s.owners) :
    ∃ l, scheduledWitnesses s = .ok l :=
  exists_mapM_eq_ok fun name hname => get_witness_ok (h name hname)

theorem scheduledWitnesses_spec {l : List (Witness × WitnessId)}
    (h : scheduledWitnesses s = .ok l) :
    l.map (·.1.owner) = s.wso.current_shuffled_witnesses.toList ∧
      ∀ w ∈ l, w ∈ s.witnesses.zipIdx := by
  have hall := mapM_eq_ok.1 h
  clear h
  generalize s.wso.current_shuffled_witnesses.toList = names at hall
  induction hall with
  | nil => exact ⟨rfl, nofun⟩
  | @cons name w names l hw _ ih =>
    obtain ⟨hmem, hname⟩ := get_witness_spec hw
    refine ⟨?_, ?_⟩
    · rw [List.map_cons, ih.1, hname]
    · exact List.forall_mem_cons.2 ⟨hmem, ih.2⟩

end Lookup

section Writes

variable {s s' : State}

/-- What a write does: it registers names, sets the key and the properties of a witness or adds one,
counts votes, or makes the changes of a hardfork. -/
inductive Wrote (s : State) : Write → State → Prop where
  | accounts {c : Write} (accounts : List AccountName) : Wrote s c { s with accounts }
  | update {c : Write} (id : WitnessId) (key : Witness → Option PublicKey) (props : ChainProperties) :
      Wrote s c (s.modifyWitness id fun w => { w with signing_key := key w, props })
  | create {c : Write} {owner} (accounts : List AccountName) (signing_key : Option PublicKey)
      (props : ChainProperties) (hname : owner ∉ s.owners) :
      Wrote s c ({ s with accounts }.createWitness { owner, signing_key, props })
  | adjust {id delta v v'} (hv : s.witnesses[id]? = some v) (h : v.adjust s delta = .ok v') :
      Wrote s (.adjust_witness_vote id delta) (s.modifyWitness id fun _ => v')
  | total (amount : ℤ) : Wrote s (.total_vesting_shares amount) { s with total_vesting_shares := amount }
  | hardfork {t} (version : ℕ) (ballots : List (WitnessId × ℤ))
      (h : hardforkChanges s ballots (s.last_hardfork + 1) = .ok t) :
      Wrote s (.apply_hardfork version ballots)
        { t with last_hardfork := s.last_hardfork + 1, current_hardfork_version := version }

theorem adjust_witness_vote_spec {id : WitnessId} {delta : ℤ}
    (h : adjust_witness_vote s id delta = .ok s') : ∃ v v', s.witnesses[id]? = some v ∧
      v.adjust s delta = .ok v' ∧ s' = s.modifyWitness id fun _ => v' := by
  unfold adjust_witness_vote at h
  split at h
  · cases h
  · rename_i v hv
    obtain ⟨v', hadjust, h⟩ := bind_ok.1 h
    cases h
    exact ⟨v, v', hv, hadjust, rfl⟩

theorem retally_rule {P : State → Prop} {ballots : List (WitnessId × ℤ)} (hclear : P (clearVotes s))
    (hadjust : ∀ {t : State} {id delta v v'}, P t → t.witnesses[id]? = some v →
      v.adjust t delta = .ok v' → P (t.modifyWitness id fun _ => v'))
    (h : retally_witness_votes s ballots = .ok s') : P s' := by
  refine foldlM_rule (fun ht hstep => ?_) hclear h
  obtain ⟨v, v', hv, hadj, rfl⟩ := adjust_witness_vote_spec hstep
  exact hadjust ht hv hadj

theorem Write.wrote {w : Write} (h : w.apply s = .ok s') : Wrote s w s' := by
  cases w with
  | account_create name =>
    replace h := ok_of_check h
    cases h
    exact .accounts _
  | witness_update owner url_size key props steem =>
    replace h := ok_of_check h
    replace h := ok_of_check h
    replace h := ok_of_check h
    split at h
    · cases h
      exact .update _ (fun _ => key) props
    · rename_i hfind
      cases h
      exact .create s.accounts key props (not_mem_owners hfind)
  | pow worker key props =>
    replace h := ok_of_check h
    split at h
    · cases h
      exact .update _ (·.signing_key) props
    · rename_i hfind
      cases h
      exact .create s.accounts (some key) props (not_mem_owners hfind)
  | pow2 worker key props =>
    cases key with
    | some key =>
      replace h := ok_of_check h
      obtain ⟨hfind, h⟩ := check_bind_ok.1 h
      cases h
      exact .create _ (some key) props (not_mem_owners (Option.isNone_iff_eq_none.1 hfind))
    | none =>
      obtain ⟨⟨_, id⟩, -, h⟩ := bind_ok.1 h
      cases h
      exact .update id (·.signing_key) props
  | adjust_witness_vote id delta =>
    obtain ⟨v, v', hv, hadjust, rfl⟩ := adjust_witness_vote_spec h
    exact .adjust hv hadjust
  | total_vesting_shares amount =>
    cases h
    exact .total amount
  | apply_hardfork version ballots =>
    replace h := ok_of_check h
    obtain ⟨t, ht, h⟩ := bind_ok.1 h
    cases h
    exact .hardfork version ballots ht

theorem hardforkChanges_rest {ballots : List (WitnessId × ℤ)} {hardfork : ℕ}
    (h : hardforkChanges s ballots hardfork = .ok s') :
    s' = { s with witnesses := s'.witnesses, wso := s'.wso } := by
  have hretally : retally_witness_votes s ballots = .ok s' →
      s' = { s with witnesses := s'.witnesses, wso := s'.wso } := fun h =>
    retally_rule (P := fun t => t = { s with witnesses := t.witnesses, wso := t.wso }) rfl
      (fun ht _ _ => by rw [ht]; rfl) h
  unfold hardforkChanges at h
  split at h
  · exact hretally h
  · exact hretally h
  · obtain ⟨l, -, h⟩ := bind_ok.1 h
    cases h
    rfl
  · cases h
    rfl
  · cases h
    rfl

/-- A write that is not a hardfork. -/
def Write.isOrdinary : Write → Bool
  | apply_hardfork _ _ => false
  | _ => true

/-- What a write can change; the hardforks change only with one. -/
theorem Write.frame {w : Write} (h : w.apply s = .ok s') :
    s' = { s with
      accounts := s'.accounts
      witnesses := s'.witnesses
      wso := s'.wso
      total_vesting_shares := s'.total_vesting_shares
      last_hardfork := s'.last_hardfork
      current_hardfork_version := s'.current_hardfork_version } ∧
    (w.isOrdinary = true → s'.last_hardfork = s.last_hardfork ∧
      s'.current_hardfork_version = s.current_hardfork_version) := by
  cases Write.wrote h with
  | hardfork version ballots ht =>
    rw [hardforkChanges_rest ht]
    exact ⟨rfl, nofun⟩
  | _ => exact ⟨rfl, fun _ => ⟨rfl, rfl⟩⟩

end Writes

section Blocks

variable {s s' : State}

/-- The extensions of a header set the version that a witness runs and its vote for a hardfork. -/
theorem Extension.foldl_eq (l : List Extension) (w : Witness) : ∃ running vote time,
    l.foldl Extension.apply w = { w with
      running_version := running
      hardfork_version_vote := vote
      hardfork_time_vote := time } := by
  induction l generalizing w with
  | nil => exact ⟨_, _, _, rfl⟩
  | cons e l ih =>
    obtain ⟨running, vote, time, hw⟩ := ih (e.apply w)
    refine ⟨running, vote, time, hw.trans ?_⟩
    cases e <;> rfl

/-- A property that survives missed slots holds until the head moves to the block. -/
theorem update_global_dynamic_data_rule {P : State → Prop}
    (hmiss : ∀ {t : State} (id : WitnessId) (key : Witness → Option PublicKey), P t →
      P (t.modifyWitness id fun w => { w with
        total_missed := w.total_missed + 1
        signing_key := key w }))
    (hs : P s) (h : update_global_dynamic_data s b = .ok s') :
    ∃ t, P t ∧ s' = { t with
      head_block_num := b.block_num
      head_block_id := b.id
      head_block_time := b.timestamp
      current_aslot := t.current_aslot +
        (if s.head_block_time = 0 then 0 else get_slot_at_time s b.timestamp - 1) + 1 } := by
  obtain ⟨t, ht, h⟩ := bind_ok.1 h
  replace h := ok_of_check h
  refine ⟨t, foldlM_rule (P := P) (fun {u u' i} hu hstep => ?_) hs ht, (Except.ok.inj h).symm⟩
  obtain ⟨⟨w, id⟩, -, hstep⟩ := bind_ok.1 hstep
  dsimp only at hstep
  split at hstep
  · exact Except.ok.inj hstep ▸ hu
  · exact Except.ok.inj hstep ▸ hmiss id _ hu

theorem update_last_irreversible_block_rest (h : update_last_irreversible_block s = .ok s') :
    s' = { s with last_irreversible_block_num := s'.last_irreversible_block_num } := by
  unfold update_last_irreversible_block at h
  split at h
  · split at h <;> cases h <;> rfl
  · obtain ⟨l, -, h⟩ := bind_ok.1 h
    dsimp only at h
    split at h <;> cases h <;> rfl

end Blocks

section Tables

variable {s s' : State}

/-- The witness without its place in virtual time. -/
def Witness.untimed (w : Witness) : Witness :=
  { w with virtual_last_update := 0, virtual_position := 0, virtual_scheduled_time := 0 }

theorem Witness.eq_of_untimed {w w' : Witness} (h : w'.untimed = w.untimed) :
    w'.owner = w.owner ∧ w'.signing_key = w.signing_key ∧ w'.schedule = w.schedule ∧
      w'.votes = w.votes := by
  simp only [Witness.untimed, Witness.mk.injEq] at h
  simp only [h, and_self]

structure SameButTimes (s s' : State) : Prop where
  witnesses : s'.witnesses.map Witness.untimed = s.witnesses.map Witness.untimed
  rest : s' = { s with
    witnesses := s'.witnesses
    wso := { s.wso with current_virtual_time := s'.wso.current_virtual_time } }

theorem SameButTimes.refl (s : State) : SameButTimes s s := ⟨rfl, rfl⟩

theorem SameButTimes.trans {s'' : State} (h : SameButTimes s s') (h' : SameButTimes s' s'') :
    SameButTimes s s'' where
  witnesses := h'.witnesses.trans h.witnesses
  rest := h'.rest.trans <| congrArg (fun t : State => { t with
    witnesses := s''.witnesses
    wso := { t.wso with current_virtual_time := s''.wso.current_virtual_time } }) h.rest

theorem map_modifyWitness {α : Type} {id : WitnessId} {f : Witness → Witness} {g : Witness → α}
    (h : ∀ w, g (f w) = g w) : (s.modifyWitness id f).witnesses.map g = s.witnesses.map g := by
  refine List.ext_getElem? fun i => ?_
  simp only [State.modifyWitness, List.getElem?_map, List.getElem?_modify]
  cases s.witnesses[i]? with
  | none => rfl
  | some w => by_cases hi : id = i <;> simp [hi, h]

theorem SameButTimes.modifyWitness {id : WitnessId} {f : Witness → Witness}
    (h : ∀ w, (f w).untimed = w.untimed) : SameButTimes s (s.modifyWitness id f) :=
  ⟨map_modifyWitness h, rfl⟩

theorem SameButTimes.advanceProcessed {l : List (Witness × WitnessId)} {reset : Bool}
    (h : advanceProcessed time s l = .ok (s', reset)) : SameButTimes s s' := by
  induction l generalizing s with
  | nil =>
    obtain ⟨rfl, -⟩ := Prod.mk.inj (Except.ok.inj h)
    exact .refl s
  | cons w l ih =>
    obtain ⟨lap, -, h⟩ := bind_ok.1 h
    dsimp only at h
    split at h
    · obtain ⟨rfl, -⟩ := Prod.mk.inj (Except.ok.inj h)
      exact .refl s
    · refine SameButTimes.trans ?_ (ih h)
      exact .modifyWitness fun _ => rfl

theorem Witness.untimed_resetTime {w w' : Witness} (h : w.resetTime = .ok w') :
    w'.untimed = w.untimed := by
  obtain ⟨time, -, h⟩ := bind_ok.1 h
  cases h
  rfl

theorem SameButTimes.reset_virtual_schedule_time (h : reset_virtual_schedule_time s = .ok s') :
    SameButTimes s s' := by
  obtain ⟨l, hl, h⟩ := bind_ok.1 h
  cases h
  refine ⟨?_, rfl⟩
  have hall := mapM_eq_ok.1 hl
  clear hl h
  generalize s.witnesses = witnesses at hall
  induction hall with
  | nil => rfl
  | cons hw _ ih => exact congrArg₂ List.cons (Witness.untimed_resetTime hw) ih

theorem SameButTimes.advanceTimes {r : Runners} (h : advanceTimes s r = .ok (s', time)) :
    SameButTimes s s' := by
  obtain ⟨⟨s1, reset⟩, h1, h⟩ := bind_ok.1 h
  have hadvanced := SameButTimes.advanceProcessed h1
  dsimp only at h
  split at h
  · obtain ⟨s2, h2, h⟩ := bind_ok.1 h
    obtain ⟨rfl, -⟩ := Prod.mk.inj (Except.ok.inj h)
    exact hadvanced.trans (.reset_virtual_schedule_time h2)
  · obtain ⟨rfl, -⟩ := Prod.mk.inj (Except.ok.inj h)
    exact hadvanced

theorem getElem?_markScheduled (s : State) (ids : List WitnessId) (schedule : ScheduleType)
    (i : WitnessId) : (markScheduled s ids schedule).witnesses[i]? =
      s.witnesses[i]?.map fun w => if i ∈ ids then { w with schedule } else w := by
  induction ids generalizing s with
  | nil => simp [markScheduled]
  | cons id ids ih =>
    have hstep := ih (s.modifyWitness id fun w => { w with schedule })
    rw [State.modifyWitness, List.getElem?_modify] at hstep
    refine hstep.trans ?_
    cases s.witnesses[i]? with
    | none => rfl
    | some w => by_cases hi : i = id <;> by_cases hmem : i ∈ ids <;> simp [hi, hmem, Ne.symm]

theorem markScheduled_rest (s : State) (ids : List WitnessId) (schedule : ScheduleType) :
    markScheduled s ids schedule =
      { s with witnesses := (markScheduled s ids schedule).witnesses } := by
  induction ids generalizing s with
  | nil => rfl
  | cons id ids ih => exact ih (s.modifyWitness id fun w => { w with schedule })

/-- The table with the witnesses of the next round marked. -/
def marked (s : State) : State :=
  markScheduled (markScheduled s ((selectVoted s).map (·.2)) .top19)
    ((selectRunners s).timeshare.map (·.2)) .timeshare

theorem marked_rest (s : State) : marked s = { s with witnesses := (marked s).witnesses } :=
  (markScheduled_rest _ _ _).trans <|
    congrArg (fun t : State => { t with witnesses := (marked s).witnesses })
      (markScheduled_rest s ((selectVoted s).map (·.2)) .top19)

/-- How the witness is scheduled in the next round. -/
def nextSchedule (s : State) (i : WitnessId) (old : ScheduleType) : ScheduleType :=
  if i ∈ (selectRunners s).timeshare.map (·.2) then .timeshare
  else if i ∈ (selectVoted s).map (·.2) then .top19
  else old

theorem getElem?_marked (s : State) (i : WitnessId) : (marked s).witnesses[i]? =
    s.witnesses[i]?.map fun w => { w with schedule := nextSchedule s i w.schedule } := by
  rw [marked, getElem?_markScheduled, getElem?_markScheduled]
  cases s.witnesses[i]? with
  | none => rfl
  | some w =>
    simp only [Option.map_some, nextSchedule]
    split <;> split <;> rfl

end Tables

section Round

variable {s s' : State}

theorem countVersions_rest (h : countVersions s = .ok s') : s' = { s with
    wso := { s.wso with majority_version := s'.wso.majority_version }
    next_hardfork := s'.next_hardfork
    next_hardfork_time := s'.next_hardfork_time } := by
  obtain ⟨l, -, h⟩ := bind_ok.1 h
  dsimp only at h
  split at h
  all_goals
    cases h
    rfl

/-- Of the state around the table only the virtual time changes with the times of the witnesses. -/
theorem advanceTimes_marked_rest {s1 : State} {r : Runners}
    (h : advanceTimes (marked s) r = .ok (s1, time)) : s1 = { s with
      witnesses := s1.witnesses
      wso := { s.wso with current_virtual_time := s1.wso.current_virtual_time } } :=
  (SameButTimes.advanceTimes h).rest.trans <| congrArg (fun t : State => { t with
    witnesses := s1.witnesses
    wso := { t.wso with current_virtual_time := s1.wso.current_virtual_time } }) (marked_rest s)

theorem update_witness_schedule4_steps (h : update_witness_schedule4 s = .ok s') :
    ∃ s1 s2 time props, advanceTimes (marked s) (selectRunners s) = .ok (s1, time) ∧
      (active s).length = min STEEMIT_MAX_WITNESSES s1.witnesses.length ∧
      countVersions s1 = .ok s2 ∧
      s2 = { s with
        witnesses := s1.witnesses
        wso := { s.wso with
          current_virtual_time := s1.wso.current_virtual_time
          majority_version := s2.wso.majority_version }
        next_hardfork := s2.next_hardfork
        next_hardfork_time := s2.next_hardfork_time } ∧
      s' = { writeSchedule s2 time (selectVoted s).length ((active s).map (·.1.owner)) with
        wso := { (writeSchedule s2 time (selectVoted s).length ((active s).map (·.1.owner))).wso with
          median_props := props }
        maximum_block_size := props.maximum_block_size
        sbd_interest_rate := props.sbd_interest_rate } := by
  obtain ⟨⟨s1, time⟩, h1, h⟩ := bind_ok.1 h
  obtain ⟨hcount, h⟩ := check_bind_ok.1 h
  obtain ⟨s2, h2, h⟩ := bind_ok.1 h
  obtain ⟨l, -, h⟩ := bind_ok.1 h
  rw [beq_iff_eq, List.length_map] at hcount
  refine ⟨s1, s2, time, _, h1, hcount, h2, ?_, (Except.ok.inj h).symm⟩
  refine (countVersions_rest h2).trans ?_
  rw [advanceTimes_marked_rest h1]

end Round

end Calibrd.Chain.Schedule
