import Calibrd.Chain.ScheduleSteps

/-!
# What the steps of a block do to the witness table

`Written` is what all writes outside the schedule have in common: witnesses are added, nobody loses a
name, and the schedule stays. `Rescheduled` is what `update_witness_schedule4` does when it returns.

`Ordered` is the invariant of the table and the schedule: names are unique, the scheduled names are
distinct and registered, and no number of votes makes a lap of the virtual schedule divide by zero.
-/

namespace Calibrd.Chain.Schedule

open Calibrd.Lib

/-- The lap length can be divided by `votes + 1`. -/
def Witness.VotesOk (w : Witness) : Prop := BitVec.ofInt 128 (w.votes + 1) ≠ 0

instance (w : Witness) : Decidable w.VotesOk :=
  inferInstanceAs (Decidable (BitVec.ofInt 128 (w.votes + 1) ≠ 0))

theorem Witness.votesOk_of_zero {w : Witness} (h : w.votes = 0) : w.VotesOk := by
  rw [VotesOk, h]
  decide

section Tables

structure SameTable (l l' : List Witness) : Prop where
  owners : l'.map (·.owner) = l.map (·.owner)
  votes : (∀ w ∈ l, w.VotesOk) → ∀ w ∈ l', w.VotesOk

variable {l l' l'' : List Witness} {f : Witness → Witness} {id : WitnessId}

theorem SameTable.refl (l : List Witness) : SameTable l l := ⟨rfl, fun h => h⟩

theorem SameTable.trans (h : SameTable l l') (h' : SameTable l' l'') : SameTable l l'' :=
  ⟨h'.owners.trans h.owners, fun hl => h'.votes (h.votes hl)⟩

theorem SameTable.length_eq (h : SameTable l l') : l'.length = l.length := by
  rw [← List.length_map (f := fun w : Witness => w.owner), h.owners, List.length_map]

theorem SameTable.of_forall₂ (h : List.Forall₂ (fun w w' : Witness =>
    w'.owner = w.owner ∧ (w.VotesOk → w'.VotesOk)) l l') : SameTable l l' := by
  induction h with
  | nil => exact .refl []
  | @cons w w' l l' hw _ ih =>
    refine ⟨?_, ?_⟩
    · rw [List.map_cons, List.map_cons, ih.owners, hw.1]
    · intro hl
      obtain ⟨hfirst, hrest⟩ := List.forall_mem_cons.1 hl
      exact List.forall_mem_cons.2 ⟨hw.2 hfirst, ih.votes hrest⟩

theorem SameTable.map
    (h : ∀ w : Witness, (f w).owner = w.owner ∧ (w.VotesOk → (f w).VotesOk)) :
    SameTable l (l.map f) :=
  .of_forall₂ (List.forall₂_map_right_iff.2 (List.forall₂_same.2 fun w _ => h w))

theorem SameTable.modify
    (h : ∀ w, l[id]? = some w → (f w).owner = w.owner ∧ (w.VotesOk → (f w).VotesOk)) :
    SameTable l (l.modify id f) := by
  refine .of_forall₂ ?_
  induction l generalizing id with
  | nil =>
    rw [List.modify_nil]
    exact .nil
  | cons w l ih =>
    cases id with
    | zero =>
      rw [List.modify_zero_cons]
      exact .cons (h w rfl) (List.forall₂_same.2 fun _ _ => ⟨rfl, fun hv => hv⟩)
    | succ id =>
      rw [List.modify_succ_cons]
      exact .cons ⟨rfl, fun hv => hv⟩ (ih h)

end Tables

structure SameWitnesses (s s' : State) : Prop where
  table : SameTable s.witnesses s'.witnesses
  names : s'.wso.current_shuffled_witnesses = s.wso.current_shuffled_witnesses
  max_voted : s'.wso.max_voted_witnesses = s.wso.max_voted_witnesses

namespace SameWitnesses

variable {s s' s'' : State}

theorem refl (s : State) : SameWitnesses s s := ⟨.refl _, rfl, rfl⟩

theorem trans (h : SameWitnesses s s') (h' : SameWitnesses s' s'') : SameWitnesses s s'' where
  table := h.table.trans h'.table
  names := h'.names.trans h.names
  max_voted := h'.max_voted.trans h.max_voted

theorem modifyWitness {id : WitnessId} {f : Witness → Witness}
    (h : ∀ w, s.witnesses[id]? = some w → (f w).owner = w.owner ∧ (w.VotesOk → (f w).VotesOk)) :
    SameWitnesses s (s.modifyWitness id f) :=
  ⟨.modify h, rfl, rfl⟩

/-- Virtual times do not count. -/
theorem of_times (h : SameButTimes s s') : SameWitnesses s s' where
  table := by
    have hall := h.witnesses.symm
    rw [← List.forall₂_eq_eq_eq, List.forall₂_map_left_iff, List.forall₂_map_right_iff] at hall
    refine .of_forall₂ (hall.imp fun w w' hw => ?_)
    obtain ⟨howner, -, -, hvotes⟩ := Witness.eq_of_untimed hw.symm
    refine ⟨howner, fun hv => ?_⟩
    rwa [Witness.VotesOk, hvotes]
  names := congrArg (·.wso.current_shuffled_witnesses) h.rest
  max_voted := congrArg (·.wso.max_voted_witnesses) h.rest

end SameWitnesses

structure Written (s s' : State) : Prop where
  table : ∃ new, s'.owners = s.owners ++ new
  owners : s.owners.Nodup → s'.owners.Nodup
  votes : (∀ w ∈ s.witnesses, w.VotesOk) → ∀ w ∈ s'.witnesses, w.VotesOk
  names : s'.wso.current_shuffled_witnesses = s.wso.current_shuffled_witnesses
  max_voted : s'.wso.max_voted_witnesses = s.wso.max_voted_witnesses ∨
    s'.wso.max_voted_witnesses = STEEMIT_MAX_VOTED_WITNESSES_HF17

namespace Written

variable {s s' s'' : State}

theorem trans (h : Written s s') (h' : Written s' s'') : Written s s'' where
  table := by
    obtain ⟨new, hnew⟩ := h.table
    obtain ⟨new', hnew'⟩ := h'.table
    exact ⟨new ++ new', by rw [hnew', hnew, List.append_assoc]⟩
  owners hs := h'.owners (h.owners hs)
  votes hs := h'.votes (h.votes hs)
  names := h'.names.trans h.names
  max_voted := h'.max_voted.elim (fun heq => heq ▸ h.max_voted) .inr

theorem of_same (h : SameWitnesses s s') : Written s s' := by
  have howners : s'.owners = s.owners := h.table.owners
  refine ⟨⟨[], by rw [howners, List.append_nil]⟩, fun hs => ?_, h.table.votes, h.names, .inl h.max_voted⟩
  rw [howners]
  exact hs

theorem refl (s : State) : Written s s := of_same (.refl s)

theorem modifyWitness {id : WitnessId} {f : Witness → Witness}
    (h : ∀ w, s.witnesses[id]? = some w → (f w).owner = w.owner ∧ (w.VotesOk → (f w).VotesOk)) :
    Written s (s.modifyWitness id f) :=
  of_same (.modifyWitness h)

theorem createWitness {w : Witness} (hname : w.owner ∉ s.owners) (hvotes : w.votes = 0) :
    Written s (s.createWitness w) := by
  have howners : (s.createWitness w).owners = s.owners ++ [w.owner] := by
    rw [State.owners, State.createWitness, List.map_append, List.map_singleton]
    rfl
  refine ⟨⟨[w.owner], howners⟩, fun hs => ?_, fun hs => ?_, rfl, .inl rfl⟩
  · rw [howners]
    exact hs.append (List.nodup_singleton _) (List.disjoint_singleton.2 hname)
  · exact List.forall_mem_append.2
      ⟨hs, List.forall_mem_singleton.2 (Witness.votesOk_of_zero hvotes)⟩

end Written

variable {w : Witness × WitnessId} {b : Block}

section Steps

variable {s s' : State}

theorem divide_ok {n : ℤ} (a : BitVec 128) (h : BitVec.ofInt 128 n ≠ 0) :
    ∃ r, divide a n = .ok r :=
  ⟨_, check_bind_ok.2 ⟨bne_iff_ne.2 h, rfl⟩⟩

theorem Written.accounts (s : State) (accounts : List AccountName) :
    Written s { s with accounts } :=
  .of_same ⟨.refl _, rfl, rfl⟩

theorem Witness.adjust_spec {w w' : Witness} {delta : ℤ} (h : w.adjust s delta = .ok w') :
    w'.owner = w.owner ∧ w'.VotesOk := by
  replace h := ok_of_check h
  obtain ⟨rest, hrest, h⟩ := bind_ok.1 h
  cases h
  exact ⟨rfl, bne_iff_ne.1 (check_bind_ok.1 hrest).1⟩

theorem Written.adjust {id : WitnessId} {delta : ℤ} {v v' : Witness} (hv : s.witnesses[id]? = some v)
    (h : v.adjust s delta = .ok v') : Written s (s.modifyWitness id fun _ => v') := by
  obtain ⟨howner, hvotes⟩ := Witness.adjust_spec h
  refine .modifyWitness fun w hw => ?_
  cases hv.symm.trans hw
  exact ⟨howner, fun _ => hvotes⟩

theorem Written.retally_witness_votes {ballots : List (WitnessId × ℤ)}
    (h : retally_witness_votes s ballots = .ok s') : Written s s' := by
  refine retally_rule (.of_same ⟨.map fun _ => ⟨rfl, fun _ => ?_⟩, rfl, rfl⟩)
    (fun ht hv hadjust => ht.trans (.adjust hv hadjust)) h
  exact Witness.votesOk_of_zero rfl

theorem Written.hardforkChanges {ballots : List (WitnessId × ℤ)} {hardfork : ℕ}
    (h : hardforkChanges s ballots hardfork = .ok s') : Written s s' := by
  unfold Schedule.hardforkChanges at h
  split at h
  · exact .retally_witness_votes h
  · exact .retally_witness_votes h
  · exact .of_same (.of_times (.reset_virtual_schedule_time h))
  · cases h
    exact { Written.refl s with max_voted := .inr rfl }
  · cases h
    exact .refl s

theorem Write.written {w : Write} (h : w.apply s = .ok s') : Written s s' := by
  cases Write.wrote h with
  | accounts accounts => exact .accounts s accounts
  | update => exact .modifyWitness fun _ _ => ⟨rfl, fun hv => hv⟩
  | create accounts key props hname =>
    exact (Written.accounts s accounts).trans (.createWitness hname rfl)
  | adjust hv hadjust => exact .adjust hv hadjust
  | total => exact { Written.refl s with }
  | @hardfork s1 _ _ h1 => exact (Written.hardforkChanges h1).trans { Written.refl s1 with }

theorem Written.applyWrites {writes : List Write} (h : applyWrites s writes = .ok s') :
    Written s s' :=
  foldlM_rule (P := Written s) (fun hb hstep => hb.trans (Write.written hstep)) (.refl s) h

theorem Written.process_header_extensions (s : State) (b : Block) (id : WitnessId) :
    Written s (process_header_extensions s b id) := by
  refine .modifyWitness fun w _ => ?_
  obtain ⟨_, _, _, hw⟩ := Extension.foldl_eq b.extensions w
  rw [hw]
  exact ⟨rfl, fun hv => hv⟩

/-- The head of the chain moves to the block, the table is written to as before. -/
theorem update_global_dynamic_data_spec (h : update_global_dynamic_data s b = .ok s') :
    ∃ t, Written s t ∧ s'.witnesses = t.witnesses ∧ s'.wso = t.wso := by
  obtain ⟨t, ht, rfl⟩ := update_global_dynamic_data_rule (P := Written s)
    (fun _ _ hu => hu.trans (.modifyWitness fun _ _ => ⟨rfl, fun hv => hv⟩)) (.refl s) h
  exact ⟨t, ht, rfl, rfl⟩

end Steps

section Reschedule

variable {s s' : State}

theorem SameWitnesses.markScheduled (s : State) (ids : List WitnessId) (schedule : ScheduleType) :
    SameWitnesses s (markScheduled s ids schedule) := by
  induction ids generalizing s with
  | nil => exact .refl s
  | cons id ids ih =>
    refine SameWitnesses.trans ?_ (ih (s.modifyWitness id fun w => { w with schedule }))
    exact .modifyWitness fun _ _ => ⟨rfl, fun hv => hv⟩

theorem SameWitnesses.marked (s : State) : SameWitnesses s (marked s) :=
  (markScheduled s _ .top19).trans (markScheduled _ _ .timeshare)

theorem advanceProcessed_ok {l : List (Witness × WitnessId)} (h : ∀ w ∈ l, w.1.VotesOk) :
    ∃ r, advanceProcessed time s l = .ok r := by
  induction l generalizing s with
  | nil => exact ⟨_, rfl⟩
  | cons w l ih =>
    obtain ⟨lap, hlap⟩ := divide_ok VIRTUAL_SCHEDULE_LAP_LENGTH2 (h w List.mem_cons_self)
    rw [advanceProcessed, hlap]
    by_cases hover : time + lap < time
    · exact ⟨_, if_pos hover⟩
    · obtain ⟨r, hr⟩ := ih fun v hv => h v (List.mem_cons_of_mem w hv)
      exact ⟨r, (if_neg hover).trans hr⟩

theorem reset_virtual_schedule_time_ok (h : ∀ w ∈ s.witnesses, w.VotesOk) :
    ∃ s', reset_virtual_schedule_time s = .ok s' := by
  have hone : ∀ w ∈ s.witnesses, ∃ w', w.resetTime = .ok w' := by
    intro w hw
    obtain ⟨time, htime⟩ := divide_ok VIRTUAL_SCHEDULE_LAP_LENGTH2 (h w hw)
    exact ⟨_, bind_ok.2 ⟨time, htime, rfl⟩⟩
  obtain ⟨l, hl⟩ := exists_mapM_eq_ok hone
  exact ⟨_, bind_ok.2 ⟨l, hl, rfl⟩⟩

theorem advanceTimes_ok {r : Runners} (hs : ∀ w ∈ s.witnesses, w.VotesOk)
    (hr : ∀ w ∈ r.processed, w.1.VotesOk) : ∃ res, advanceTimes s r = .ok res := by
  obtain ⟨⟨s1, reset⟩, h1⟩ := advanceProcessed_ok hr
  cases reset with
  | false => exact ⟨_, bind_ok.2 ⟨_, h1, rfl⟩⟩
  | true =>
    obtain ⟨s2, h2⟩ :=
      reset_virtual_schedule_time_ok ((SameWitnesses.of_times (.advanceProcessed h1)).table.votes hs)
    exact ⟨_, bind_ok.2 ⟨_, h1, bind_ok.2 ⟨s2, h2, rfl⟩⟩⟩

theorem countVersions_ok (h : ∀ name ∈ s.wso.current_shuffled_witnesses.toList, name ∈ s.owners) :
    ∃ s', countVersions s = .ok s' := by
  obtain ⟨l, hl⟩ := scheduledWitnesses_ok h
  rw [countVersions, hl]
  dsimp only [Except.bind, bind]
  split
  · exact ⟨_, rfl⟩
  · exact ⟨_, rfl⟩

theorem update_median_witness_props_ok
    (h : ∀ name ∈ s.wso.current_shuffled_witnesses.toList, name ∈ s.owners) :
    ∃ s', update_median_witness_props s = .ok s' := by
  obtain ⟨l, hl⟩ := scheduledWitnesses_ok h
  exact ⟨_, bind_ok.2 ⟨l, hl, rfl⟩⟩

theorem swapRound_perm (now_hi : UInt64) (names : Array AccountName) (i : ℕ) :
    (swapRound now_hi names i).Perm names := by
  rw [swapRound, Array.swapIfInBounds_def]
  split
  · split
    · exact Array.swap_perm _ _
    · exact .refl _
  · exact .refl _

theorem shuffle_perm (now_hi : UInt64) (names : Array AccountName) :
    (shuffle now_hi names).Perm names := by
  rw [shuffle]
  generalize List.range names.size = rounds
  induction rounds generalizing names with
  | nil => exact .refl _
  | cons i rounds ih => exact (ih (swapRound now_hi names i)).trans (swapRound_perm now_hi names i)

theorem scheduleNames_toList {names : List AccountName} (h : names ≠ []) :
    (scheduleNames names).toList = names := by
  rw [scheduleNames, if_neg]
  rwa [List.isEmpty_iff]

/-- What `update_witness_schedule4` does: new names in the schedule, in any order. -/
structure Rescheduled (s s' : State) : Prop where
  count : (active s).length = min STEEMIT_MAX_WITNESSES s.witnesses.length
  table : SameTable s.witnesses s'.witnesses
  names : active s ≠ [] →
    s'.wso.current_shuffled_witnesses.toList.Perm ((active s).map (·.1.owner))
  max_voted : s'.wso.max_voted_witnesses = s.wso.max_voted_witnesses

/-- The names that `writeSchedule` puts into the schedule. -/
theorem writeSchedule_names (s : State) (time : BitVec 128) (num_elected : ℕ)
    {names : List AccountName} (h : names ≠ []) :
    (writeSchedule s time num_elected names).wso.current_shuffled_witnesses.toList.Perm names := by
  have hperm := Array.perm_iff_toList_perm.1
    (shuffle_perm (UInt64.ofNat s.head_block_time <<< 32) (scheduleNames names))
  rwa [scheduleNames_toList h] at hperm

theorem Rescheduled.of_ok (h : update_witness_schedule4 s = .ok s') : Rescheduled s s' := by
  obtain ⟨s1, s2, time, props, h1, hcount, -, hrest, rfl⟩ := update_witness_schedule4_steps h
  have htable := ((SameWitnesses.marked s).trans (.of_times (.advanceTimes h1))).table
  refine ⟨hcount.trans (by rw [htable.length_eq]), ?_, fun hne => ?_, ?_⟩
  · rw [hrest]
    exact htable
  · exact writeSchedule_names s2 time (selectVoted s).length (List.map_eq_nil_iff.not.2 hne)
  · rw [hrest]
    rfl

theorem owner_mem_of_zipIdx (h : w ∈ s.witnesses.zipIdx) :
    w.1.owner ∈ s.owners := by
  rw [List.mem_zipIdx_iff_getElem?] at h
  exact List.mem_map_of_mem (List.mem_of_getElem? h)

/-- The schedule is rebuilt if its count is right; nothing else can fail. -/
theorem update_witness_schedule4_ok (hvotes : ∀ w ∈ s.witnesses, w.VotesOk)
    (hnames : ∀ name ∈ s.wso.current_shuffled_witnesses.toList, name ∈ s.owners)
    (hne : active s ≠ []) (hcount : (active s).length = min STEEMIT_MAX_WITNESSES s.witnesses.length) :
    ∃ s', update_witness_schedule4 s = .ok s' := by
  have hmarked := SameWitnesses.marked s
  obtain ⟨⟨s1, time⟩, h1⟩ := advanceTimes_ok (hmarked.table.votes hvotes)
    fun w hw => hvotes _
      (List.mem_of_getElem? (List.mem_zipIdx_iff_getElem?.1 (mem_processed hw)))
  have hsame1 := hmarked.trans (.of_times (.advanceTimes h1))
  have howners1 : s1.owners = s.owners := hsame1.table.owners
  obtain ⟨s2, h2⟩ : ∃ s2, countVersions s1 = .ok s2 := by
    refine countVersions_ok fun name hname => ?_
    rw [howners1]
    rw [hsame1.names] at hname
    exact hnames name hname
  have howners2 : s2.owners = s.owners := by
    rw [countVersions_rest h2]
    exact howners1
  obtain ⟨s3, h3⟩ : ∃ s3, update_median_witness_props (writeSchedule s2 time (selectVoted s).length
      ((active s).map (·.1.owner))) = .ok s3 := by
    refine update_median_witness_props_ok fun name hname => ?_
    rw [(writeSchedule_names _ _ _ (List.map_eq_nil_iff.not.2 hne)).mem_iff] at hname
    obtain ⟨w, hw, rfl⟩ := List.mem_map.1 hname
    have hmem := owner_mem_of_zipIdx (mem_active hw).1
    rw [← howners2] at hmem
    exact hmem
  refine ⟨s3, bind_ok.2 ⟨_, h1, check_bind_ok.2 ⟨?_, bind_ok.2 ⟨s2, h2, h3⟩⟩⟩⟩
  rw [beq_iff_eq, List.length_map, hsame1.table.length_eq]
  exact hcount

end Reschedule

/-- The invariant of the witness table and the schedule. -/
structure Ordered (s : State) : Prop where
  owners : s.owners.Nodup
  votes : ∀ w ∈ s.witnesses, w.VotesOk
  registered : ∀ name ∈ s.wso.current_shuffled_witnesses.toList, name ∈ s.owners
  distinct : s.wso.current_shuffled_witnesses.toList.Nodup
  nonempty : s.wso.current_shuffled_witnesses.toList ≠ []
  max_voted : s.wso.max_voted_witnesses ≤ STEEMIT_MAX_WITNESSES

namespace Ordered

variable {s s' : State}

section

variable (hs : Ordered s)

include hs

theorem written (h : Written s s') : Ordered s' where
  owners := h.owners hs.owners
  votes := h.votes hs.votes
  registered name hname := by
    rw [h.names] at hname
    obtain ⟨new, hnew⟩ := h.table
    rw [hnew]
    exact List.mem_append_left _ (hs.registered name hname)
  distinct := by
    rw [h.names]
    exact hs.distinct
  nonempty := by
    rw [h.names]
    exact hs.nonempty
  max_voted := h.max_voted.elim (fun heq => heq ▸ hs.max_voted) fun heq => heq ▸ by decide

theorem eq_of_owner {a b : Witness × WitnessId} (ha : a ∈ s.witnesses.zipIdx)
    (hb : b ∈ s.witnesses.zipIdx) (h : a.1.owner = b.1.owner) : a = b := by
  have hget : ∀ {w : Witness × WitnessId}, w ∈ s.witnesses.zipIdx →
      s.owners[w.2]? = some w.1.owner := by
    intro w hw
    rw [State.owners, List.getElem?_map, List.mem_zipIdx_iff_getElem?.1 hw, Option.map_some]
  obtain ⟨hlt, -⟩ := List.getElem?_eq_some_iff.1 (hget ha)
  exact eq_of_id ha hb ((List.getElem?_inj hlt hs.owners).1 (by rw [hget ha, hget hb, h]))

theorem active_ne_nil (hcount : (active s).length = min STEEMIT_MAX_WITNESSES s.witnesses.length) :
    active s ≠ [] := by
  obtain ⟨name, hname⟩ := List.exists_mem_of_ne_nil _ hs.nonempty
  have hpos : 0 < s.witnesses.length := by
    rw [← List.length_map (f := fun w : Witness => w.owner)]
    exact List.length_pos_of_mem (hs.registered name hname)
  refine List.ne_nil_of_length_pos ?_
  rw [hcount]
  exact lt_min (by decide) hpos

theorem rescheduled (h : Rescheduled s s') : Ordered s' := by
  have hnames := h.names (hs.active_ne_nil h.count)
  have howners : s'.owners = s.owners := h.table.owners
  refine ⟨?_, h.table.votes hs.votes, ?_, ?_, ?_, ?_⟩
  · rw [howners]
    exact hs.owners
  · intro name hname
    obtain ⟨w, hw, rfl⟩ := List.mem_map.1 (hnames.mem_iff.1 hname)
    rw [howners]
    exact owner_mem_of_zipIdx (mem_active hw).1
  · refine hnames.nodup_iff.2 (List.Nodup.map_on ?_ (active_nodup s))
    intro a ha b hb hab
    exact hs.eq_of_owner (mem_active ha).1 (mem_active hb).1 hab
  · intro hnil
    rw [hnil] at hnames
    exact hs.active_ne_nil h.count (List.map_eq_nil_iff.1 hnames.nil_eq.symm)
  · rw [h.max_voted]
    exact hs.max_voted

/-- The head and the last irreversible block do not matter. -/
theorem congr (hwitnesses : s'.witnesses = s.witnesses) (hwso : s'.wso = s.wso) :
    Ordered s' := by
  obtain ⟨howners, hvotes, hregistered, hdistinct, hnonempty, hmax⟩ := hs
  refine ⟨?_, ?_, ?_, ?_, ?_, ?_⟩
  · rwa [State.owners, hwitnesses]
  · rwa [hwitnesses]
  · rwa [hwso, State.owners, hwitnesses]
  · rwa [hwso]
  · rwa [hwso]
  · rwa [hwso]

theorem update_signing_witness (id : WitnessId) (b : Block) :
    Ordered (update_signing_witness s id b) :=
  hs.written (.modifyWitness fun _ _ => ⟨rfl, fun hv => hv⟩)

theorem update_global_dynamic_data (h : update_global_dynamic_data s b = .ok s') :
    Ordered s' := by
  obtain ⟨t, ht, hwitnesses, hwso⟩ := update_global_dynamic_data_spec h
  exact (hs.written ht).congr hwitnesses hwso

theorem update_last_irreversible_block
    (h : update_last_irreversible_block s = .ok s') : Ordered s' := by
  rw [update_last_irreversible_block_rest h]
  exact hs.congr rfl rfl

theorem update_witness_schedule (h : update_witness_schedule s = .ok s') :
    Ordered s' := by
  unfold Schedule.update_witness_schedule at h
  split at h
  · exact hs.rescheduled (.of_ok h)
  · cases h
    exact hs

end

theorem genesis (accounts : List AccountName) (init_miner : AccountName) (init_key : PublicKey) :
    Ordered (genesis accounts init_miner init_key) where
  owners := List.nodup_singleton init_miner
  votes w hw := by
    rw [List.mem_singleton.1 hw]
    exact Witness.votesOk_of_zero rfl
  registered _ hname := hname
  distinct := List.nodup_singleton init_miner
  nonempty := List.cons_ne_nil _ _
  max_voted := (by decide : STEEMIT_MAX_VOTED_WITNESSES_HF0 ≤ STEEMIT_MAX_WITNESSES)

end Ordered

end Calibrd.Chain.Schedule
