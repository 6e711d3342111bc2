import Calibrd.Chain.ScheduleRounds

/-!
# Slots

A block fills the slot of `STEEMIT_BLOCK_INTERVAL` seconds that its time stamp is in. Along a chain the
slots of the blocks increase, and `current_aslot` counts the slots since genesis (`OnSlots`).

`recent_slots_filled` has one bit for each of the last 128 slots. The loop that shifts it pushes the
bit of the block first and the missed slots after it, so bit `k` stands for the slot `k + 1` before the
head and never for the head itself (`Window`).
-/

namespace Calibrd.Chain.Schedule

open Calibrd.Lib

def slotOf (time : ℕ) : ℕ := time / STEEMIT_BLOCK_INTERVAL

def genesisSlot : ℕ := slotOf STEEMIT_GENESIS_TIME

/-- The slots that the blocks fill. -/
def slots (blocks : List Block) : List ℕ := blocks.map fun b => slotOf b.timestamp

variable {s s' : State} {b : Block} {maintenance : List Write} {blocks : List Block}

/-! ## Slot times and slot numbers

Slots are counted from the time of the head block, at genesis as it is and later rounded down to its
slot. Slot `n` has begun exactly when its number is reached (`get_slot_time_le_iff`), which makes the
two functions inverse. `get_slot_time` and `get_slot_at_time` are exact; the code computes them in 32
bits, with the same result as long as the exact value fits. -/

section Times

variable {n t : ℕ}

/-- The time of slot 0. -/
def headSlotTime (s : State) : ℕ :=
  if s.head_block_num = 0 then s.head_block_time
  else s.head_block_time / STEEMIT_BLOCK_INTERVAL * STEEMIT_BLOCK_INTERVAL

theorem get_slot_time_eq (hn : 1 ≤ n) :
    get_slot_time s n = headSlotTime s + n * STEEMIT_BLOCK_INTERVAL := by
  rw [get_slot_time, headSlotTime, if_neg (Nat.one_le_iff_ne_zero.1 hn)]
  split <;> rfl

theorem get_slot_time_le_iff (hn : 1 ≤ n) : get_slot_time s n ≤ t ↔ n ≤ get_slot_at_time s t := by
  rw [get_slot_at_time, get_slot_time_eq hn, get_slot_time_eq le_rfl]
  split_ifs with hearly
  · simp only [STEEMIT_BLOCK_INTERVAL] at hearly ⊢
    omega
  · simp only [STEEMIT_BLOCK_INTERVAL] at hearly ⊢
    omega

theorem get_slot_time_succ (hn : 1 ≤ n) : get_slot_time s n < get_slot_time s (n + 1) := by
  rw [get_slot_time_eq hn, get_slot_time_eq (hn.trans n.le_succ)]
  simp only [STEEMIT_BLOCK_INTERVAL]
  omega

theorem get_slot_at_time_get_slot_time (hn : 1 ≤ n) :
    get_slot_at_time s (get_slot_time s n) = n := by
  refine le_antisymm (not_lt.1 fun hlt => ?_) ((get_slot_time_le_iff hn).1 le_rfl)
  have hbegun := (get_slot_time_le_iff (hn.trans n.le_succ)).2 hlt
  exact absurd (get_slot_time_succ hn) (not_lt.2 hbegun)

/-- A time is in its slot. -/
theorem get_slot_time_bounds (ht : get_slot_time s 1 ≤ t) :
    get_slot_time s (get_slot_at_time s t) ≤ t ∧ t < get_slot_time s (get_slot_at_time s t + 1) := by
  have hpos : 1 ≤ get_slot_at_time s t := (get_slot_time_le_iff le_rfl).1 ht
  refine ⟨(get_slot_time_le_iff hpos).2 le_rfl, not_le.1 fun hle => ?_⟩
  exact absurd ((get_slot_time_le_iff (Nat.succ_pos _)).1 hle) (Nat.not_succ_le_self _)

def uint32 (n : ℕ) : ℕ := n % 2 ^ 32

theorem uint32_of_lt (h : n < 2 ^ 32) : uint32 n = n := Nat.mod_eq_of_lt h

/-- `get_slot_time` in the types of the source: the offset and the seconds of a `time_point_sec` are
`uint32_t`. -/
def get_slot_time_uint32 (s : State) (slot_num : ℕ) : ℕ :=
  if slot_num = 0 then 0
  else if s.head_block_num = 0 then
    uint32 (s.head_block_time + uint32 (slot_num * STEEMIT_BLOCK_INTERVAL))
  else
    let head_block_abs_slot := s.head_block_time / STEEMIT_BLOCK_INTERVAL
    let head_slot_time := uint32 (head_block_abs_slot * STEEMIT_BLOCK_INTERVAL)
    uint32 (head_slot_time + uint32 (slot_num * STEEMIT_BLOCK_INTERVAL))

/-- The difference of two times is taken in 64 bits. -/
def get_slot_at_time_uint32 (s : State) (when_ : ℕ) : ℕ :=
  let first_slot_time := get_slot_time_uint32 s 1
  if when_ < first_slot_time then 0
  else uint32 ((when_ - first_slot_time) / STEEMIT_BLOCK_INTERVAL + 1)

theorem get_slot_time_uint32_eq (h : get_slot_time s n < 2 ^ 32) :
    get_slot_time_uint32 s n = get_slot_time s n := by
  unfold get_slot_time_uint32
  unfold get_slot_time at h ⊢
  split_ifs at h ⊢
  · rfl
  · rw [uint32_of_lt (lt_of_le_of_lt (Nat.le_add_left _ _) h), uint32_of_lt h]
  · dsimp only
    rw [uint32_of_lt (lt_of_le_of_lt (Nat.le_add_right _ _) h),
      uint32_of_lt (lt_of_le_of_lt (Nat.le_add_left _ _) h), uint32_of_lt h]

theorem get_slot_at_time_uint32_eq (hfirst : get_slot_time s 1 < 2 ^ 32) (ht : t < 2 ^ 32) :
    get_slot_at_time_uint32 s t = get_slot_at_time s t := by
  rw [get_slot_at_time_uint32, get_slot_at_time, get_slot_time_uint32_eq hfirst]
  split_ifs
  · rfl
  · refine uint32_of_lt ?_
    simp only [STEEMIT_BLOCK_INTERVAL]
    omega

/-- In every state, at genesis or later: the number of the slot that begins at the time of slot `n` is
`n`, every time from the first slot on is in its slot, and times before that are in slot 0. The
hypotheses say that the times that are computed fit in 32 bits. -/
theorem slot_time_and_number_inverse (s : State) :
    (∀ n, 1 ≤ n → get_slot_time s n < 2 ^ 32 →
      get_slot_at_time_uint32 s (get_slot_time_uint32 s n) = n) ∧
    (∀ t < 2 ^ 32, get_slot_time s 1 < 2 ^ 32 → get_slot_time_uint32 s 1 ≤ t →
      get_slot_time_uint32 s (get_slot_at_time_uint32 s t) ≤ t ∧
      (get_slot_time s (get_slot_at_time s t + 1) < 2 ^ 32 →
        t < get_slot_time_uint32 s (get_slot_at_time_uint32 s t + 1))) ∧
    ∀ t, t < get_slot_time_uint32 s 1 → get_slot_at_time_uint32 s t = 0 := by
  refine ⟨fun n hn hfits => ?_, fun t ht hfirst hle => ?_, fun t ht => if_pos ht⟩
  · have hfirst : get_slot_time s 1 ≤ get_slot_time s n := by
      rw [get_slot_time_le_iff le_rfl, get_slot_at_time_get_slot_time hn]
      exact hn
    rw [get_slot_time_uint32_eq hfits, get_slot_at_time_uint32_eq (hfirst.trans_lt hfits) hfits,
      get_slot_at_time_get_slot_time hn]
  · rw [get_slot_time_uint32_eq hfirst] at hle
    obtain ⟨hbegun, hnext⟩ := get_slot_time_bounds hle
    rw [get_slot_at_time_uint32_eq hfirst ht, get_slot_time_uint32_eq (hbegun.trans_lt ht)]
    refine ⟨hbegun, fun hfits => ?_⟩
    rw [get_slot_time_uint32_eq hfits]
    exact hnext

end Times

/-- A head behind the start of its slot. -/
def lateHead : State :=
  { genesis [1] 1 10 with head_block_num := 7, head_block_time := STEEMIT_GENESIS_TIME + 20 }

theorem slot_time_and_number_inverse_lateHead :
    get_slot_at_time_uint32 lateHead (get_slot_time_uint32 lateHead 5) = 5 ∧
    (get_slot_time_uint32 lateHead (get_slot_at_time_uint32 lateHead (STEEMIT_GENESIS_TIME + 29)) ≤
        STEEMIT_GENESIS_TIME + 29 ∧
      STEEMIT_GENESIS_TIME + 29 < get_slot_time_uint32 lateHead
        (get_slot_at_time_uint32 lateHead (STEEMIT_GENESIS_TIME + 29) + 1)) ∧
    get_slot_at_time_uint32 lateHead (STEEMIT_GENESIS_TIME + 20) = 0 := by
  obtain ⟨hnumber, htime, hearly⟩ := slot_time_and_number_inverse lateHead
  have hin := htime (STEEMIT_GENESIS_TIME + 29) (by decide) (by decide) (by decide)
  exact ⟨hnumber 5 (by decide) (by decide), ⟨hin.1, hin.2 (by decide)⟩, hearly _ (by decide)⟩

/-! ## Who moves the head -/

def State.clock (s : State) : ℕ × BlockId × ℕ × ℕ :=
  (s.head_block_num, s.head_block_id, s.head_block_time, s.current_aslot)

theorem applyWrites_clock {writes : List Write} (h : applyWrites s writes = .ok s') :
    s'.clock = s.clock := by
  refine foldlM_rule (P := fun t => t.clock = s.clock) (fun ht hstep => ?_) rfl h
  rw [(Write.frame hstep).1]
  exact ht

theorem update_witness_schedule_clock (h : update_witness_schedule s = .ok s') :
    s'.clock = s.clock := by
  unfold update_witness_schedule at h
  split at h
  · obtain ⟨s1, s2, time, props, -, -, -, hrest, rfl⟩ := update_witness_schedule4_steps h
    rw [hrest]
    rfl
  · cases h
    rfl

/-- An accepted block, by the witness of its slot, moves the head to its slot. -/
structure Extends (s s' : State) (b : Block) : Prop where
  previous : s.head_block_id = b.previous
  slot : 0 < get_slot_at_time s b.timestamp
  signer : ∃ w ∈ s.witnesses, w.signing_key = some b.signee ∧
    w.owner = get_scheduled_witness s (get_slot_at_time s b.timestamp)
  clock : s'.clock =
    (b.block_num, b.id, b.timestamp, s.current_aslot + get_slot_at_time s b.timestamp)

theorem Extends.of_ok (hs : s.head_block_time ≠ 0) (h : apply_block s b maintenance = .ok s') :
    Extends s s' b := by
  simp only [apply_block, bind_ok, exists_check_eq_ok] at h
  obtain ⟨id, hid, _, -, -, s1, h1, s2, h2, u, hu, v, hv, h⟩ := h
  simp only [validate_block_header, bind_ok, exists_check_eq_ok] at hid
  obtain ⟨hprevious, -, ⟨w, id'⟩, hw, hkey, hslot, howner, -⟩ := hid
  have hmem := List.mem_zipIdx_iff_getElem?.1 (get_witness_spec hw).1
  refine ⟨beq_iff_eq.1 hprevious, of_decide_eq_true hslot,
    ⟨w, List.mem_of_getElem? hmem, beq_iff_eq.1 hkey, beq_iff_eq.1 howner⟩, ?_⟩
  have hclock1 : s1.clock = s.clock := (applyWrites_clock h1).trans rfl
  obtain ⟨t, hclock, rfl⟩ := update_global_dynamic_data_rule (P := fun t => t.clock = s.clock)
    (fun _ _ hu => hu) hclock1 h2
  simp only [State.clock, Prod.mk.injEq] at hclock hclock1
  obtain ⟨hnum1, -, htime1, -⟩ := hclock1
  have hsame : get_slot_at_time s1 b.timestamp = get_slot_at_time s b.timestamp := by
    rw [get_slot_at_time, get_slot_at_time, get_slot_time, get_slot_time, hnum1, htime1]
  have hpos := of_decide_eq_true hslot
  rw [applyWrites_clock h, update_witness_schedule_clock hv,
    update_last_irreversible_block_rest hu]
  simp only [State.clock, update_signing_witness, State.modifyWitness, hclock.2.2.2, htime1, if_neg hs,
    hsame, Prod.mk.injEq, true_and]
  omega

/-! ## One block in each slot -/

/-- A slot that a block of the chain fills; those up to genesis count as filled. -/
def Filled (blocks : List Block) (slot : ℕ) : Prop := slot ≤ genesisSlot ∨ slot ∈ slots blocks

structure OnSlots (s : State) (blocks : List Block) : Prop where
  num : s.head_block_num = blocks.length
  id : s.head_block_id.num = s.head_block_num
  first : s.head_block_num = 0 → s.head_block_time = STEEMIT_GENESIS_TIME
  aslot : s.current_aslot + genesisSlot = slotOf s.head_block_time
  sorted : (slots blocks).Pairwise (· < ·)
  bounds : ∀ slot ∈ slots blocks, genesisSlot < slot ∧ slot ≤ slotOf s.head_block_time
  head : Filled blocks (slotOf s.head_block_time)

theorem OnSlots.get_slot_at_time_eq (hs : OnSlots s blocks) (time : ℕ) :
    get_slot_at_time s time = slotOf time - slotOf s.head_block_time := by
  have hfirst := hs.first
  simp only [get_slot_at_time, get_slot_time, slotOf, STEEMIT_GENESIS_TIME, STEEMIT_BLOCK_INTERVAL,
    one_ne_zero, ↓reduceIte] at hfirst ⊢
  split_ifs <;> omega

theorem OnSlots.extend (hs : OnSlots s blocks) (h : Extends s s' b) : OnSlots s' (blocks ++ [b]) := by
  have hclock := h.clock
  have hslot := h.slot
  have haslot := hs.aslot
  rw [hs.get_slot_at_time_eq] at hclock hslot
  simp only [State.clock, Prod.mk.injEq] at hclock
  obtain ⟨hnum, hid, htime, hcurrent⟩ := hclock
  have hslots : slots (blocks ++ [b]) = slots blocks ++ [slotOf b.timestamp] := List.map_append
  have hgenesis : genesisSlot < slotOf b.timestamp := by omega
  have hlast : slotOf b.timestamp ∈ slots blocks ++ [slotOf b.timestamp] :=
    List.mem_append_right _ List.mem_cons_self
  refine ⟨?_, by rw [hid, hnum]; rfl, ?_, by rw [hcurrent, htime]; omega, ?_, ?_, ?_⟩
  · rw [hnum, Block.block_num, ← h.previous, hs.id, hs.num, List.length_append]
    rfl
  · rw [hnum, Block.block_num]
    intro hzero
    omega
  · rw [hslots, List.pairwise_append]
    refine ⟨hs.sorted, List.pairwise_singleton _ _, fun slot hmem slot' hmem' => ?_⟩
    have hbound := hs.bounds slot hmem
    rw [List.mem_singleton.1 hmem']
    omega
  · rw [hslots, htime]
    intro slot hmem
    rcases List.mem_append.1 hmem with hmem | hmem
    · have hbound := hs.bounds slot hmem
      omega
    · rw [List.mem_singleton.1 hmem]
      exact ⟨hgenesis, le_rfl⟩
  · exact .inr (hslots ▸ htime ▸ hlast)

theorem OnSlots.time_ne_zero (hs : OnSlots s blocks) : s.head_block_time ≠ 0 := by
  intro hzero
  have haslot := hs.aslot
  rw [hzero] at haslot
  have hpos : 0 < genesisSlot := by decide
  have hnone : slotOf 0 = 0 := rfl
  omega

section Chains

variable (accounts : List AccountName) (init_miner : AccountName) (init_key : PublicKey)
variable {chain : List (Block × List Write)}

theorem OnSlots.genesis : OnSlots (genesis accounts init_miner init_key) [] :=
  ⟨rfl, rfl, fun _ => rfl, Nat.zero_add _, List.Pairwise.nil, nofun, .inl le_rfl⟩

theorem applyBlocks_append {before after : List (Block × List Write)}
    (h : applyBlocks s (before ++ after) = .ok s') :
    ∃ t, applyBlocks s before = .ok t ∧ applyBlocks t after = .ok s' := by
  rw [applyBlocks, List.foldlM_append] at h
  exact bind_ok.1 h

theorem applyBlocks_onSlots (h : applyBlocks (genesis accounts init_miner init_key) chain = .ok s) :
    OnSlots s (chain.map (·.1)) := by
  induction chain using List.reverseRecOn generalizing s with
  | nil =>
    cases h
    exact .genesis ..
  | append_singleton chain c ih =>
    obtain ⟨t, ht, h⟩ := applyBlocks_append h
    obtain ⟨u, hu, h⟩ := bind_ok.1 h
    cases h
    have ht := ih ht
    rw [List.map_append]
    exact ht.extend (.of_ok ht.time_ne_zero hu)

/-- The slots since genesis that no block filled. -/
def missed (s : State) (blocks : List Block) : Finset ℕ :=
  (Finset.Ioc genesisSlot (slotOf s.head_block_time)).filter (· ∉ slots blocks)

theorem OnSlots.card_missed (hs : OnSlots s blocks) :
    s.current_aslot = s.head_block_num + (missed s blocks).card := by
  have haslot := hs.aslot
  have hmissed : missed s blocks =
      Finset.Ioc genesisSlot (slotOf s.head_block_time) \ (slots blocks).toFinset := by
    ext slot
    simp [missed]
  have hfilled : (slots blocks).toFinset ⊆ Finset.Ioc genesisSlot (slotOf s.head_block_time) :=
    fun slot hmem => Finset.mem_Ioc.2 (hs.bounds slot (List.mem_toFinset.1 hmem))
  have hcount : (slots blocks).toFinset.card = s.head_block_num := by
    rw [List.toFinset_card_of_nodup (hs.sorted.imp Nat.ne_of_lt), slots, List.length_map, hs.num]
  have hle := Finset.card_le_card hfilled
  rw [hmissed, Finset.card_sdiff_of_subset hfilled]
  rw [hcount, Nat.card_Ioc] at *
  omega

/-- On every chain of accepted blocks there is at most one block in each slot, `current_aslot` is the
number of slots from genesis to the head, and each block is signed with the key of the witness that
was scheduled for its slot. -/
theorem one_block_per_slot
    (hchain : applyBlocks (genesis accounts init_miner init_key) chain = .ok s) :
    (slots (chain.map (·.1))).Pairwise (· < ·) ∧
    s.current_aslot = slotOf s.head_block_time - genesisSlot ∧
    s.current_aslot = s.head_block_num + (missed s (chain.map (·.1))).card ∧
    ∀ before b maintenance after, chain = before ++ (b, maintenance) :: after →
      ∃ t, applyBlocks (genesis accounts init_miner init_key) before = .ok t ∧
        ∃ w ∈ t.witnesses, w.signing_key = some b.signee ∧
          w.owner = t.wso.current_shuffled_witnesses.getD
            ((slotOf b.timestamp - genesisSlot) % t.wso.num_scheduled_witnesses) 0 := by
  have hs := applyBlocks_onSlots accounts init_miner init_key hchain
  refine ⟨hs.sorted, Nat.eq_sub_of_add_eq hs.aslot, hs.card_missed, ?_⟩
  rintro before b maintenance after rfl
  obtain ⟨t, ht, hchain⟩ := applyBlocks_append hchain
  obtain ⟨u, hu, -⟩ := bind_ok.1 hchain
  have hslots := applyBlocks_onSlots accounts init_miner init_key ht
  have hb : Extends t u b := .of_ok hslots.time_ne_zero hu
  obtain ⟨w, hw, hkey, howner⟩ := hb.signer
  have haslot := hslots.aslot
  have hpos := hb.slot
  rw [hslots.get_slot_at_time_eq] at hpos howner
  have hslot : t.current_aslot + (slotOf b.timestamp - slotOf t.head_block_time) =
      slotOf b.timestamp - genesisSlot := by omega
  exact ⟨t, ht, w, hw, hkey, by rw [howner, get_scheduled_witness, hslot]⟩

end Chains

/-- A block of the init miner that leaves out the first slot. -/
def lateBlock : Block :=
  { previous := ⟨0, 0⟩, timestamp := STEEMIT_GENESIS_TIME + 6, witness := 1, signee := 10 }

/-- The block before, and one on it that leaves out two slots. -/
def lateBlocks : List (Block × List Write) :=
  [(lateBlock, []), ({ lateBlock with
    previous := lateBlock.id, timestamp := STEEMIT_GENESIS_TIME + 15 }, [])]

theorem one_block_per_slot_late : ∃ s, applyBlocks (genesis [1] 1 10) lateBlocks = .ok s ∧
    s.current_aslot = s.head_block_num + (missed s (lateBlocks.map (·.1))).card := by
  obtain ⟨s, hs⟩ := exists_eq_ok (x := applyBlocks (genesis [1] 1 10) lateBlocks)
    (by decide +kernel)
  exact ⟨s, hs, (one_block_per_slot [1] 1 10 hs).2.2.1⟩

/-! ## The last 128 slots -/

/-- The fields of `dynamic_global_property_object`, from genesis on. -/
structure Participation where
  recent_slots_filled : BitVec 128 := BitVec.allOnes 128
  participation_count : BitVec 8 := 128

namespace Participation

variable {p : Participation} {i k : ℕ}

/-- One round of the loop in `update_global_dynamic_data`. -/
def pushSlot (p : Participation) (i : ℕ) : Participation where
  recent_slots_filled := (p.recent_slots_filled <<< 1) + (if i = 0 then 1 else 0)
  participation_count :=
    p.participation_count - (if p.recent_slots_filled.msb then 1 else 0) + (if i = 0 then 1 else 0)

def update (p : Participation) (missed_blocks : ℕ) : Participation :=
  (List.range (missed_blocks + 1)).foldl pushSlot p

theorem pushSlot_eq : (p.pushSlot i).recent_slots_filled =
    p.recent_slots_filled.shiftConcat (decide (i = 0)) := by
  rw [pushSlot, ← BitVec.toNat_inj, BitVec.toNat_shiftConcat]
  by_cases hi : i = 0 <;> simp [hi]

theorem getLsbD_pushSlot (hk : k < 128) : (p.pushSlot i).recent_slots_filled.getLsbD k =
    if k = 0 then decide (i = 0) else p.recent_slots_filled.getLsbD (k - 1) := by
  rw [pushSlot_eq, BitVec.getLsbD_shiftConcat, decide_eq_true hk, Bool.true_and]

/-- The bit of the block ends up behind those of the missed slots. -/
theorem getLsbD_update {missed_blocks : ℕ} (hk : k < 128) :
    (p.update missed_blocks).recent_slots_filled.getLsbD k =
      if k < missed_blocks then false
      else if k = missed_blocks then true
      else p.recent_slots_filled.getLsbD (k - (missed_blocks + 1)) := by
  induction missed_blocks generalizing k with
  | zero =>
    rw [update, List.range_one, List.foldl_cons, List.foldl_nil, getLsbD_pushSlot hk]
    simp
  | succ n ih =>
    have hlast : p.update (n + 1) = (p.update n).pushSlot (n + 1) := by
      rw [update, List.range_succ, List.foldl_append]
      rfl
    rw [hlast, getLsbD_pushSlot hk]
    cases k with
    | zero => simp
    | succ k =>
      rw [if_neg k.succ_ne_zero, Nat.add_sub_cancel, ih (by omega)]
      simp only [Nat.add_lt_add_iff_right, Nat.add_right_cancel_iff, Nat.add_sub_add_right]

/-- How many bits are set. -/
def setBits (x : BitVec 128) : ℕ := (List.range 128).countP x.getLsbD

theorem setBits_shiftConcat (x : BitVec 128) (bit : Bool) :
    setBits (x.shiftConcat bit) + x.msb.toNat = setBits x + bit.toNat := by
  have hshift : (List.range 127).countP ((x.shiftConcat bit).getLsbD ∘ Nat.succ) =
      (List.range 127).countP x.getLsbD := by
    refine List.countP_congr fun k hk => ?_
    have hlt : k + 1 < 128 := Nat.succ_lt_succ (List.mem_range.1 hk)
    rw [Function.comp_apply, BitVec.getLsbD_shiftConcat, decide_eq_true hlt]
    rfl
  have hfirst : (x.shiftConcat bit).getLsbD 0 = bit := BitVec.getLsbD_shiftConcat _ _ _
  have hnew : setBits (x.shiftConcat bit) = (List.range 127).countP x.getLsbD + bit.toNat := by
    rw [setBits, List.range_succ_eq_map, List.countP_cons, List.countP_map, hshift, hfirst]
    cases bit <;> rfl
  have hold : setBits x = (List.range 127).countP x.getLsbD + x.msb.toNat := by
    rw [setBits, List.range_succ, List.countP_append, List.countP_singleton,
      BitVec.msb_eq_getLsbD_last]
    cases x.getLsbD 127 <;> rfl
  omega

theorem count_pushSlot (hp : p.participation_count.toNat = setBits p.recent_slots_filled) :
    (p.pushSlot i).participation_count.toNat = setBits (p.pushSlot i).recent_slots_filled := by
  have hbits := setBits_shiftConcat p.recent_slots_filled (decide (i = 0))
  have hle : setBits p.recent_slots_filled ≤ 128 := List.countP_le_length.trans (List.length_range).le
  rw [pushSlot_eq, pushSlot]
  by_cases hi : i = 0 <;> cases hmsb : p.recent_slots_filled.msb <;>
    simp [hi, hmsb] at hbits ⊢ <;> omega

theorem count_update (hp : p.participation_count.toNat = setBits p.recent_slots_filled)
    (missed_blocks : ℕ) : (p.update missed_blocks).participation_count.toNat =
      setBits (p.update missed_blocks).recent_slots_filled := by
  rw [update]
  generalize List.range (missed_blocks + 1) = rounds
  induction rounds generalizing p with
  | nil => exact hp
  | cons i rounds ih => exact ih (count_pushSlot hp)

end Participation

/-- A block, with what the loop makes of the register. No write before the loop moves the head, so the
missed slots are those after the head of the state before the block. -/
def recordBlock (n : State × Participation) (c : Block × List Write) :
    Result (State × Participation) := do
  let s ← apply_block n.1 c.1 c.2
  let missed_blocks := if n.1.head_block_time = 0 then 0 else get_slot_at_time n.1 c.1.timestamp - 1
  .ok (s, n.2.update missed_blocks)

/-- What the register holds. -/
structure Window (n : State × Participation) (blocks : List Block) : Prop where
  slots : OnSlots n.1 blocks
  count : n.2.participation_count.toNat = Participation.setBits n.2.recent_slots_filled
  bit : ∀ k < 128, n.2.recent_slots_filled.getLsbD k = true ↔
    Filled blocks (slotOf n.1.head_block_time - (k + 1))

theorem Window.record {n n' : State × Participation} {c : Block × List Write} (hn : Window n blocks)
    (h : recordBlock n c = .ok n') : Window n' (blocks ++ [c.1]) := by
  obtain ⟨s', hs', h⟩ := bind_ok.1 h
  cases h
  have hext : Extends n.1 s' c.1 := .of_ok hn.slots.time_ne_zero hs'
  have hslots := hn.slots.extend hext
  have hpos := hext.slot
  have htime : s'.head_block_time = c.1.timestamp := congrArg (·.2.2.1) hext.clock
  rw [hn.slots.get_slot_at_time_eq] at hpos
  refine ⟨hslots, Participation.count_update hn.count _, fun k hk => ?_⟩
  have hbounds := hn.slots.bounds
  have haslot := hn.slots.aslot
  have hfilled : ∀ slot < slotOf c.1.timestamp, Filled (blocks ++ [c.1]) slot ↔ Filled blocks slot := by
    intro slot hlt
    simp [Filled, Schedule.slots, hlt.ne]
  rw [Participation.getLsbD_update hk, if_neg hn.slots.time_ne_zero, hn.slots.get_slot_at_time_eq,
    hfilled _ (by rw [htime]; omega), htime]
  split
  · -- missed: after the old head and before the block
    refine iff_of_false nofun ?_
    rintro (hle | hmem)
    · omega
    · have := hbounds _ hmem
      omega
  · split
    · have hhead : slotOf c.1.timestamp - (k + 1) = slotOf n.1.head_block_time := by omega
      rw [hhead]
      exact iff_of_true rfl hn.slots.head
    · rw [hn.bit _ (by omega)]
      have hsame : slotOf n.1.head_block_time -
          (k - (slotOf c.1.timestamp - slotOf n.1.head_block_time - 1 + 1) + 1) =
            slotOf c.1.timestamp - (k + 1) := by omega
      rw [hsame]

/-- On every chain of accepted blocks bit `k` is set exactly if the slot `k + 1` before that of the head
is filled, and `participation_count` is the number of bits that are set. -/
theorem participation_window (accounts : List AccountName) (init_miner : AccountName)
    (init_key : PublicKey) (chain : List (Block × List Write)) (n : State × Participation)
    (hchain : chain.foldlM recordBlock (genesis accounts init_miner init_key, {}) = .ok n) :
    (∀ k < 128, n.2.recent_slots_filled.getLsbD k = true ↔
      Filled (chain.map (·.1)) (slotOf n.1.head_block_time - (k + 1))) ∧
    n.2.participation_count.toNat = Participation.setBits n.2.recent_slots_filled := by
  have hn : Window n (chain.map (·.1)) := by
    induction chain using List.reverseRecOn generalizing n with
    | nil =>
      cases hchain
      have hcount : (128 : BitVec 8).toNat = Participation.setBits (BitVec.allOnes 128) := by
        decide +kernel
      refine ⟨.genesis .., hcount, fun k hk => iff_of_true ?_ (.inl (Nat.sub_le _ _))⟩
      rw [BitVec.getLsbD_allOnes]
      exact decide_eq_true hk
    | append_singleton chain c ih =>
      rw [List.foldlM_append] at hchain
      obtain ⟨m, hm, hchain⟩ := bind_ok.1 hchain
      obtain ⟨n, hn, h⟩ := bind_ok.1 hchain
      cases h
      rw [List.map_append]
      exact (ih m hm).record hn
  exact ⟨hn.bit, hn.count⟩

theorem participation_window_late : ∃ n, lateBlocks.foldlM recordBlock (genesis [1] 1 10, {}) = .ok n ∧
    (∀ k < 128, n.2.recent_slots_filled.getLsbD k = true ↔
      Filled (lateBlocks.map (·.1)) (slotOf n.1.head_block_time - (k + 1))) ∧
    n.2.participation_count.toNat = Participation.setBits n.2.recent_slots_filled := by
  obtain ⟨n, hn⟩ := exists_eq_ok (x := lateBlocks.foldlM recordBlock (genesis [1] 1 10, {}))
    (by decide +kernel)
  exact ⟨n, hn, participation_window [1] 1 10 _ n hn⟩

/-- The block fills the slot of the head, but bit `0` is that of the missed slot. -/
theorem head_slot_not_set : ∃ n, [(lateBlock, [])].foldlM recordBlock (genesis [1] 1 10, {}) = .ok n ∧
    n.2.recent_slots_filled.getLsbD 0 = false ∧ Filled [lateBlock] (slotOf n.1.head_block_time - 0) := by
  obtain ⟨n, hn, htest⟩ := exists_ok_of_any (x := [(lateBlock, [])].foldlM recordBlock
    (genesis [1] 1 10, {})) (p := fun n => !n.2.recent_slots_filled.getLsbD 0 &&
      (slots [lateBlock]).contains (slotOf n.1.head_block_time)) (by decide +kernel)
  rw [Bool.and_eq_true, Bool.not_eq_true', List.contains_iff_mem] at htest
  exact ⟨n, hn, htest.1, .inr htest.2⟩

end Calibrd.Chain.Schedule
