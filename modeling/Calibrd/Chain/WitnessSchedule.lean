import Calibrd.Chain.Config
import Calibrd.Lib.Check
import Calibrd.Lib.OrderStatistic
import Calibrd.Lib.Runs

/-!
# The witness schedule

The witness table and everything in a block that writes to it: the evaluators of `witness_update`,
`pow` and `pow2`, `adjust_witness_vote`, the header extensions, `update_global_dynamic_data`,
`update_signing_witness`, `update_last_irreversible_block`, `update_witness_schedule4` and the
hardforks that change the schedule.

Witnesses are never removed, so a witness's id is its position in the table. A name is the 128-bit
number that it is stored as, the empty name is `0`. `fc::uint128` divides by zero with an exception.
-/

namespace Calibrd.Chain.Schedule

open Calibrd.Lib

abbrev WitnessId := ℕ

def STEEMIT_MAX_VOTED_WITNESSES_HF0 : ℕ := 19

def STEEMIT_MAX_VOTED_WITNESSES_HF17 : ℕ := 20

def STEEMIT_HARDFORK_REQUIRED_WITNESSES : ℕ := 17

def STEEMIT_IRREVERSIBLE_THRESHOLD : ℕ := 75 * (STEEMIT_100_PERCENT / 100)

def STEEMIT_MAX_WITNESS_URL_LENGTH : ℕ := 2048

def VIRTUAL_SCHEDULE_LAP_LENGTH : BitVec 128 := BitVec.ofNat 128 (2 ^ 64 - 1)

def VIRTUAL_SCHEDULE_LAP_LENGTH2 : BitVec 128 := BitVec.allOnes 128

/-- What is stored of a version that is assigned to a `hardfork_version`: not its release part. -/
def hardforkVersion (v_num : ℕ) : ℕ := v_num / 2 ^ 16 * 2 ^ 16

/-- `account_creation_fee` is an amount of STEEM. -/
structure ChainProperties where
  account_creation_fee : ℤ := 1
  maximum_block_size : ℕ := STEEMIT_MIN_BLOCK_SIZE_LIMIT * 2
  sbd_interest_rate : ℕ := 1000
deriving DecidableEq, Repr

inductive ScheduleType where
  | top19
  | timeshare
  | miner
  | none
deriving DecidableEq, Repr

/-- `witness_object`. The null key is `none`, and a version is its number `v_num`. -/
structure Witness where
  owner : AccountName
  total_missed : ℕ := 0
  last_aslot : ℕ := 0
  last_confirmed_block_num : ℕ := 0
  signing_key : Option PublicKey
  props : ChainProperties := {}
  votes : ℤ := 0
  schedule : ScheduleType := .none
  virtual_last_update : BitVec 128 := 0
  virtual_position : BitVec 128 := 0
  virtual_scheduled_time : BitVec 128 := BitVec.allOnes 128
  running_version : ℕ := 0
  hardfork_version_vote : ℕ := 0
  hardfork_time_vote : ℕ := STEEMIT_GENESIS_TIME
deriving DecidableEq, Repr

/-- `witness_schedule_object`. Of `current_shuffled_witnesses` these are the first
`num_scheduled_witnesses` entries; the others are never read. -/
structure WitnessSchedule where
  current_virtual_time : BitVec 128 := 0
  next_shuffle_block_num : ℕ := 1
  current_shuffled_witnesses : Array AccountName
  top19_weight : ℕ := 1
  timeshare_weight : ℕ := 5
  miner_weight : ℕ := 1
  witness_pay_normalization_factor : ℕ := 25
  median_props : ChainProperties := {}
  majority_version : ℕ := 0
  max_voted_witnesses : ℕ := STEEMIT_MAX_VOTED_WITNESSES_HF0
  hardfork_required_witnesses : ℕ := STEEMIT_HARDFORK_REQUIRED_WITNESSES
deriving DecidableEq, Repr

def WitnessSchedule.num_scheduled_witnesses (wso : WitnessSchedule) : ℕ :=
  wso.current_shuffled_witnesses.size

/-- The number of a block is the first part of its id. -/
structure BlockId where
  num : ℕ
  digest : ℕ
deriving DecidableEq, Repr

structure State where
  accounts : List AccountName
  witnesses : List Witness
  wso : WitnessSchedule
  head_block_num : ℕ := 0
  head_block_id : BlockId := ⟨0, 0⟩
  head_block_time : ℕ := STEEMIT_GENESIS_TIME
  current_aslot : ℕ := 0
  last_irreversible_block_num : ℕ := 0
  total_vesting_shares : ℤ := 0
  maximum_block_size : ℕ := 0
  sbd_interest_rate : ℕ := 0
  last_hardfork : ℕ := 0
  current_hardfork_version : ℕ := 0
  next_hardfork : ℕ := 0
  next_hardfork_time : ℕ := 0
deriving DecidableEq, Repr

inductive Error where
  | unknown_account
  | unknown_witness
  | url_too_long
  | fee_not_steem
  | account_exists
  | votes_above_total
  | division_by_zero
  | active_witnesses (size expected : ℕ)
  | wrong_previous
  | time_not_later
  | wrong_signee
  | slot_is_zero
  | wrong_time
  | old_version
  | undo_history
  | unknown_hardfork
deriving DecidableEq, Repr

abbrev Result := Except Error

namespace State

variable (s : State)

def has_hardfork (hardfork : ℕ) : Bool := hardfork ≤ s.last_hardfork

def find_witness (name : AccountName) : Option WitnessId :=
  s.witnesses.findIdx? (fun w => w.owner == name)

def get_witness (name : AccountName) : Result (Witness × WitnessId) :=
  match s.witnesses.zipIdx.find? (fun w => w.1.owner == name) with
  | some w => .ok w
  | none => .error .unknown_witness

def modifyWitness (id : WitnessId) (f : Witness → Witness) : State :=
  { s with witnesses := s.witnesses.modify id f }

def createWitness (w : Witness) : State := { s with witnesses := s.witnesses ++ [w] }

end State

/-- `a / n` for a signed 64-bit `n`. -/
def divide (a : BitVec 128) (n : ℤ) : Result (BitVec 128) := do
  check (BitVec.ofInt 128 n != 0) .division_by_zero
  return a / BitVec.ofInt 128 n

section Evaluators

variable (s : State)

/-- `witness_update_evaluator`; `fee_symbol_is_steem` is the symbol of the fee in `props`. -/
def witness_update (owner : AccountName) (url_size : ℕ) (key : Option PublicKey)
    (props : ChainProperties) (fee_symbol_is_steem : Bool) : Result State := do
  check (s.accounts.contains owner) .unknown_account
  check (url_size ≤ STEEMIT_MAX_WITNESS_URL_LENGTH) .url_too_long
  check fee_symbol_is_steem .fee_not_steem
  match s.find_witness owner with
  | some id => return s.modifyWitness id fun w => { w with signing_key := key, props }
  | none => return s.createWitness { owner, signing_key := key, props }

/-- What `pow_apply` does to the witness table once the work is accepted. -/
def pow_apply (worker : AccountName) (key : PublicKey) (props : ChainProperties) :
    Result State := do
  check (s.accounts.contains worker) .unknown_account
  match s.find_witness worker with
  | some id => return s.modifyWitness id fun w => { w with props }
  | none => return s.createWitness { owner := worker, signing_key := some key, props }

/-- What `pow2_evaluator` does to the witness table once the work is accepted: with a key the
account is new, otherwise its witness exists. -/
def pow2 (worker : AccountName) (new_owner_key : Option PublicKey)
    (props : ChainProperties) : Result State :=
  match new_owner_key with
  | some key => do
    check (!s.accounts.contains worker) .account_exists
    check (s.find_witness worker).isNone .account_exists
    return { s with accounts := s.accounts ++ [worker] }.createWitness
      { owner := worker, signing_key := some key, props }
  | none => do
    let (_, id) ← s.get_witness worker
    return s.modifyWitness id fun w => { w with props }

def account_create (name : AccountName) : Result State := do
  check (!s.accounts.contains name) .account_exists
  return { s with accounts := s.accounts ++ [name] }

/-- The witness after `votes += delta`, with its position in virtual time. -/
def Witness.adjust (w : Witness) (delta : ℤ) : Result Witness := do
  let virtual_position := w.virtual_position +
    BitVec.ofInt 128 w.votes * (s.wso.current_virtual_time - w.virtual_last_update)
  let virtual_last_update := s.wso.current_virtual_time
  let votes := w.votes + delta
  check (votes ≤ s.total_vesting_shares) .votes_above_total
  let lap := if s.has_hardfork 2 then VIRTUAL_SCHEDULE_LAP_LENGTH2 else VIRTUAL_SCHEDULE_LAP_LENGTH
  let rest ← divide (lap - virtual_position) (votes + 1)
  let virtual_scheduled_time := virtual_last_update + rest
  -- few votes can overflow the time field
  let virtual_scheduled_time :=
    if s.has_hardfork 4 && virtual_scheduled_time < s.wso.current_virtual_time then
      BitVec.allOnes 128
    else virtual_scheduled_time
  return { w with virtual_position, virtual_last_update, votes, virtual_scheduled_time }

def adjust_witness_vote (id : WitnessId) (delta : ℤ) : Result State :=
  match s.witnesses[id]? with
  | none => .error .unknown_witness
  | some w => do
    let w' ← w.adjust s delta
    return s.modifyWitness id fun _ => w'

/-- The first loop of `retally_witness_votes`. -/
def clearVotes : State :=
  { s with witnesses := s.witnesses.map fun w => { w with votes := 0, virtual_position := 0 } }

/-- `ballots` are the votes of the accounts without a proxy, with the weights of the accounts. -/
def retally_witness_votes (ballots : List (WitnessId × ℤ)) : Result State :=
  ballots.foldlM (fun s b => adjust_witness_vote s b.1 b.2) (clearVotes s)

end Evaluators

section Schedule

/-- One witness of `reset_virtual_schedule_time`, where `current_virtual_time` is already `0`. -/
def Witness.resetTime (w : Witness) : Result Witness := do
  let virtual_scheduled_time ← divide VIRTUAL_SCHEDULE_LAP_LENGTH2 (w.votes + 1)
  return { w with virtual_position := 0, virtual_last_update := 0, virtual_scheduled_time }

variable (s : State)

def reset_virtual_schedule_time : Result State := do
  let witnesses ← s.witnesses.mapM Witness.resetTime
  return { s with wso := { s.wso with current_virtual_time := 0 }, witnesses }

/-- The scheduled witnesses, in the order of the shuffled schedule. -/
def scheduledWitnesses : Result (List (Witness × WitnessId)) :=
  s.wso.current_shuffled_witnesses.toList.mapM s.get_witness

def update_median_witness_props : Result State := do
  let active ← scheduledWitnesses s
  let props := active.map fun w => w.1.props
  let middle := active.length / 2
  let median_props : ChainProperties :=
    { account_creation_fee := nthElement (props.map (·.account_creation_fee)) middle 0
      maximum_block_size := nthElement (props.map (·.maximum_block_size)) middle 0
      sbd_interest_rate := nthElement (props.map (·.sbd_interest_rate)) middle 0 }
  return { s with
    wso := { s.wso with median_props }
    maximum_block_size := median_props.maximum_block_size
    sbd_interest_rate := median_props.sbd_interest_rate }

/-- `witness_index` by votes, most first, and then by name. -/
def by_vote_name : List (Witness × WitnessId) :=
  s.witnesses.zipIdx.insertionSort fun a b =>
    b.1.votes < a.1.votes ∨ (a.1.votes = b.1.votes ∧ a.1.owner ≤ b.1.owner)

/-- `witness_index` by virtual scheduled time and then by id. -/
def by_schedule_time : List (Witness × WitnessId) :=
  s.witnesses.zipIdx.insertionSort fun a b =>
    a.1.virtual_scheduled_time < b.1.virtual_scheduled_time ∨
      (a.1.virtual_scheduled_time = b.1.virtual_scheduled_time ∧ a.2 ≤ b.2)

/-- The loop that adds the highest voted witnesses. -/
def addVoted (max_voted : ℕ) (selected : List (Witness × WitnessId)) :
    List (Witness × WitnessId) → List (Witness × WitnessId)
  | [] => selected
  | w :: rest =>
    if selected.length < max_voted then
      if w.1.signing_key.isNone then addVoted max_voted selected rest
      else addVoted max_voted (selected ++ [w]) rest
    else selected

/-- What the loop over the running witnesses gathers. -/
structure Runners where
  timeshare : List (Witness × WitnessId) := []
  processed : List (Witness × WitnessId) := []
  new_virtual_time : BitVec 128

/-- The loop that adds the running witnesses in the lead, for `witness_count` witnesses so far. -/
def addRunners (selected_voted : List WitnessId) (witness_count : ℕ) (r : Runners) :
    List (Witness × WitnessId) → Runners
  | [] => r
  | w :: rest =>
    if witness_count < STEEMIT_MAX_WITNESSES then
      let r := { r with
        new_virtual_time := w.1.virtual_scheduled_time
        processed := r.processed ++ [w] }
      if w.1.signing_key.isNone then addRunners selected_voted witness_count r rest
      else if selected_voted.contains w.2 then addRunners selected_voted witness_count r rest
      else
        addRunners selected_voted (witness_count + 1) { r with timeshare := r.timeshare ++ [w] }
          rest
    else r

/-- The loop over the processed witnesses; the flag is `reset_virtual_time`. -/
def advanceProcessed (new_virtual_time : BitVec 128) (s : State) :
    List (Witness × WitnessId) → Result (State × Bool)
  | [] => return (s, false)
  | w :: rest => do
    let lap ← divide VIRTUAL_SCHEDULE_LAP_LENGTH2 (w.1.votes + 1)
    let virtual_scheduled_time := new_virtual_time + lap
    if virtual_scheduled_time < new_virtual_time then return (s, true)
    else
      advanceProcessed new_virtual_time
        (s.modifyWitness w.2 fun w => { w with
          virtual_position := 0
          virtual_last_update := new_virtual_time
          virtual_scheduled_time }) rest

/-- How often each key occurs, as the maps of versions count them. -/
def tally {κ : Type} [DecidableEq κ] (keys : List κ) : List (κ × ℕ) :=
  keys.dedup.map fun k => (k, keys.count k)

/-- The highest version that `required` witnesses run at least. -/
def majorityVersion (required : ℕ) (old : ℕ) : ℕ → List (ℕ × ℕ) → ℕ
  | _, [] => old
  | witnesses_on_version, (v, n) :: rest =>
    if required ≤ witnesses_on_version + n then v
    else majorityVersion required old (witnesses_on_version + n) rest

/-- The part of `update_witness_schedule4` that counts the versions of the scheduled witnesses. -/
def countVersions : Result State := do
  let scheduled ← scheduledWitnesses s
  let witness_versions :=
    (tally (scheduled.map (·.1.running_version))).insertionSort fun a b => b.1 ≤ a.1
  let hardfork_version_votes :=
    (tally (scheduled.map fun w =>
      (w.1.hardfork_version_vote, w.1.hardfork_time_vote))).insertionSort
      fun a b => a.1.1 < b.1.1 ∨ (a.1.1 = b.1.1 ∧ a.1.2 ≤ b.1.2)
  let required := s.wso.hardfork_required_witnesses
  let s := { s with wso := { s.wso with
    majority_version := majorityVersion required s.wso.majority_version 0 witness_versions } }
  match hardfork_version_votes.find? (fun v => decide (required ≤ v.2)) with
  | some v =>
    return { s with next_hardfork := hardforkVersion v.1.1, next_hardfork_time := v.1.2 }
  | none => return { s with next_hardfork := s.current_hardfork_version }

/-- The random number of the `i`-th swap. -/
def shuffleNumber (now_hi : UInt64) (i : ℕ) : UInt64 :=
  let k := now_hi + UInt64.ofNat i * 2685821657736338717
  let k := k ^^^ (k >>> 12)
  let k := k ^^^ (k <<< 25)
  let k := k ^^^ (k >>> 27)
  k * 2685821657736338717

/-- One round of the shuffle. -/
def swapRound (now_hi : UInt64) (names : Array AccountName) (i : ℕ) : Array AccountName :=
  names.swapIfInBounds i (i + (shuffleNumber now_hi i).toNat % (names.size - i))

def shuffle (now_hi : UInt64) (names : Array AccountName) : Array AccountName :=
  (List.range names.size).foldl (swapRound now_hi) names

/-- The entries of `current_shuffled_witnesses` in use; with no active witness there is one, the
empty name. -/
def scheduleNames (active_witnesses : List AccountName) : Array AccountName :=
  if active_witnesses.isEmpty then #[0] else active_witnesses.toArray

/-- The last part of `update_witness_schedule4`. `num_timeshare` counts the elected witnesses as
well. -/
def writeSchedule (new_virtual_time : BitVec 128) (num_elected : ℕ)
    (active_witnesses : List AccountName) : State :=
  let now_hi := UInt64.ofNat s.head_block_time <<< 32
  let current_shuffled_witnesses := shuffle now_hi (scheduleNames active_witnesses)
  let num_timeshare := active_witnesses.length
  { s with wso := { s.wso with
    current_shuffled_witnesses
    witness_pay_normalization_factor :=
      s.wso.top19_weight * num_elected + s.wso.timeshare_weight * num_timeshare
    current_virtual_time := new_virtual_time
    next_shuffle_block_num := s.head_block_num + current_shuffled_witnesses.size } }

/-- Which witnesses `update_witness_schedule4` puts into the next round, by votes and by time. -/
def selectVoted : List (Witness × WitnessId) :=
  addVoted s.wso.max_voted_witnesses [] (by_vote_name s)

def selectRunners : Runners :=
  let voted := selectVoted s
  addRunners (voted.map (·.2)) voted.length { new_virtual_time := s.wso.current_virtual_time }
    (by_schedule_time s)

/-- `modify` of `schedule` for the selected witnesses. -/
def markScheduled (ids : List WitnessId) (schedule : ScheduleType) : State :=
  ids.foldl (fun s id => s.modifyWitness id fun w => { w with schedule }) s

/-- The virtual times of the processed witnesses, with the new virtual time of the schedule. -/
def advanceTimes (r : Runners) : Result (State × BitVec 128) := do
  let (s, reset_virtual_time) ← advanceProcessed r.new_virtual_time s r.processed
  if reset_virtual_time then return (← reset_virtual_schedule_time s, 0)
  else return (s, r.new_virtual_time)

def update_witness_schedule4 : Result State := do
  let voted := selectVoted s
  let runners := selectRunners s
  let active_witnesses := (voted ++ runners.timeshare).map (·.1.owner)
  let s := markScheduled s (voted.map (·.2)) .top19
  let s := markScheduled s (runners.timeshare.map (·.2)) .timeshare
  let (s, new_virtual_time) ← advanceTimes s runners
  let expected_active_witnesses := min STEEMIT_MAX_WITNESSES s.witnesses.length
  check (active_witnesses.length == expected_active_witnesses)
    (.active_witnesses active_witnesses.length expected_active_witnesses)
  let s ← countVersions s
  update_median_witness_props (writeSchedule s new_virtual_time voted.length active_witnesses)

def update_witness_schedule : Result State :=
  if s.head_block_num % STEEMIT_MAX_WITNESSES == 0 then update_witness_schedule4 s else .ok s

end Schedule

section Blocks

inductive Extension where
  | void
  | version (reported : ℕ)
  | hardfork_version_vote (hf_version hf_time : ℕ)
deriving DecidableEq, Repr

/-- What block application outside this model does to the witness table: the operations of
transactions and the maintenance after them. -/
inductive Write where
  | account_create (name : AccountName)
  | witness_update (owner : AccountName) (url_size : ℕ) (key : Option PublicKey)
      (props : ChainProperties) (fee_symbol_is_steem : Bool)
  | pow (worker : AccountName) (key : PublicKey) (props : ChainProperties)
  | pow2 (worker : AccountName) (new_owner_key : Option PublicKey) (props : ChainProperties)
  | adjust_witness_vote (id : WitnessId) (delta : ℤ)
  | total_vesting_shares (amount : ℤ)
  | apply_hardfork (version : ℕ) (ballots : List (WitnessId × ℤ))
deriving DecidableEq, Repr

variable (s : State)

/-- The changes that a hardfork makes to the schedule. -/
def hardforkChanges (ballots : List (WitnessId × ℤ)) (hardfork : ℕ) : Result State :=
  match hardfork with
  | 2 => retally_witness_votes s ballots
  | 3 => retally_witness_votes s ballots
  | 4 => reset_virtual_schedule_time s
  | 17 =>
    .ok { s with wso := { s.wso with max_voted_witnesses := STEEMIT_MAX_VOTED_WITNESSES_HF17 } }
  | _ => .ok s

/-- The next hardfork; `version` is its entry in `_hardfork_versions`. -/
def apply_hardfork (version : ℕ) (ballots : List (WitnessId × ℤ)) : Result State := do
  let hardfork := s.last_hardfork + 1
  check (hardfork ≤ STEEMIT_NUM_HARDFORKS) .unknown_hardfork
  let s ← hardforkChanges s ballots hardfork
  return { s with last_hardfork := hardfork, current_hardfork_version := version }

def Write.apply : Write → Result State
  | account_create name => Schedule.account_create s name
  | witness_update owner url_size key props steem =>
    Schedule.witness_update s owner url_size key props steem
  | pow worker key props => pow_apply s worker key props
  | pow2 worker key props => Schedule.pow2 s worker key props
  | adjust_witness_vote id delta => Schedule.adjust_witness_vote s id delta
  | total_vesting_shares amount => .ok { s with total_vesting_shares := amount }
  | apply_hardfork version ballots => Schedule.apply_hardfork s version ballots

def applyWrites (writes : List Write) : Result State := writes.foldlM Write.apply s

/-- A signed block; `signee` is the key that its signature recovers to, and `digest` the part of
its id behind the number. -/
structure Block where
  previous : BlockId
  timestamp : ℕ
  witness : AccountName
  signee : PublicKey
  extensions : List Extension := []
  digest : ℕ := 0
  transactions : List Write := []
deriving DecidableEq, Repr

def Block.block_num (b : Block) : ℕ := b.previous.num + 1

def Block.id (b : Block) : BlockId := ⟨b.block_num, b.digest⟩

def get_slot_time (slot_num : ℕ) : ℕ :=
  if slot_num = 0 then 0
  else if s.head_block_num = 0 then s.head_block_time + slot_num * STEEMIT_BLOCK_INTERVAL
  else
    s.head_block_time / STEEMIT_BLOCK_INTERVAL * STEEMIT_BLOCK_INTERVAL +
      slot_num * STEEMIT_BLOCK_INTERVAL

def get_slot_at_time (time : ℕ) : ℕ :=
  let first_slot_time := get_slot_time s 1
  if time < first_slot_time then 0 else (time - first_slot_time) / STEEMIT_BLOCK_INTERVAL + 1

def get_scheduled_witness (slot_num : ℕ) : AccountName :=
  s.wso.current_shuffled_witnesses.getD
    ((s.current_aslot + slot_num) % s.wso.num_scheduled_witnesses) 0

/-- Without skip flags; returns the signing witness. -/
def validate_block_header (b : Block) : Result WitnessId := do
  check (s.head_block_id == b.previous) .wrong_previous
  check (s.head_block_time < b.timestamp) .time_not_later
  let (witness, id) ← s.get_witness b.witness
  check (witness.signing_key == some b.signee) .wrong_signee
  let slot_num := get_slot_at_time s b.timestamp
  check (0 < slot_num) .slot_is_zero
  check (witness.owner == get_scheduled_witness s slot_num) .wrong_time
  return id

/-- One extension of `process_header_extensions`, for the signing witness. -/
def Extension.apply (w : Witness) : Extension → Witness
  | void => w
  | version reported => { w with running_version := reported }
  | hardfork_version_vote hf_version hf_time =>
    { w with hardfork_version_vote := hardforkVersion hf_version, hardfork_time_vote := hf_time }

def process_header_extensions (b : Block) (id : WitnessId) : State :=
  s.modifyWitness id fun w => b.extensions.foldl Extension.apply w

/-- One missed slot of `update_global_dynamic_data`. -/
def missSlot (b : Block) (s : State) (i : ℕ) : Result State := do
  let (witness_missed, id) ← s.get_witness (get_scheduled_witness s (i + 1))
  if witness_missed.owner == b.witness then return s
  else
    let shutdown := s.has_hardfork 14 &&
      decide (STEEMIT_BLOCKS_PER_DAY < s.head_block_num - witness_missed.last_confirmed_block_num)
    return s.modifyWitness id fun w => { w with
      total_missed := w.total_missed + 1
      signing_key := if shutdown then none else w.signing_key }

def update_global_dynamic_data (b : Block) : Result State := do
  let missed_blocks := if s.head_block_time = 0 then 0 else get_slot_at_time s b.timestamp - 1
  let s ← (List.range missed_blocks).foldlM (missSlot b) s
  let s := { s with
    head_block_num := b.block_num
    head_block_id := b.id
    head_block_time := b.timestamp
    current_aslot := s.current_aslot + missed_blocks + 1 }
  check (s.head_block_num - s.last_irreversible_block_num < STEEMIT_MAX_UNDO_HISTORY) .undo_history
  return s

def update_signing_witness (id : WitnessId) (b : Block) : State :=
  let new_block_aslot := s.current_aslot + get_slot_at_time s b.timestamp
  s.modifyWitness id fun w => { w with
    last_aslot := new_block_aslot
    last_confirmed_block_num := b.block_num }

/-- The block number that all but the lowest quarter of the scheduled witnesses have confirmed. -/
def confirmedBlockNum (scheduled : List (Witness × WitnessId)) : ℕ :=
  let offset := (STEEMIT_100_PERCENT - STEEMIT_IRREVERSIBLE_THRESHOLD) * scheduled.length /
    STEEMIT_100_PERCENT
  nthElement (scheduled.map (·.1.last_confirmed_block_num)) offset 0

def update_last_irreversible_block : Result State := do
  if s.head_block_num < STEEMIT_START_MINER_VOTING_BLOCK then
    if STEEMIT_MAX_WITNESSES < s.head_block_num then
      return { s with last_irreversible_block_num := s.head_block_num - STEEMIT_MAX_WITNESSES }
    else return s
  else
    let scheduled ← scheduledWitnesses s
    let new_last_irreversible_block_num := confirmedBlockNum scheduled
    if s.last_irreversible_block_num < new_last_irreversible_block_num then
      return { s with last_irreversible_block_num := new_last_irreversible_block_num }
    else return s

/-- `_apply_block`; `maintenance` is what the steps behind `update_witness_schedule` write. -/
def apply_block (b : Block) (maintenance : List Write) : Result State := do
  let id ← validate_block_header s b
  let s := process_header_extensions s b id
  let (witness, _) ← s.get_witness b.witness
  check (!s.has_hardfork 5 || s.current_hardfork_version ≤ witness.running_version) .old_version
  let s ← applyWrites s b.transactions
  let s ← update_global_dynamic_data s b
  let s := update_signing_witness s id b
  let s ← update_last_irreversible_block s
  let s ← update_witness_schedule s
  applyWrites s maintenance

end Blocks

/-- Blocks with the maintenance writes of their application. -/
def applyBlocks (s : State) (blocks : List (Block × List Write)) : Result State :=
  blocks.foldlM (fun s b => apply_block s b.1 b.2) s

/-- `init_genesis`; `accounts` holds the names it creates, the init miner's among them. -/
def genesis (accounts : List AccountName) (init_miner : AccountName) (init_key : PublicKey) :
    State where
  accounts
  witnesses := [{ owner := init_miner, signing_key := some init_key, schedule := .miner }]
  wso := { current_shuffled_witnesses := #[init_miner] }

/-! ## Which witnesses are scheduled

The two selection loops of `update_witness_schedule4` as filters of the two indices
(`addVoted_eq`, `addRunners_timeshare`). Together they pick each witness at most once
(`active_nodup`), only witnesses with a signing key, and as many of these as there are, up to
`STEEMIT_MAX_WITNESSES` (`length_active`).
-/

/-- The witness has a key to sign blocks with. -/
def enabled (w : Witness × WitnessId) : Bool := w.1.signing_key.isSome

/-- The witnesses of the next round. -/
def active (s : State) : List (Witness × WitnessId) := selectVoted s ++ (selectRunners s).timeshare

/-- The number of witnesses with a signing key. -/
def State.numEnabled (s : State) : ℕ := s.witnesses.countP fun w => w.signing_key.isSome

section Loops

variable {w : Witness × WitnessId} {l selected : List (Witness × WitnessId)}

theorem addVoted_eq (max_voted : ℕ) :
    addVoted max_voted selected l = selected ++ (l.filter enabled).take (max_voted - selected.length)
    := by
  induction l generalizing selected with
  | nil => simp [addVoted]
  | cons w l ih =>
    rw [addVoted]
    split
    · rename_i hlt
      obtain ⟨m, hm⟩ := Nat.exists_eq_succ_of_ne_zero (Nat.sub_ne_zero_of_lt hlt)
      split_ifs with hkey
      · rw [ih, List.filter_cons_of_neg]
        rw [enabled, Option.isNone_iff_eq_none.1 hkey]
        exact nofun
      · have hw : enabled w = true := by
          rw [enabled, Option.isSome_iff_ne_none]
          exact fun h => hkey (by rw [h]; rfl)
        rw [ih, List.filter_cons_of_pos hw, hm, List.take_succ_cons, List.length_append,
          ← Nat.sub_sub, hm, List.append_assoc]
        rfl
    · rename_i hge
      rw [Nat.sub_eq_zero_of_le (Nat.not_lt.1 hge), List.take_zero, List.append_nil]

/-- A running witness that can be added. -/
def canRun (voted : List WitnessId) (w : Witness × WitnessId) : Bool :=
  enabled w && !voted.contains w.2

theorem addRunners_cons {voted : List WitnessId} {count : ℕ} {r : Runners}
    (h : count < STEEMIT_MAX_WITNESSES) : addRunners voted count r (w :: l) =
      addRunners voted (count + if canRun voted w then 1 else 0)
        { timeshare := r.timeshare ++ if canRun voted w then [w] else []
          processed := r.processed ++ [w]
          new_virtual_time := w.1.virtual_scheduled_time } l := by
  rw [addRunners, if_pos h, canRun, enabled]
  cases w.1.signing_key with
  | none => simp
  | some key => by_cases hin : w.2 ∈ voted <;> simp [hin]

theorem addRunners_timeshare {voted : List WitnessId} {count : ℕ} {r : Runners} :
    (addRunners voted count r l).timeshare =
      r.timeshare ++ (l.filter (canRun voted)).take (STEEMIT_MAX_WITNESSES - count) := by
  induction l generalizing count r with
  | nil => simp [addRunners]
  | cons w l ih =>
    by_cases hlt : count < STEEMIT_MAX_WITNESSES
    · obtain ⟨m, hm⟩ := Nat.exists_eq_succ_of_ne_zero (Nat.sub_ne_zero_of_lt hlt)
      rw [addRunners_cons hlt, ih]
      by_cases hrun : canRun voted w = true
      · rw [List.filter_cons_of_pos hrun, if_pos hrun, if_pos hrun, hm, List.take_succ_cons,
          ← Nat.sub_sub, hm, List.append_assoc]
        rfl
      · rw [List.filter_cons_of_neg hrun, if_neg hrun, if_neg hrun, List.append_nil, Nat.add_zero]
    · rw [addRunners, if_neg hlt, Nat.sub_eq_zero_of_le (Nat.not_lt.1 hlt), List.take_zero,
        List.append_nil]

/-- The time after the witnesses `l` have run. -/
def timeAfter (time : BitVec 128) (l : List (Witness × WitnessId)) : BitVec 128 :=
  l.foldl (fun _ w => w.1.virtual_scheduled_time) time

/-- The witnesses that run are the first in `l`, and time moves on to the last of them. -/
theorem addRunners_prefix (voted : List WitnessId) (count : ℕ) (r : Runners)
    (l : List (Witness × WitnessId)) :
    ∃ first rest, l = first ++ rest ∧ (addRunners voted count r l).processed = r.processed ++ first ∧
      (addRunners voted count r l).new_virtual_time = timeAfter r.new_virtual_time first := by
  induction l generalizing count r with
  | nil => exact ⟨[], [], rfl, (List.append_nil _).symm, rfl⟩
  | cons w l ih =>
    by_cases hlt : count < STEEMIT_MAX_WITNESSES
    · rw [addRunners_cons hlt]
      obtain ⟨first, rest, hl, hfirst, hnew⟩ := ih (count + if canRun voted w then 1 else 0) _
      refine ⟨w :: first, rest, congrArg (List.cons w) hl, ?_, hnew⟩
      rw [hfirst, List.append_assoc]
      rfl
    · rw [addRunners, if_neg hlt]
      exact ⟨[], w :: l, rfl, (List.append_nil _).symm, rfl⟩

end Loops

section Active

variable {s : State}

theorem by_vote_name_perm (s : State) : (by_vote_name s).Perm s.witnesses.zipIdx :=
  List.perm_insertionSort _ _

theorem by_schedule_time_perm (s : State) : (by_schedule_time s).Perm s.witnesses.zipIdx :=
  List.perm_insertionSort _ _

theorem nodup_zipIdx (l : List Witness) : (l.zipIdx).Nodup := by
  refine List.Nodup.of_map Prod.snd ?_
  rw [List.zipIdx_map_snd]
  exact List.nodup_range' 1

theorem eq_of_id {a b : Witness × WitnessId} (ha : a ∈ s.witnesses.zipIdx)
    (hb : b ∈ s.witnesses.zipIdx) (h : a.2 = b.2) : a = b := by
  rw [List.mem_zipIdx_iff_getElem?] at ha hb
  rw [h, hb, Option.some.injEq] at ha
  exact Prod.ext ha.symm h

theorem selectVoted_eq (s : State) :
    selectVoted s = ((by_vote_name s).filter enabled).take s.wso.max_voted_witnesses := by
  rw [selectVoted, addVoted_eq]
  rfl

theorem timeshare_eq (s : State) : (selectRunners s).timeshare =
    ((by_schedule_time s).filter (canRun ((selectVoted s).map (·.2)))).take
      (STEEMIT_MAX_WITNESSES - (selectVoted s).length) := by
  rw [selectRunners, addRunners_timeshare]
  rfl

variable {w : Witness × WitnessId}

theorem mem_processed (h : w ∈ (selectRunners s).processed) : w ∈ s.witnesses.zipIdx := by
  obtain ⟨first, rest, hl, hfirst, -⟩ := addRunners_prefix ((selectVoted s).map (·.2))
    (selectVoted s).length { new_virtual_time := s.wso.current_virtual_time } (by_schedule_time s)
  rw [← (by_schedule_time_perm s).mem_iff, hl]
  rw [selectRunners, hfirst] at h
  exact List.mem_append_left rest h

theorem mem_selectVoted (h : w ∈ selectVoted s) :
    w ∈ s.witnesses.zipIdx ∧ enabled w = true := by
  rw [selectVoted_eq] at h
  obtain ⟨hw, hkey⟩ := List.mem_filter.1 (List.mem_of_mem_take h)
  exact ⟨(by_vote_name_perm s).mem_iff.1 hw, hkey⟩

theorem mem_timeshare (h : w ∈ (selectRunners s).timeshare) :
    w ∈ s.witnesses.zipIdx ∧ enabled w = true ∧ w.2 ∉ (selectVoted s).map (·.2) := by
  rw [timeshare_eq] at h
  obtain ⟨hw, hrun⟩ := List.mem_filter.1 (List.mem_of_mem_take h)
  rw [canRun, Bool.and_eq_true, Bool.not_eq_true', List.contains_eq_mem,
    decide_eq_false_iff_not] at hrun
  exact ⟨(by_schedule_time_perm s).mem_iff.1 hw, hrun⟩

theorem mem_active (h : w ∈ active s) :
    w ∈ s.witnesses.zipIdx ∧ enabled w = true := by
  rcases List.mem_append.1 h with h | h
  · exact mem_selectVoted h
  · exact ⟨(mem_timeshare h).1, (mem_timeshare h).2.1⟩

theorem selectVoted_nodup (s : State) : (selectVoted s).Nodup := by
  rw [selectVoted_eq]
  have hall := (by_vote_name_perm s).nodup_iff.2 (nodup_zipIdx s.witnesses)
  exact (hall.filter enabled).sublist (List.take_sublist _ _)

/-- No witness is scheduled twice. -/
theorem active_nodup (s : State) : (active s).Nodup := by
  have hall := (by_schedule_time_perm s).nodup_iff.2 (nodup_zipIdx s.witnesses)
  have hrun : (selectRunners s).timeshare.Nodup := by
    rw [timeshare_eq]
    exact (hall.filter _).sublist (List.take_sublist _ _)
  refine (selectVoted_nodup s).append hrun ?_
  intro w hv hr
  exact (mem_timeshare hr).2.2 (List.mem_map_of_mem hv)

theorem countP_enabled (s : State) : s.witnesses.zipIdx.countP enabled = s.numEnabled := by
  have hcomp : enabled = (fun w : Witness => w.signing_key.isSome) ∘ Prod.fst := rfl
  rw [hcomp, ← List.countP_map, List.zipIdx_map_fst]
  rfl

theorem length_selectVoted (s : State) :
    (selectVoted s).length = min s.wso.max_voted_witnesses s.numEnabled := by
  rw [selectVoted_eq, List.length_take, ← List.countP_eq_length_filter,
    (by_vote_name_perm s).countP_eq, countP_enabled]

/-- The witnesses with a key that are not elected. -/
theorem countP_canRun (s : State) :
    (selectVoted s).length + s.witnesses.zipIdx.countP (canRun ((selectVoted s).map (·.2))) =
      s.numEnabled := by
  -- the elected ones are the enabled ones with an elected id
  have hvoted : (s.witnesses.zipIdx.filter fun w =>
      enabled w && ((selectVoted s).map (·.2)).contains w.2).Perm (selectVoted s) := by
    refine (List.perm_ext_iff_of_nodup ((nodup_zipIdx _).filter _) (selectVoted_nodup s)).2 ?_
    intro w
    rw [List.mem_filter, Bool.and_eq_true, List.contains_iff_mem, List.mem_map]
    constructor
    · rintro ⟨hw, -, v, hv, hid⟩
      rwa [← eq_of_id (mem_selectVoted hv).1 hw hid]
    · intro hw
      exact ⟨(mem_selectVoted hw).1, (mem_selectVoted hw).2, w, hw, rfl⟩
  rw [← hvoted.length_eq, ← countP_enabled, ← List.countP_eq_length_filter,
    List.countP_eq_countP_filter_add _ enabled fun w => ((selectVoted s).map (·.2)).contains w.2,
    List.countP_filter, List.countP_filter]
  congr 1

theorem length_active (h : s.wso.max_voted_witnesses ≤ STEEMIT_MAX_WITNESSES) :
    (active s).length = min STEEMIT_MAX_WITNESSES s.numEnabled := by
  have hvoted := length_selectVoted s
  have hrest := countP_canRun s
  rw [active, List.length_append, timeshare_eq, List.length_take, ← List.countP_eq_length_filter,
    (by_schedule_time_perm s).countP_eq]
  omega

end Active

end Calibrd.Chain.Schedule
