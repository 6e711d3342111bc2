import Calibrd.Chain.ScheduleRounds

/-!
# When hardforks are applied

The last step of a block. Up to hardfork 5 the time alone decides; from then on the version that the
last schedule update counted a majority for. Along a chain of accepted blocks (`Progress`) the
hardforks are applied one after the other, and each one above 5 is endorsed by the witnesses that
were scheduled at that update (`hardfork_gating`).
-/

namespace Calibrd.Chain.Schedule

open Calibrd.Lib

section Processing

def STEEMIT_HARDFORK_0_5 : ℕ := 5

/-- `_hardfork_versions`: hardfork `n` has the version `0.n`. -/
def hardfork_versions (hardfork : ℕ) : ℕ := hardfork * 2 ^ 16

/-- `_hardfork_times`. -/
def hardfork_times : List ℕ :=
  [STEEMIT_GENESIS_TIME, 1461605400, 1461693600, 1461762000, 1462028400, 1464714000, 1467295200,
    1467590400, 1467594000, 1468454400, 1468584000, 1468767600, 1469545200, 1471269600, 1474383600,
    1478620800, 1481040000, 1490886000, 1490886000, 1497970800]

/-- Apply the next hardfork as long as one is due. Returns the hardforks that were applied, as the
virtual operations report them. -/
def applyWhile (due : State → Bool) (ballots : List (WitnessId × ℤ)) :
    ℕ → State → Result (State × List ℕ)
  | 0, s => .ok (s, [])
  | fuel + 1, s =>
    if due s then
      if s.last_hardfork < STEEMIT_NUM_HARDFORKS then do
        let t ← apply_hardfork s (hardfork_versions (s.last_hardfork + 1)) ballots
        let (t, applied) ← applyWhile due ballots fuel t
        return (t, (s.last_hardfork + 1) :: applied)
      else .error .unknown_hardfork
    else .ok (s, [])

/-- The witnesses have voted for a later version, and its time has come. -/
def dueByVote (s : State) : Bool :=
  hardfork_versions s.last_hardfork < s.next_hardfork && s.next_hardfork_time ≤ s.head_block_time

/-- The time of one of the first hardforks has come. -/
def dueByTime (s : State) : Bool :=
  s.last_hardfork < STEEMIT_NUM_HARDFORKS &&
    hardfork_times.getD (s.last_hardfork + 1) 0 ≤ s.head_block_time &&
    s.last_hardfork < STEEMIT_HARDFORK_0_5

/-- Every round applies a hardfork, so there are no more rounds than hardforks. -/
def process_hardforks (s : State) (ballots : List (WitnessId × ℤ)) : Result (State × List ℕ) :=
  if s.has_hardfork STEEMIT_HARDFORK_0_5 then
    applyWhile dueByVote ballots (STEEMIT_NUM_HARDFORKS + 1) s
  else applyWhile dueByTime ballots (STEEMIT_NUM_HARDFORKS + 1) s

end Processing

section Loop

variable {s s' : State} {due : State → Bool} {ballots : List (WitnessId × ℤ)} {fuel : ℕ}
  {applied : List ℕ}

/-- What decides whether a hardfork is due, besides the number of the last one. -/
def State.gate (s : State) : ℕ × ℕ × ℕ := (s.head_block_time, s.next_hardfork, s.next_hardfork_time)

theorem apply_hardfork_spec {version : ℕ} (h : apply_hardfork s version ballots = .ok s') :
    s'.gate = s.gate ∧ s'.last_hardfork = s.last_hardfork + 1 ∧
      s'.current_hardfork_version = version := by
  replace h := ok_of_check h
  obtain ⟨t, ht, h⟩ := bind_ok.1 h
  cases h
  rw [hardforkChanges_rest ht]
  exact ⟨rfl, rfl, rfl⟩

/-- What a round does, or why there is none. -/
theorem applyWhile_succ (h : applyWhile due ballots (fuel + 1) s = .ok (s', applied)) :
    (due s = false ∧ s' = s ∧ applied = []) ∨
      ∃ t rest, due s = true ∧ s.last_hardfork < STEEMIT_NUM_HARDFORKS ∧
        apply_hardfork s (hardfork_versions (s.last_hardfork + 1)) ballots = .ok t ∧
        applyWhile due ballots fuel t = .ok (s', rest) ∧ applied = (s.last_hardfork + 1) :: rest := by
  rw [applyWhile] at h
  split at h
  · rename_i hdue
    split at h
    · rename_i hlt
      obtain ⟨t, ht, h⟩ := bind_ok.1 h
      obtain ⟨⟨u, rest⟩, hrest, h⟩ := bind_ok.1 h
      obtain ⟨rfl, rfl⟩ := Prod.mk.inj (Except.ok.inj h)
      exact .inr ⟨t, rest, hdue, hlt, ht, hrest, rfl⟩
    · cases h
  · rename_i hdue
    obtain ⟨rfl, rfl⟩ := Prod.mk.inj (Except.ok.inj h)
    exact .inl ⟨Bool.eq_false_iff.2 hdue, rfl, rfl⟩

/-- The loop applies consecutive hardforks, each of them when it is due. -/
structure AppliedInOrder (due : State → Bool) (s s' : State) (applied : List ℕ) : Prop where
  gate : s'.gate = s.gate
  last : s'.last_hardfork = s.last_hardfork + applied.length
  inOrder : applied = List.range' (s.last_hardfork + 1) applied.length
  version : s.current_hardfork_version = hardfork_versions s.last_hardfork →
    s'.current_hardfork_version = hardfork_versions s'.last_hardfork
  due : ∀ n ∈ applied, ∃ t, t.gate = s.gate ∧ t.last_hardfork + 1 = n ∧ due t = true

theorem applyWhile_inOrder (h : applyWhile due ballots fuel s = .ok (s', applied)) :
    AppliedInOrder due s s' applied := by
  have hnone : AppliedInOrder due s s [] :=
    ⟨rfl, rfl, rfl, fun hversion => hversion, by simp⟩
  induction fuel generalizing s applied with
  | zero =>
    obtain ⟨rfl, rfl⟩ := Prod.mk.inj (Except.ok.inj h)
    exact hnone
  | succ fuel ih =>
    rcases applyWhile_succ h with ⟨-, rfl, rfl⟩ | ⟨t, rest, hdue, -, ht, hrest, rfl⟩
    · exact hnone
    · obtain ⟨hgate, hlast, hversion⟩ := apply_hardfork_spec ht
      have hmore := ih hrest ⟨rfl, rfl, rfl, fun hversion => hversion, by simp⟩
      refine ⟨hmore.gate.trans hgate, ?_, ?_, fun _ => hmore.version ?_, ?_⟩
      · rw [hmore.last, hlast, List.length_cons]
        omega
      · rw [List.length_cons, List.range'_succ, ← hlast, ← hmore.inOrder]
      · rw [hversion, hlast]
      · refine List.forall_mem_cons.2 ⟨⟨s, rfl, rfl, hdue⟩, fun n hn => ?_⟩
        obtain ⟨u, hu, hnum, hdue'⟩ := hmore.due n hn
        exact ⟨u, hu.trans hgate, hnum, hdue'⟩

theorem Ordered.applyWhile (hs : Ordered s)
    (h : applyWhile due ballots fuel s = .ok (s', applied)) : Ordered s' := by
  induction fuel generalizing s applied with
  | zero =>
    obtain ⟨rfl, -⟩ := Prod.mk.inj (Except.ok.inj h)
    exact hs
  | succ fuel ih =>
    rcases applyWhile_succ h with ⟨-, rfl, -⟩ | ⟨t, rest, -, -, ht, hrest, -⟩
    · exact hs
    · exact ih (hs.written (Write.written (w := .apply_hardfork _ _) ht)) hrest

theorem Ordered.process_hardforks (hs : Ordered s)
    (h : process_hardforks s ballots = .ok (s', applied)) : Ordered s' := by
  unfold Schedule.process_hardforks at h
  split at h <;> exact hs.applyWhile h

/-- The first hardforks are applied by time, the others by vote. -/
theorem process_hardforks_cases (h : process_hardforks s ballots = .ok (s', applied)) :
    (5 ≤ s.last_hardfork ∧ AppliedInOrder dueByVote s s' applied) ∨
      (s.last_hardfork < 5 ∧ AppliedInOrder dueByTime s s' applied) := by
  unfold process_hardforks at h
  split_ifs at h with hfive
  · exact .inl ⟨of_decide_eq_true hfive, applyWhile_inOrder h⟩
  · exact .inr ⟨Nat.lt_of_not_le fun hle => hfive (decide_eq_true hle), applyWhile_inOrder h⟩

end Loop

section Frames

variable {s s' : State}

/-- What the blocks change about the hardforks by a schedule update or a hardfork only. -/
def State.hardforks (s : State) : ℕ × ℕ × ℕ × ℕ :=
  (s.last_hardfork, s.current_hardfork_version, s.next_hardfork, s.next_hardfork_time)

theorem Write.keeps_hardforks {w : Write} (hw : w.isOrdinary = true) (h : w.apply s = .ok s') :
    s'.hardforks = s.hardforks ∧ s'.head_block_time = s.head_block_time := by
  obtain ⟨heq, hkept⟩ := Write.frame h
  obtain ⟨hlast, hversion⟩ := hkept hw
  rw [State.hardforks, hlast, hversion, heq]
  exact ⟨rfl, rfl⟩

theorem applyWrites_keeps {writes : List Write} (hw : ∀ w ∈ writes, w.isOrdinary = true)
    (h : applyWrites s writes = .ok s') :
    s'.hardforks = s.hardforks ∧ s'.head_block_time = s.head_block_time := by
  induction writes generalizing s with
  | nil =>
    rw [← Except.ok.inj h]
    exact ⟨rfl, rfl⟩
  | cons w writes ih =>
    rw [applyWrites, List.foldlM_cons] at h
    obtain ⟨t, ht, h⟩ := bind_ok.1 h
    obtain ⟨hone, hmore⟩ := List.forall_mem_cons.1 hw
    obtain ⟨hsame, htime⟩ := Write.keeps_hardforks hone ht
    obtain ⟨hsame', htime'⟩ := ih hmore h
    exact ⟨hsame'.trans hsame, htime'.trans htime⟩

theorem update_global_dynamic_data_hardforks {b : Block}
    (h : update_global_dynamic_data s b = .ok s') :
    s'.hardforks = s.hardforks ∧ s'.head_block_time = b.timestamp := by
  obtain ⟨t, ht, rfl⟩ := update_global_dynamic_data_rule
    (P := fun t => t.hardforks = s.hardforks) (fun _ _ hu => hu) rfl h
  exact ⟨ht, rfl⟩

end Frames

section Votes

variable {s s' : State}

/-- The version and the time that the witness votes for. -/
def Witness.hardforkVote (w : Witness) : ℕ × ℕ := (w.hardfork_version_vote, w.hardfork_time_vote)

/-- Enough of the distinct scheduled witnesses vote for the same version and time, and the version is
at least `version`. -/
def Endorsed (s : State) (version time : ℕ) : Prop :=
  ∃ scheduled v, scheduledWitnesses s = .ok scheduled ∧ (scheduled.map (·.1.owner)).Nodup ∧
    version ≤ v ∧ s.wso.hardfork_required_witnesses ≤
      scheduled.countP fun w => decide (w.1.hardforkVote = (v, time))

/-- What the count of the votes sets the next hardfork to. -/
theorem countVersions_gate (h : countVersions s = .ok s') :
    s'.next_hardfork = s.current_hardfork_version ∨
      ∃ scheduled v, scheduledWitnesses s = .ok scheduled ∧ s'.next_hardfork = hardforkVersion v ∧
        s.wso.hardfork_required_witnesses ≤
          scheduled.countP fun w => decide (w.1.hardforkVote = (v, s'.next_hardfork_time)) := by
  obtain ⟨scheduled, hscheduled, h⟩ := bind_ok.1 h
  dsimp only at h
  split at h
  · rename_i v hv
    cases h
    refine .inr ⟨scheduled, v.1.1, hscheduled, rfl, ?_⟩
    have hcount : s.wso.hardfork_required_witnesses ≤ v.2 := by simpa using List.find?_some hv
    have hmem := List.mem_of_find?_eq_some hv
    rw [List.mem_insertionSort, tally, List.mem_map] at hmem
    obtain ⟨vote, -, rfl⟩ := hmem
    exact hcount.trans (le_of_eq (List.countP_map ..))
  · cases h
    exact .inl rfl

/-- The votes of the table, under the names of the witnesses. -/
def State.votes (s : State) : List (AccountName × ℕ × ℕ) :=
  s.witnesses.map fun w => (w.owner, w.hardforkVote)

def State.voteOf (s : State) (name : AccountName) : Option (ℕ × ℕ) :=
  (s.votes.find? fun w => w.1 == name).map (·.2)

theorem get_witness_voteOf {name : AccountName} {w : Witness × WitnessId}
    (h : s.get_witness name = .ok w) : s.voteOf name = some w.1.hardforkVote := by
  rw [State.get_witness] at h
  split at h
  · rename_i v hv
    obtain rfl := Except.ok.inj h
    have hfirst := congrArg (Option.map Prod.fst) hv
    rw [show (fun w : Witness × WitnessId => w.1.owner == name) =
      (fun w : Witness => w.owner == name) ∘ Prod.fst from rfl, ← List.find?_map,
      List.zipIdx_map_fst] at hfirst
    rw [State.voteOf, State.votes, List.find?_map, Option.map_map]
    exact congrArg (Option.map _) hfirst
  · cases h

theorem scheduledWitnesses_votes {l : List (Witness × WitnessId)}
    (h : scheduledWitnesses s = .ok l) : l.map (fun w => some w.1.hardforkVote) =
      s.wso.current_shuffled_witnesses.toList.map s.voteOf := by
  have hall := mapM_eq_ok.1 h
  clear h
  generalize s.wso.current_shuffled_witnesses.toList = names at hall
  induction hall with
  | nil => rfl
  | cons hw _ ih => rw [List.map_cons, List.map_cons, ih, get_witness_voteOf hw]

theorem marked_votes (s : State) : (marked s).votes = s.votes := by
  refine List.ext_getElem? fun i => ?_
  rw [State.votes, State.votes, List.getElem?_map, List.getElem?_map, getElem?_marked,
    Option.map_map]
  rfl

/-- The schedule update sets the next hardfork to a version that its scheduled witnesses endorse, or
takes an earlier one back. -/
theorem update_witness_schedule4_gate (hs : Ordered s) (h : update_witness_schedule4 s = .ok s') :
    s'.last_hardfork = s.last_hardfork ∧
    s'.current_hardfork_version = s.current_hardfork_version ∧
    s'.head_block_time = s.head_block_time ∧
    (s'.next_hardfork = s.current_hardfork_version ∨
      2 ^ 16 ∣ s'.next_hardfork ∧ Endorsed s s'.next_hardfork s'.next_hardfork_time) := by
  obtain ⟨s1, s2, time, props, h1, -, h2, hcounted, rfl⟩ := update_witness_schedule4_steps h
  have htimes : SameButTimes (marked s) s1 := .advanceTimes h1
  have hrest := advanceTimes_marked_rest h1
  refine ⟨congrArg (·.last_hardfork) hcounted, congrArg (·.current_hardfork_version) hcounted,
    congrArg (·.head_block_time) hcounted, ?_⟩
  rcases countVersions_gate h2 with hnext | ⟨scheduled, v, hscheduled, hnext, hcount⟩
  · rw [hrest] at hnext
    exact .inl hnext
  · refine .inr ⟨?_, ?_⟩
    · exact hnext ▸ Dvd.intro_left _ rfl
    · have hnames : s1.wso.current_shuffled_witnesses = s.wso.current_shuffled_witnesses := by
        rw [hrest]
      have hrequired : s1.wso.hardfork_required_witnesses = s.wso.hardfork_required_witnesses := by
        rw [hrest]
      have hvoteOf : s1.voteOf = s.voteOf := by
        have hmap := congrArg (List.map fun w : Witness => (w.owner, w.hardforkVote)) htimes.witnesses
        rw [List.map_map, List.map_map] at hmap
        have hvotes : s1.votes = s.votes := hmap.trans (marked_votes s)
        funext name
        rw [State.voteOf, State.voteOf, hvotes]
      obtain ⟨round, hround⟩ := scheduledWitnesses_ok hs.registered
      have hvotes := scheduledWitnesses_votes hscheduled
      rw [hnames, hvoteOf, ← scheduledWitnesses_votes hround] at hvotes
      refine ⟨round, v, hround, ?_, hnext ▸ Nat.div_mul_le_self v (2 ^ 16), ?_⟩
      · rw [(scheduledWitnesses_spec hround).1]
        exact hs.distinct
      · have hcounts : ∀ l : List (Witness × WitnessId),
            (l.countP fun w => decide (w.1.hardforkVote = (v, s2.next_hardfork_time))) =
              (l.map fun w => some w.1.hardforkVote).countP fun vote =>
                decide (vote = some (v, s2.next_hardfork_time)) := by
          intro l
          rw [List.countP_map]
          simp only [Function.comp_def, Option.some.injEq]
        rw [hrequired, hcounts, hvotes, ← hcounts] at hcount
        exact hcount

end Votes

section Chain

/-- A block with the writes of its maintenance, and the votes that a hardfork finds. Hardforks are
applied by the last step only. -/
structure Step where
  block : Block
  maintenance : List Write := []
  ballots : List (WitnessId × ℤ) := []
  ordinary : ∀ w ∈ block.transactions ++ maintenance, w.isOrdinary = true

/-- The part of `apply_block` before the schedule update. -/
def untilSchedule (s : State) (b : Block) : Result State := do
  let id ← validate_block_header s b
  let s := process_header_extensions s b id
  let (witness, _) ← s.get_witness b.witness
  check (!s.has_hardfork 5 || s.current_hardfork_version ≤ witness.running_version) .old_version
  let s ← applyWrites s b.transactions
  let s ← update_global_dynamic_data s b
  update_last_irreversible_block (update_signing_witness s id b)

/-- The state in which the block's schedule update, if it has one, finds the witnesses. -/
def scheduleUpdate (s : State) (b : Block) : Option State :=
  match untilSchedule s b with
  | .ok u => if u.head_block_num % STEEMIT_MAX_WITNESSES == 0 then some u else none
  | .error _ => none

/-- A chain so far: its state, the state in which the last schedule update found the witnesses, and
the hardforks that were applied. -/
structure Progress where
  state : State
  lastUpdate : Option State := none
  applied : List ℕ := []

def Progress.step (p : Progress) (b : Step) : Result Progress := do
  let s ← apply_block p.state b.block b.maintenance
  let (s, hardforks) ← process_hardforks s b.ballots
  return { state := s
           lastUpdate := (scheduleUpdate p.state b.block).or p.lastUpdate
           applied := p.applied ++ hardforks }

/-- The chain of the blocks, from a state on. -/
def progress (s : State) (steps : List Step) : Result Progress :=
  steps.foldlM Progress.step { state := s }

variable {s s' : State} {b : Step}

/-- A block in three parts. -/
theorem apply_block_eq (s : State) (b : Block) (maintenance : List Write) :
    apply_block s b maintenance = untilSchedule s b >>= fun u =>
      update_witness_schedule u >>= fun v => applyWrites v maintenance := by
  simp only [apply_block, untilSchedule, bind_assoc]

theorem untilSchedule_spec (hs : Ordered s) (hb : ∀ w ∈ b.block.transactions, w.isOrdinary = true)
    (h : untilSchedule s b.block = .ok s') :
    Ordered s' ∧ s'.hardforks = s.hardforks ∧ s'.head_block_time = b.block.timestamp := by
  simp only [untilSchedule, bind_ok, exists_check_eq_ok] at h
  obtain ⟨id, -, _, -, -, s1, h1, s2, h2, h⟩ := h
  have hordered1 := hs.written ((Written.process_header_extensions s b.block id).trans
    (.applyWrites h1))
  have hordered2 := (hordered1.update_global_dynamic_data h2).update_signing_witness id b.block
  obtain ⟨hsame1, -⟩ := applyWrites_keeps hb h1
  obtain ⟨hsame2, htime2⟩ := update_global_dynamic_data_hardforks h2
  refine ⟨hordered2.update_last_irreversible_block h, ?_⟩
  rw [update_last_irreversible_block_rest h]
  exact ⟨hsame2.trans hsame1, htime2⟩

/-- The hardforks so far came one after the other, and if the next version is a later one, then the
witnesses of the last schedule update endorse it. -/
structure Gated (p : Progress) : Prop where
  ordered : Ordered p.state
  applied : p.applied = List.range' 1 p.state.last_hardfork
  version : p.state.current_hardfork_version = hardfork_versions p.state.last_hardfork
  divides : 2 ^ 16 ∣ p.state.next_hardfork
  endorsed : hardfork_versions p.state.last_hardfork < p.state.next_hardfork →
    ∃ u, p.lastUpdate = some u ∧ Endorsed u p.state.next_hardfork p.state.next_hardfork_time

theorem Gated.genesis (accounts : List AccountName) (init_miner : AccountName)
    (init_key : PublicKey) : Gated { state := Schedule.genesis accounts init_miner init_key } where
  ordered := .genesis accounts init_miner init_key
  applied := rfl
  version := (Nat.zero_mul _).symm
  divides := dvd_zero _
  endorsed h := absurd h (by simp [Schedule.genesis, hardfork_versions])

variable {p : Progress}

theorem Gated.congr (hp : Gated p) (hs' : Ordered s') (h : s'.hardforks = p.state.hardforks) :
    Gated { p with state := s' } := by
  simp only [State.hardforks, Prod.mk.injEq] at h
  obtain ⟨hlast, hversion, hnext, htime⟩ := h
  refine ⟨hs', ?_, ?_, ?_, ?_⟩ <;> simp only [hlast, hversion, hnext, htime]
  exacts [hp.applied, hp.version, hp.divides, hp.endorsed]

/-- A schedule update takes the next hardfork back, or sets it to an endorsed one. -/
theorem Gated.update_witness_schedule4 (hp : Gated p)
    (h : update_witness_schedule4 p.state = .ok s') :
    Gated { p with state := s', lastUpdate := some p.state } := by
  obtain ⟨hlast, hcurrent, -, hnext⟩ := update_witness_schedule4_gate hp.ordered h
  refine ⟨hp.ordered.rescheduled (.of_ok h), ?_, ?_, ?_, fun hlt => ?_⟩
  · rw [hlast]
    exact hp.applied
  · rw [hcurrent, hlast]
    exact hp.version
  · rcases hnext with hnext | ⟨hdvd, -⟩
    · rw [hnext, hp.version]
      exact Dvd.intro_left _ rfl
    · exact hdvd
  · rcases hnext with hnext | ⟨-, hendorsed⟩
    · rw [hnext, hlast, hp.version] at hlt
      exact absurd hlt (lt_irrefl _)
    · exact ⟨p.state, rfl, hendorsed⟩

/-- Before the last step of a block: the schedule may have been updated, nothing else. -/
theorem Gated.apply_block (hp : Gated p) (h : apply_block p.state b.block b.maintenance = .ok s') :
    Gated { p with state := s', lastUpdate := (scheduleUpdate p.state b.block).or p.lastUpdate } ∧
      s'.head_block_time = b.block.timestamp := by
  rw [apply_block_eq] at h
  obtain ⟨u, hu, h⟩ := bind_ok.1 h
  obtain ⟨v, hv, h⟩ := bind_ok.1 h
  have hordinary := List.forall_mem_append.1 b.ordinary
  obtain ⟨hordered, hsame, htime⟩ := untilSchedule_spec hp.ordered hordinary.1 hu
  obtain ⟨hsame', htime'⟩ := applyWrites_keeps hordinary.2 h
  have hordered' : Ordered s' := (hordered.update_witness_schedule hv).written (.applyWrites h)
  rw [scheduleUpdate, hu]
  dsimp only
  unfold update_witness_schedule at hv
  split_ifs at hv ⊢ with hround
  · have hnow := (update_witness_schedule4_gate hordered hv).2.2.1
    exact ⟨((hp.congr hordered hsame).update_witness_schedule4 hv).congr hordered' hsame',
      by rw [htime', hnow, htime]⟩
  · obtain rfl := Except.ok.inj hv
    exact ⟨hp.congr hordered' (hsame'.trans hsame), htime'.trans htime⟩

/-- The version that is endorsed is at least the version of the hardfork that it lets through. -/
theorem Gated.due (hp : Gated p) {t : State} (hgate : t.gate = p.state.gate)
    (hle : p.state.last_hardfork ≤ t.last_hardfork) (hdue : dueByVote t = true) :
    ∃ u, p.lastUpdate = some u ∧ p.state.next_hardfork_time ≤ p.state.head_block_time ∧
      Endorsed u (hardfork_versions (t.last_hardfork + 1)) p.state.next_hardfork_time := by
  simp only [State.gate, Prod.mk.injEq] at hgate
  obtain ⟨hnow, hnext, hat⟩ := hgate
  simp only [dueByVote, Bool.and_eq_true, decide_eq_true_eq, hnow, hnext, hat] at hdue
  obtain ⟨hlt, htime⟩ := hdue
  obtain ⟨k, hk⟩ := hp.divides
  rw [hk, hardfork_versions, mul_comm] at hlt
  have hnum : t.last_hardfork < k := Nat.lt_of_mul_lt_mul_left hlt
  have hversion : hardfork_versions (t.last_hardfork + 1) ≤ p.state.next_hardfork := by
    rw [hk, hardfork_versions, mul_comm]
    exact Nat.mul_le_mul_left _ hnum
  have hearlier : hardfork_versions p.state.last_hardfork < p.state.next_hardfork := by
    rw [hk, hardfork_versions, mul_comm]
    exact Nat.mul_lt_mul_of_pos_left (by omega) (by decide)
  obtain ⟨u, hu, scheduled, v, hscheduled, hnodup, hv, hcount⟩ := hp.endorsed hearlier
  exact ⟨u, hu, htime, scheduled, v, hscheduled, hnodup, hversion.trans hv, hcount⟩

theorem Gated.process_hardforks (hp : Gated p) {hardforks : List ℕ}
    {ballots : List (WitnessId × ℤ)} (h : process_hardforks p.state ballots = .ok (s', hardforks)) :
    Gated { p with state := s', applied := p.applied ++ hardforks } := by
  have hall : ∀ {due : State → Bool}, AppliedInOrder due p.state s' hardforks →
      Ordered s' → Gated { p with state := s', applied := p.applied ++ hardforks } := by
    intro due hdone hordered
    obtain ⟨-, hnext, htime⟩ := by simpa only [State.gate, Prod.mk.injEq] using hdone.gate
    refine ⟨hordered, ?_, hdone.version hp.version, ?_, ?_⟩
    · rw [hp.applied, hdone.inOrder, hdone.last, Nat.add_comm p.state.last_hardfork 1]
      exact List.range'_append_1
    · rw [hnext]
      exact hp.divides
    · intro hlt
      rw [hnext] at hlt ⊢
      rw [htime]
      refine hp.endorsed (lt_of_le_of_lt ?_ hlt)
      rw [hdone.last]
      exact Nat.mul_le_mul_right _ (Nat.le_add_right _ _)
  have hordered : Ordered s' := hp.ordered.process_hardforks h
  rcases process_hardforks_cases h with ⟨-, hdone⟩ | ⟨-, hdone⟩
  · exact hall hdone hordered
  · exact hall hdone hordered

theorem Gated.step {p p' : Progress} (hp : Gated p) (h : p.step b = .ok p') : Gated p' := by
  obtain ⟨s, hs, h⟩ := bind_ok.1 h
  obtain ⟨⟨t, hardforks⟩, ht, h⟩ := bind_ok.1 h
  cases h
  exact (hp.apply_block hs).1.process_hardforks ht

/-- On every chain of accepted blocks the hardforks are applied in order, each of them once, and a
hardfork above 5 only in a block whose time is at least a time for which, at the last schedule
update, enough of the witnesses scheduled then voted, all with one version that is at least its
own. -/
theorem hardfork_gating (accounts : List AccountName) (init_miner : AccountName)
    (init_key : PublicKey) (steps : List Step) (b : Step) (p p' : Progress)
    (hp : progress (genesis accounts init_miner init_key) steps = .ok p) (hb : p.step b = .ok p') :
    p'.applied = List.range' 1 p'.state.last_hardfork ∧
    ∃ hardforks, p'.applied = p.applied ++ hardforks ∧
      ∀ n ∈ hardforks, 5 < n → ∃ u time, p'.lastUpdate = some u ∧ time ≤ b.block.timestamp ∧
        Endorsed u (hardfork_versions n) time := by
  have hgated : Gated p := foldlM_rule (P := Gated) (fun hp h => hp.step h) (.genesis ..) hp
  refine ⟨(hgated.step hb).applied, ?_⟩
  obtain ⟨s, hs, hb⟩ := bind_ok.1 hb
  obtain ⟨⟨t, hardforks⟩, ht, hb⟩ := bind_ok.1 hb
  obtain ⟨hmid, htime⟩ := hgated.apply_block hs
  cases hb
  refine ⟨hardforks, rfl, fun n hn hfive => ?_⟩
  rcases process_hardforks_cases ht with ⟨-, hdone⟩ | ⟨hearly, hdone⟩
  · obtain ⟨v, hgate, rfl, hdue⟩ := hdone.due n hn
    have hle : s.last_hardfork ≤ v.last_hardfork := by
      have hmem := hdone.inOrder ▸ hn
      rw [List.mem_range'_1] at hmem
      omega
    obtain ⟨u, hu, hnow, hendorsed⟩ := hmid.due hgate hle hdue
    exact ⟨u, _, hu, htime ▸ hnow, hendorsed⟩
  · -- the time alone does not go beyond hardfork 5
    obtain ⟨v, -, rfl, hdue⟩ := hdone.due n hn
    simp only [dueByTime, Bool.and_eq_true, decide_eq_true_eq] at hdue
    exact absurd hfive (Nat.not_lt.2 hdue.2)

end Chain

section Voting

variable {s : State} {b : Block}

/-- The slots that the only scheduled witness has missed before its own block. -/
theorem foldlM_missSlot_alone (hone : s.wso.current_shuffled_witnesses = #[b.witness])
    (hw : b.witness ∈ s.owners) (k : ℕ) : (List.range k).foldlM (missSlot b) s = .ok s := by
  have hmiss : ∀ i, missSlot b s i = .ok s := by
    intro i
    have hname : get_scheduled_witness s (i + 1) = b.witness := by
      simp [get_scheduled_witness, WitnessSchedule.num_scheduled_witnesses, hone, Nat.mod_one]
    obtain ⟨w, hget⟩ := get_witness_ok hw
    have howner := (get_witness_spec hget).2
    simp only [missSlot, hname]
    rw [hget]
    exact if_pos (beq_iff_eq.2 howner)
  generalize List.range k = l
  induction l with
  | nil => rfl
  | cons i l ih => rw [List.foldlM_cons, hmiss]; exact ih

/-- Seventeen accounts, of which the first is the init miner. -/
def seventeen : State := genesis (List.range' 1 17) 1 101

/-- The first block comes at the time of hardfork 6 and registers the other witnesses. -/
def registration : Step where
  block :=
    { previous := ⟨0, 0⟩, timestamp := 1467295200, witness := 1, signee := 101
      transactions := (List.range' 2 16).map fun name =>
        .witness_update name 0 (some (100 + name)) {} true }
  ordinary := by decide

/-- A block after `num` others, with a vote for hardfork 6. -/
def votingBlock (num : ℕ) (witness : AccountName) : Step where
  block :=
    { previous := ⟨num, 0⟩, timestamp := 1467295200 + 3 * num, witness, signee := 100 + witness
      extensions :=
        [.version (hardfork_versions 6), .hardfork_version_vote (hardfork_versions 6) 1467295200] }
  ordinary := by simp

/-- Twenty blocks by the init miner, and twenty by the witnesses of the next schedule. -/
def votingBlocks : List Step :=
  (List.replicate 20 1 ++
    [13, 3, 16, 5, 1, 6, 7, 15, 10, 17, 9, 12, 11, 14, 2, 8, 4, 13, 3, 16]).mapIdx
      fun i name => votingBlock (i + 1) name

/-- The table after the transactions of the first block. -/
def registered : State :=
  ((applyWrites seventeen registration.block.transactions).toOption).getD seventeen

/-- The state in which the first block leaves the schedule. -/
def firstState : State :=
  update_signing_witness { registered with
    head_block_num := 1, head_block_id := ⟨1, 0⟩, head_block_time := 1467295200
    current_aslot := 2820000 } 0 registration.block

theorem untilSchedule_registration : untilSchedule seventeen registration.block = .ok firstState := by
  have hglobal : update_global_dynamic_data registered registration.block = .ok { registered with
      head_block_num := 1, head_block_id := ⟨1, 0⟩, head_block_time := 1467295200
      current_aslot := 2820000 } := by
    simp only [update_global_dynamic_data, bind_ok]
    exact ⟨registered, foldlM_missSlot_alone (by decide +kernel) (by decide +kernel) _,
      by decide +kernel⟩
  simp only [untilSchedule, bind_ok, exists_check_eq_ok]
  exact ⟨0, by decide +kernel, _, rfl, rfl, registered, by decide +kernel, _, hglobal, by decide +kernel⟩

/-- The first block, from the schedule update on. -/
def afterFirst : Result Progress := do
  let (s, hardforks) ← process_hardforks (← update_witness_schedule firstState) []
  return { state := s, applied := hardforks }

theorem progress_registration (steps : List Step) :
    progress seventeen (registration :: steps) = afterFirst >>= (steps.foldlM Progress.step ·) := by
  have hupdate : scheduleUpdate seventeen registration.block = none := by
    rw [scheduleUpdate, untilSchedule_registration]
    rfl
  have hstep : Progress.step { state := seventeen } registration = afterFirst := by
    rw [Progress.step, apply_block_eq, untilSchedule_registration, hupdate]
    rfl
  rw [progress, List.foldlM_cons, hstep]

/-- The first five hardforks are applied in the first block, the sixth after 17 scheduled witnesses have
voted for it. -/
theorem hardfork_gating_vote : ∃ p p', progress seventeen (registration :: votingBlocks) = .ok p ∧
    p.step (votingBlock 41 5) = .ok p' ∧ p.applied = [1, 2, 3, 4, 5] ∧
    p'.applied = [1, 2, 3, 4, 5, 6] ∧
    ∃ u time, p'.lastUpdate = some u ∧ time ≤ (votingBlock 41 5).block.timestamp ∧
      Endorsed u (hardfork_versions 6) time := by
  have hrun : (do
      let p ← afterFirst >>= (votingBlocks.foldlM Progress.step ·)
      let p' ← p.step (votingBlock 41 5)
      return (p.applied, p'.applied)) = .ok ([1, 2, 3, 4, 5], [1, 2, 3, 4, 5, 6]) := by decide +kernel
  obtain ⟨p, hp, hrun⟩ := bind_ok.1 hrun
  obtain ⟨p', hp', happlied⟩ := bind_ok.1 hrun
  obtain ⟨hfive, hsix⟩ := Prod.mk.inj (Except.ok.inj happlied)
  rw [← progress_registration] at hp
  obtain ⟨-, hardforks, hall, hgated⟩ := hardfork_gating (List.range' 1 17) 1 101
    (registration :: votingBlocks) (votingBlock 41 5) p p' hp hp'
  refine ⟨p, p', hp, hp', hfive, hsix, hgated 6 ?_ (by decide)⟩
  rw [hfive, hsix] at hall
  have hlast : hardforks = [6] := List.append_cancel_left hall.symm
  rw [hlast]
  exact List.mem_singleton_self 6

end Voting

end Calibrd.Chain.Schedule
