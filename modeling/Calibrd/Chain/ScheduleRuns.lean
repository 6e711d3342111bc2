import Calibrd.Chain.ScheduleInvariant

/-!
# When the schedule can be rebuilt

The steps of block application as calls, in any order and number; a chain of accepted blocks is a run
of them, and so is every point inside a block. `Ordered` holds in every run (`run_ordered`), so that
the count of active witnesses is the only thing that can make `update_witness_schedule4` throw. It expects as many as are registered, up to
`STEEMIT_MAX_WITNESSES`, but selects only those with a signing key
(`update_witness_schedule4_completes_iff`).
-/

namespace Calibrd.Chain.Schedule

open Calibrd.Lib

inductive Call where
  | write (w : Write)
  | process_header_extensions (b : Block) (id : WitnessId)
  | update_global_dynamic_data (b : Block)
  | update_signing_witness (id : WitnessId) (b : Block)
  | update_last_irreversible_block
  | update_witness_schedule
deriving DecidableEq, Repr

def Call.apply (s : State) : Call → Result State
  | write w => w.apply s
  | process_header_extensions b id => .ok (Schedule.process_header_extensions s b id)
  | update_global_dynamic_data b => Schedule.update_global_dynamic_data s b
  | update_signing_witness id b => .ok (Schedule.update_signing_witness s id b)
  | update_last_irreversible_block => Schedule.update_last_irreversible_block s
  | update_witness_schedule => Schedule.update_witness_schedule s

def run (s : State) (calls : List Call) : State := runCalls Call.apply s calls

section Runs

variable {s s' : State}

theorem Ordered.call {c : Call} (hs : Ordered s) (h : c.apply s = .ok s') : Ordered s' := by
  cases c with
  | write w => exact hs.written (Write.written h)
  | process_header_extensions b id =>
    cases h
    exact hs.written (.process_header_extensions s b id)
  | update_global_dynamic_data b => exact hs.update_global_dynamic_data h
  | update_signing_witness id b =>
    cases h
    exact hs.update_signing_witness id b
  | update_last_irreversible_block => exact hs.update_last_irreversible_block h
  | update_witness_schedule => exact hs.update_witness_schedule h

theorem Ordered.run (hs : Ordered s) (calls : List Call) : Ordered (run s calls) :=
  runCalls_rule_all (fun hs h => Ordered.call hs h) hs calls

theorem run_ordered (accounts : List AccountName) (init_miner : AccountName) (init_key : PublicKey)
    (calls : List Call) : Ordered (run (genesis accounts init_miner init_key) calls) :=
  (Ordered.genesis accounts init_miner init_key).run calls

end Runs

/-- In every run the slots go round: a witness has its next slot after all others, and not before. -/
theorem run_round_robin (accounts : List AccountName) (init_miner : AccountName)
    (init_key : PublicKey) (calls : List Call) (i j : ℕ) :
    let s := run (genesis accounts init_miner init_key) calls
    get_scheduled_witness s i = get_scheduled_witness s j ↔
      i ≡ j [MOD s.wso.num_scheduled_witnesses] := by
  intro s
  have hs : Ordered s := run_ordered accounts init_miner init_key calls
  have hlt (k : ℕ) : k % s.wso.num_scheduled_witnesses < s.wso.num_scheduled_witnesses :=
    Nat.mod_lt k (List.length_pos_iff.2 hs.nonempty)
  have hget (k : ℕ) : get_scheduled_witness s k =
      s.wso.current_shuffled_witnesses.toList.get ⟨_, hlt (s.current_aslot + k)⟩ := dif_pos (hlt _)
  rw [hget, hget, hs.distinct.get_inj_iff, Fin.ext_iff]
  exact ⟨Nat.ModEq.add_left_cancel' _, Nat.ModEq.add_left _⟩

/-- In every run: the schedule is rebuilt exactly if all registered witnesses have a signing key, or
`STEEMIT_MAX_WITNESSES` of them. -/
theorem update_witness_schedule4_completes_iff (accounts : List AccountName)
    (init_miner : AccountName) (init_key : PublicKey) (calls : List Call) :
    (∃ s', update_witness_schedule4 (run (genesis accounts init_miner init_key) calls) = .ok s') ↔
      min STEEMIT_MAX_WITNESSES
          (run (genesis accounts init_miner init_key) calls).witnesses.length ≤
        (run (genesis accounts init_miner init_key) calls).numEnabled := by
  have hs := run_ordered accounts init_miner init_key calls
  generalize run (genesis accounts init_miner init_key) calls = s at hs ⊢
  have hlength := length_active hs.max_voted
  have hle : s.numEnabled ≤ s.witnesses.length := List.countP_le_length
  constructor
  · rintro ⟨s', hs'⟩
    have hcount := (Rescheduled.of_ok hs').count
    omega
  · intro hmin
    have hcount : (active s).length = min STEEMIT_MAX_WITNESSES s.witnesses.length := by omega
    exact update_witness_schedule4_ok hs.votes hs.registered (hs.active_ne_nil hcount) hcount

/-- With a second witness that has a key. -/
theorem update_witness_schedule4_completes_twoKeys :
    ∃ s', update_witness_schedule4 (run (genesis [1, 2] 1 10)
      [.write (.witness_update 2 0 (some 20) {} true)]) = .ok s' :=
  (update_witness_schedule4_completes_iff [1, 2] 1 10
    [.write (.witness_update 2 0 (some 20) {} true)]).2 (by decide +kernel)

/-- A second witness that is registered without a key stops the schedule. -/
theorem disabled_witness_stops_schedule :
    0 < (run (genesis [1, 2] 1 10) [.write (.witness_update 2 0 none {} true)]).numEnabled ∧
      update_witness_schedule4 (run (genesis [1, 2] 1 10)
        [.write (.witness_update 2 0 none {} true)]) = .error (.active_witnesses 1 2) := by
  decide +kernel

end Calibrd.Chain.Schedule
