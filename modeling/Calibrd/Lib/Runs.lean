import Mathlib

/-!
# Runs of calls that may throw

A state machine whose calls return a new state or throw. A call that throws changes nothing.
`runCalls_rule` is the induction over a run: what every accepted call keeps, under a condition on
the calls (`Along`), holds in the state that the run reaches. `logCalls` collects what the accepted
calls log, and `logCalls_rule` is the induction for a statement about a state and the log so far.
Where a call that throws may leave another state, the condition is on every call (`Always`).
-/

namespace Calibrd.Lib

variable {S C E L : Type}

/-- Every call of the run meets the condition in the state it is made in. -/
def Always (next : S → C → S) (allowed : S → C → Prop) : S → List C → Prop
  | _, [] => True
  | s, c :: rest => allowed s c ∧ Always next allowed (next s c) rest

instance Always.decidable (next : S → C → S) (allowed : S → C → Prop)
    [∀ s c, Decidable (allowed s c)] : ∀ (s : S) (calls : List C), Decidable (Always next allowed s calls)
  | _, [] => inferInstanceAs (Decidable True)
  | s, c :: rest => @instDecidableAnd _ _ inferInstance (Always.decidable next allowed (next s c) rest)

/-- What every call keeps holds at the end. -/
theorem Always.rule {next : S → C → S} {allowed : S → C → Prop} {P : S → Prop}
    (hnext : ∀ {s : S} {c : C}, P s → allowed s c → P (next s c)) {s : S} {calls : List C} (hP : P s)
    (h : Always next allowed s calls) : P (calls.foldl next s) := by
  induction calls generalizing s with
  | nil => exact hP
  | cons c rest ih => exact ih (hnext hP h.1) h.2

variable (step : S → C → Except E S)

/-- The state after one call. -/
def performCall (s : S) (c : C) : S :=
  match step s c with
  | .ok s' => s'
  | .error _ => s

def runCalls (s : S) (calls : List C) : S := calls.foldl (performCall step) s

/-- The call returns. -/
def accepts (s : S) (c : C) : Bool :=
  match step s c with
  | .ok _ => true
  | .error _ => false

/-- Every accepted call of the run meets the condition in the state it is made in. -/
def Along (allowed : S → C → Prop) : S → List C → Prop :=
  Always (performCall step) fun s c => accepts step s c = true → allowed s c

instance Along.decidable (allowed : S → C → Prop) [∀ s c, Decidable (allowed s c)] (s : S)
    (calls : List C) : Decidable (Along step allowed s calls) :=
  Always.decidable _ _ s calls

/-- What the accepted calls of the run log. -/
def logCalls (log : S → C → List L) : S → List C → List L
  | _, [] => []
  | s, c :: rest =>
    (if accepts step s c = true then log s c else []) ++ logCalls log (performCall step s c) rest

variable {step} {P : S → Prop} {allowed : S → C → Prop} {s : S}

theorem performCall_of_ok {s' : S} {c : C} (h : step s c = .ok s') : performCall step s c = s' := by
  rw [performCall, h]

theorem eq_ok_of_accepts {c : C} (h : accepts step s c = true) :
    step s c = .ok (performCall step s c) := by
  unfold accepts at h
  unfold performCall
  split at h
  · rename_i s' hs
    rw [hs]
  · cases h

theorem runCalls_append (s : S) (calls calls' : List C) :
    runCalls step s (calls ++ calls') = runCalls step (runCalls step s calls) calls' :=
  List.foldl_append

theorem along_append {calls calls' : List C} : ∀ {s : S},
    Along step allowed s (calls ++ calls') ↔
      Along step allowed s calls ∧ Along step allowed (runCalls step s calls) calls' := by
  induction calls with
  | nil => exact (iff_of_eq (true_and _)).symm
  | cons c rest ih => exact (and_congr_right fun _ => ih).trans and_assoc.symm

theorem runCalls_rule (hstep : ∀ {s s' : S} {c : C}, P s → allowed s c → step s c = .ok s' → P s')
    {calls : List C} (hP : P s) (h : Along step allowed s calls) : P (runCalls step s calls) := by
  refine Always.rule (fun {s c} hP hallowed => ?_) hP h
  unfold performCall
  split
  · rename_i s' hs
    exact hstep hP (hallowed (by rw [accepts, hs])) hs
  · exact hP

theorem logCalls_rule (log : S → C → List L) {P : S → List L → Prop}
    (hstep : ∀ {s s' : S} {c : C} {l : List L}, P s l → allowed s c → step s c = .ok s' →
      P s' (l ++ log s c))
    {calls : List C} {l : List L} (hP : P s l) (h : Along step allowed s calls) :
    P (runCalls step s calls) (l ++ logCalls step log s calls) := by
  induction calls generalizing s l with
  | nil => rwa [logCalls, List.append_nil]
  | cons c rest ih =>
    rw [logCalls, ← List.append_assoc]
    refine ih ?_ h.2
    unfold performCall accepts
    split
    · rename_i s' hs
      exact hstep hP (h.1 (by rw [accepts, hs])) hs
    · rwa [if_neg Bool.false_ne_true, List.append_nil]

theorem along_of_forall (h : ∀ s c, allowed s c) (s : S) (calls : List C) :
    Along step allowed s calls := by
  induction calls generalizing s with
  | nil => trivial
  | cons c rest ih => exact ⟨fun _ => h s c, ih _⟩

/-- Two conditions that agree on accepted calls. -/
theorem along_congr {allowed' : S → C → Prop}
    (h : ∀ {s s' : S} {c : C}, step s c = .ok s' → (allowed s c ↔ allowed' s c)) (s : S)
    (calls : List C) : Along step allowed s calls ↔ Along step allowed' s calls := by
  induction calls generalizing s with
  | nil => exact Iff.rfl
  | cons c rest ih =>
    refine and_congr (imp_congr_right fun hacc => ?_) (ih _)
    unfold accepts at hacc
    split at hacc
    · rename_i s' hs
      exact h hs
    · cases hacc

theorem runCalls_rule_all (hstep : ∀ {s s' : S} {c : C}, P s → step s c = .ok s' → P s') (hP : P s)
    (calls : List C) : P (runCalls step s calls) := by
  have hall : Along step (fun _ _ => True) s calls := along_of_forall (fun _ _ => trivial) s calls
  exact runCalls_rule (fun h _ => hstep h) hP hall

theorem logCalls_rule_all (log : S → C → List L) {P : S → List L → Prop}
    (hstep : ∀ {s s' : S} {c : C} {l : List L}, P s l → step s c = .ok s' → P s' (l ++ log s c))
    (hP : P s []) (calls : List C) : P (runCalls step s calls) (logCalls step log s calls) := by
  have hall : Along step (fun _ _ => True) s calls := along_of_forall (fun _ _ => trivial) s calls
  exact logCalls_rule log (fun h _ => hstep h) hP hall

end Calibrd.Lib
