import Calibrd.Protocol.Authority

/-!
# Checking the authorities of a transaction

`sign_state::check_authority` counts the weights of the keys that signed and of the accounts that are
approved, where an account is approved by its own authority, up to a depth. Accounts once approved are
kept for the rest of the transaction. The accounts may depend on each other in circles.

An authority is `Derivable` when the weights of its signed keys and of its approved or derivable
accounts reach its threshold. The cache only holds such accounts and every check answers between the
derivations of the depth that is left and all of them (`check_authority_decides`).
-/

namespace Calibrd.Protocol

open Calibrd.Lib

variable {D : DataType → Type} {K : Type}

inductive VerifyError (K : Type) where
  /-- Thrown by a getter. -/
  | unknown_key (name : List Byte)
  | assert_exception (condition : String)
  | tx_missing_posting_auth (id : AccountName)
  | tx_missing_active_auth (id : AccountName)
  | tx_missing_owner_auth (id : AccountName)
  | tx_missing_other_auth (auth : Authority K)
  | tx_irrelevant_sig
deriving DecidableEq

/-- The error reports a missing authority. -/
def VerifyError.isMissing : VerifyError K → Bool
  | .tx_missing_posting_auth _ | .tx_missing_active_auth _ | .tx_missing_owner_auth _
  | .tx_missing_other_auth _ => true
  | _ => false

/-- `authority_getter`. It throws for a name without an account. -/
abbrev AuthorityGetter (K : Type) := List Byte → Option (Authority K)

def AuthorityGetter.call (get : AuthorityGetter K) (name : List Byte) :
    Except (VerifyError K) (Authority K) :=
  (get name).elim (.error (.unknown_key name)) .ok

theorem AuthorityGetter.call_eq_ok {get : AuthorityGetter K} {name : List Byte}
    {auth : Authority K} : get.call name = .ok auth ↔ get name = some auth := by
  unfold AuthorityGetter.call
  cases get name <;> simp

theorem AuthorityGetter.call_eq_error {get : AuthorityGetter K} {name : List Byte}
    {e : VerifyError K} (h : get.call name = .error e) : e.isMissing = false := by
  unfold AuthorityGetter.call at h
  cases hget : get name with
  | none =>
    rw [hget] at h
    cases h
    rfl
  | some auth =>
    rw [hget] at h
    cases h

/-! ## Derivable authorities -/

variable {a : List Byte}

namespace AuthorityGetter

variable (get_active : AuthorityGetter K) (signed : K → Prop) (approved : List Byte → Prop)

/-- The authorities of accounts as rules. -/
def ruleOf : K ⊕ List Byte → Option (Rule (K ⊕ List Byte)) :=
  Sum.elim (fun _ => none) fun a => (get_active a).map Authority.toRule

/-- The weights of the signed keys and of the approved or derivable accounts reach the threshold. -/
def Derivable (auth : Authority K) : Prop :=
  auth.toRule.Met (Derives (Sum.elim signed approved) get_active.ruleOf)

/-- The same with accounts nested at most `n` deep. -/
def DerivableWithin (n : ℕ) (auth : Authority K) : Prop :=
  auth.toRule.Met (Holds (Sum.elim signed approved) get_active.ruleOf n)

variable {get_active signed approved}

theorem holds_key {n : ℕ} {k : K} :
    Holds (Sum.elim signed approved) get_active.ruleOf n (.inl k) ↔ signed k := by
  cases n with
  | zero => exact Iff.rfl
  | succ n => exact or_iff_left fun ⟨_, h, _⟩ => nomatch h

theorem ruleOf_account {P : Rule (K ⊕ List Byte) → Prop} :
    (∃ r, get_active.ruleOf (.inr a) = some r ∧ P r) ↔
      ∃ auth, get_active a = some auth ∧ P auth.toRule := by
  simp [ruleOf]

theorem holds_account {n : ℕ} :
    Holds (Sum.elim signed approved) get_active.ruleOf (n + 1) (.inr a) ↔
      approved a ∨ ∃ auth, get_active a = some auth ∧
        get_active.DerivableWithin signed approved n auth :=
  or_congr_right ruleOf_account

theorem derives_account :
    Derives (Sum.elim signed approved) get_active.ruleOf (.inr a) ↔
      approved a ∨ ∃ auth, get_active a = some auth ∧ get_active.Derivable signed approved auth :=
  derives_iff.trans (or_congr_right ruleOf_account)

end AuthorityGetter

/-! ## The signing state -/

variable [LinearOrder K]

structure SignState (K : Type) [LinearOrder K] where
  /-- The keys that signed, and whether one was used. -/
  provided_signatures : OrdMap K Bool
  approved_by : List (List Byte)

namespace SignState

/-- `STEEMIT_TEMP_ACCOUNT`, which needs no authority. -/
def temp : List Byte := ofAscii "temp"

def init (sigs : List K) : SignState K :=
  { provided_signatures := sigs.foldl (fun m key => m.insert key false) .empty
    approved_by := [temp] }

def approve (s : SignState K) (ids : List AccountName) : SignState K :=
  ids.foldl (fun s id => { s with approved_by := id.toString :: s.approved_by }) s

def useKey (s : SignState K) (k : K) : SignState K :=
  { s with provided_signatures := s.provided_signatures.insert k true }

def signed_by (available_keys : List K) (s : SignState K) (k : K) : Bool × SignState K :=
  if s.provided_signatures.contains k then (true, s.useKey k)
  else if k ∈ available_keys then (true, s.useKey k)
  else (false, s)

/-- What a check returns: an answer and the state it leaves. -/
abbrev Check (K : Type) [LinearOrder K] := SignState K → Except (VerifyError K) (Bool × SignState K)

/-- The loop over `key_auths`: whether it returned early, the weight so far and the state. -/
def checkKeys (available_keys : List K) (threshold : ℕ) :
    List (K × ℕ) → ℕ → SignState K → Bool × ℕ × SignState K
  | [], total_weight, s => (false, total_weight, s)
  | (k, w) :: rest, total_weight, s =>
    match s.signed_by available_keys k with
    | (true, s) =>
      if threshold ≤ (total_weight + w) % 2 ^ 32 then (true, (total_weight + w) % 2 ^ 32, s)
      else checkKeys available_keys threshold rest ((total_weight + w) % 2 ^ 32) s
    | (false, s) => checkKeys available_keys threshold rest total_weight s

/-- An account of an authority. `check` checks its own authority, unless the depth is reached. -/
def checkAccount (get_active : AuthorityGetter K) (check : Option (Authority K → Check K))
    (a : AccountName) : Check K := fun s =>
  if a.toString ∈ s.approved_by then .ok (true, s)
  else match check with
    | none => .ok (false, s)
    | some check => do
      let auth ← get_active.call a.toString
      let r ← check auth s
      .ok (r.1, if r.1 then { r.2 with approved_by := a.toString :: r.2.approved_by } else r.2)

/-- The loop over `account_auths`. -/
def checkAccounts (account : AccountName → Check K) (threshold : ℕ) :
    List (AccountName × ℕ) → ℕ → Check K
  | [], total_weight, s => .ok (decide (threshold ≤ total_weight), s)
  | (a, w) :: rest, total_weight, s => do
    let r ← account a s
    if r.1 then
      if threshold ≤ (total_weight + w) % 2 ^ 32 then .ok (true, r.2)
      else checkAccounts account threshold rest ((total_weight + w) % 2 ^ 32) r.2
    else checkAccounts account threshold rest total_weight r.2

/-- The body of `check_authority`, given what it does for an account. -/
def checkAuths (available_keys : List K) (account : AccountName → Check K) (auth : Authority K) :
    Check K := fun s =>
  match checkKeys available_keys auth.weight_threshold auth.key_auths 0 s with
  | (true, _, s) => .ok (true, s)
  | (false, total_weight, s) =>
    checkAccounts account auth.weight_threshold auth.account_auths total_weight s

/-- `check_authority` with `max_recursion - depth` levels left. -/
def check_authority (get_active : AuthorityGetter K) (available_keys : List K) :
    ℕ → Authority K → Check K
  | 0 => checkAuths available_keys (checkAccount get_active none)
  | depth + 1 => checkAuths available_keys
      (checkAccount get_active (some (check_authority get_active available_keys depth)))

/-- The authority that a getter has for an account. -/
def check_authority_of (get : AuthorityGetter K) (check : Authority K → Check K) (id : AccountName) :
    Check K := fun s => do
  check (← get.call id.toString) s

/-- `check_authority( string id )`. -/
def check_authority_id (get_active : AuthorityGetter K) (check : Authority K → Check K)
    (id : AccountName) : Check K := fun s =>
  if id.toString ∈ s.approved_by then .ok (true, s)
  else check_authority_of get_active check id s

def remove_unused_signatures (s : SignState K) : Bool × SignState K :=
  let remove_sigs := (s.provided_signatures.rows.filter fun sig => !sig.2).map Prod.fst
  (decide (remove_sigs.length ≠ 0),
    { s with provided_signatures := remove_sigs.foldl OrdMap.erase s.provided_signatures })

/-- `a || b` for two checks: the second one starts where the first one failed. -/
def orElse (first second : Check K) : Check K := fun s => do
  let r ← first s
  if r.1 then .ok (true, r.2) else second r.2

/-- One check after the other, with an error for the first that fails. -/
def requireAll {ι : Type} (error : ι → VerifyError K) (check : ι → Check K) (ids : List ι)
    (s : SignState K) : Except (VerifyError K) (SignState K) :=
  ids.foldlM (fun s id => do
    let r ← check id s
    Lib.check r.1 (error id)
    .ok r.2) s

/-! ## What a check keeps and answers -/

section Checks

variable (get_active : AuthorityGetter K) (available_keys : List K) (signed : K → Prop)
  (approved : List Byte → Prop)

/-- The keys count that signed or could, and the cache holds all approved accounts and only accounts
that can be derived. -/
structure Valid (s : SignState K) : Prop where
  signed_iff : ∀ k, (s.provided_signatures.contains k = true ∨ k ∈ available_keys) ↔ signed k
  approved_mem : ∀ a, approved a → a ∈ s.approved_by
  derives : ∀ a ∈ s.approved_by,
    Derives (Sum.elim signed approved) get_active.ruleOf (.inr a)

/-- The check answers between `low` and `high`, and an error is not about a missing authority. -/
structure Decides (f : Check K) (low high : Prop) : Prop where
  ok : ∀ {s r}, Valid get_active available_keys signed approved s → f s = .ok r →
    Valid get_active available_keys signed approved r.2 ∧ (r.1 = true → high) ∧
      (r.1 = false → ¬ low)
  error : ∀ s, Throws (f s) fun e => e.isMissing = false

variable {get_active available_keys signed approved} {s : SignState K}

theorem Valid.useKey (h : Valid get_active available_keys signed approved s) {k : K}
    (hk : signed k) : Valid get_active available_keys signed approved (s.useKey k) := by
  refine ⟨fun j => ?_, h.approved_mem, h.derives⟩
  rw [← h.signed_iff, SignState.useKey, OrdMap.contains_iff, OrdMap.contains_iff]
  by_cases hj : k = j
  · subst hj
    have hsigned := (h.signed_iff k).2 hk
    rw [OrdMap.contains_iff] at hsigned
    exact iff_of_true (.inl ⟨true, OrdMap.find?_insert_self _ _ _⟩) hsigned
  · rw [OrdMap.find?_insert_ne _ _ hj]

theorem Valid.signed_by (h : Valid get_active available_keys signed approved s) (k : K) :
    Valid get_active available_keys signed approved (s.signed_by available_keys k).2 ∧
      ((s.signed_by available_keys k).1 = true ↔ signed k) := by
  have hiff := h.signed_iff k
  unfold SignState.signed_by
  split
  · next hc =>
    have hk := hiff.1 (.inl hc)
    exact ⟨h.useKey hk, iff_of_true rfl hk⟩
  · next hc =>
    split
    · next hm =>
      have hk := hiff.1 (.inr hm)
      exact ⟨h.useKey hk, iff_of_true rfl hk⟩
    · next hm => exact ⟨h, iff_of_false nofun fun hk => (hiff.2 hk).elim hc hm⟩

variable {account : AccountName → Check K} {threshold : ℕ}

theorem checkKeys_spec {keys : List (K × ℕ)} :
    ∀ {total : ℕ} {s : SignState K} {r : Bool × ℕ × SignState K},
      Valid get_active available_keys signed approved s →
      total + (keys.map Prod.snd).sum < 2 ^ 32 →
      checkKeys available_keys threshold keys total s = r →
      Valid get_active available_keys signed approved r.2.2 ∧
        (r.1 = true → threshold ≤ total + weightOf signed keys) ∧
        (r.1 = false → r.2.1 = total + weightOf signed keys) := by
  induction keys with
  | nil =>
    rintro total s _ hs - rfl
    exact ⟨hs, nofun, fun _ => rfl⟩
  | cons e keys ih =>
    obtain ⟨k, w⟩ := e
    intro total s r hs hw hr
    obtain ⟨hs', hk⟩ := hs.signed_by k
    rw [List.map_cons, List.sum_cons] at hw
    rw [checkKeys] at hr
    generalize s.signed_by available_keys k = b at hs' hk hr
    obtain ⟨_ | _, s'⟩ := b
    · rw [weightOf_cons_of_not_mem (mt hk.2 nofun)]
      exact ih hs' (by omega) hr
    · rw [weightOf_cons_of_mem (hk.1 rfl)]
      dsimp only at hr hs'
      rw [Nat.mod_eq_of_lt (by omega)] at hr
      split at hr
      · subst hr
        exact ⟨hs', fun _ => by omega, nofun⟩
      · rw [← Nat.add_assoc]
        exact ih hs' (by omega) hr

theorem checkAccounts_spec {low high : AccountName → Prop}
    (haccount : ∀ a, Decides get_active available_keys signed approved (account a) (low a) (high a))
    {accounts : List (AccountName × ℕ)} :
    ∀ {total : ℕ} {s : SignState K} {r : Bool × SignState K},
      Valid get_active available_keys signed approved s →
      total + (accounts.map Prod.snd).sum < 2 ^ 32 →
      checkAccounts account threshold accounts total s = .ok r →
      Valid get_active available_keys signed approved r.2 ∧
        (r.1 = true → threshold ≤ total + weightOf high accounts) ∧
        (r.1 = false → total + weightOf low accounts < threshold) := by
  induction accounts with
  | nil =>
    intro total s r hs _ hr
    cases hr
    exact ⟨hs, of_decide_eq_true, fun h => Nat.not_le.1 (of_decide_eq_false h)⟩
  | cons e accounts ih =>
    obtain ⟨a, w⟩ := e
    intro total s r hs hw hr
    rw [List.map_cons, List.sum_cons] at hw
    obtain ⟨⟨b, s'⟩, ha, hr⟩ := bind_ok.1 hr
    obtain ⟨hs', hhigh, hlow⟩ := (haccount a).ok hs ha
    have hle : weightOf low ((a, w) :: accounts) ≤ w + weightOf low accounts := by
      by_cases h : low a
      · rw [weightOf_cons_of_mem h]
      · rw [weightOf_cons_of_not_mem h]
        omega
    have hge : weightOf high accounts ≤ weightOf high ((a, w) :: accounts) := by
      by_cases h : high a
      · rw [weightOf_cons_of_mem h]
        omega
      · rw [weightOf_cons_of_not_mem h]
    cases b with
    | false =>
      obtain ⟨hv, htrue, hfalse⟩ := ih hs' (by omega) hr
      rw [weightOf_cons_of_not_mem (hlow rfl)]
      exact ⟨hv, fun h => (htrue h).trans (by omega), hfalse⟩
    | true =>
      rw [weightOf_cons_of_mem (hhigh rfl)]
      dsimp only at hr
      rw [if_pos rfl, Nat.mod_eq_of_lt (by omega)] at hr
      split at hr
      · cases hr
        exact ⟨hs', fun _ => by omega, nofun⟩
      · obtain ⟨hv, htrue, hfalse⟩ := ih hs' (by omega) hr
        exact ⟨hv, fun h => (htrue h).trans (by omega), fun h => by
          have := hfalse h
          omega⟩

theorem checkAccounts_throws (haccount : ∀ a s, Throws (account a s) fun e => e.isMissing = false)
    {accounts : List (AccountName × ℕ)} : ∀ {total : ℕ} {s : SignState K},
      Throws (checkAccounts account threshold accounts total s) fun e => e.isMissing = false := by
  induction accounts with
  | nil => exact .ok _
  | cons e accounts ih =>
    intro total s
    refine (haccount e.1 s).bind fun r _ => ?_
    split
    · split
      · exact .ok _
      · exact ih
    · exact ih

theorem checkAuths_decides {n : ℕ} {auth : Authority K}
    (haccount : ∀ a : AccountName, Decides get_active available_keys signed approved (account a)
      (Holds (Sum.elim signed approved) get_active.ruleOf n (.inr a.toString))
      (Derives (Sum.elim signed approved) get_active.ruleOf (.inr a.toString)))
    (hweight : auth.totalWeight < 2 ^ 32) :
    Decides get_active available_keys signed approved (checkAuths available_keys account auth)
      (get_active.DerivableWithin signed approved n auth)
      (get_active.Derivable signed approved auth) := by
  unfold Authority.totalWeight at hweight
  have hlow : get_active.DerivableWithin signed approved n auth ↔ _ := Authority.met_toRule
  have hhigh : get_active.Derivable signed approved auth ↔ _ := Authority.met_toRule
  rw [weightOf_congr (Q := signed) fun k => AuthorityGetter.holds_key] at hlow
  rw [weightOf_congr (Q := signed) fun k => ⟨fun ⟨_, h⟩ => AuthorityGetter.holds_key.1 h,
    fun h => ⟨0, h⟩⟩] at hhigh
  constructor
  · intro s r hs hr
    unfold checkAuths at hr
    obtain ⟨hs', htrue, hfalse⟩ := checkKeys_spec hs (by omega)
      (rfl : checkKeys available_keys auth.weight_threshold auth.key_auths 0 s = _)
    split at hr
    · next hkeys =>
      rw [hkeys] at hs' htrue
      cases hr
      exact ⟨hs', fun _ => hhigh.2 (by have := htrue rfl; omega), nofun⟩
    · next total s' hkeys =>
      rw [hkeys] at hs' hfalse
      have htotal : total = _ := hfalse rfl
      have hle : weightOf signed auth.key_auths ≤ _ := weightOf_le_sum
      obtain ⟨hv, htrue, hfalse⟩ := checkAccounts_spec haccount hs' (by omega) hr
      refine ⟨hv, fun h => hhigh.2 ?_, fun h hd => ?_⟩
      · have := htrue h
        omega
      · have := hfalse h
        have := hlow.1 hd
        omega
  · intro s
    unfold checkAuths
    split
    · exact .ok _
    · exact checkAccounts_throws fun a s => (haccount a).error s

theorem checkAccount_limit_decides (a : AccountName) :
    Decides get_active available_keys signed approved (checkAccount get_active none a)
      (Holds (Sum.elim signed approved) get_active.ruleOf 0 (.inr a.toString))
      (Derives (Sum.elim signed approved) get_active.ruleOf (.inr a.toString)) := by
  constructor
  · intro s r hs hr
    unfold checkAccount at hr
    split at hr
    · next hmem =>
      cases hr
      exact ⟨hs, fun _ => hs.derives _ hmem, nofun⟩
    · next hmem =>
      cases hr
      exact ⟨hs, nofun, fun _ h => hmem (hs.approved_mem _ h)⟩
  · intro s
    unfold checkAccount
    split
    · exact .ok _
    · exact .ok _

theorem Valid.insert (h : Valid get_active available_keys signed approved s)
    (ha : Derives (Sum.elim signed approved) get_active.ruleOf (.inr a)) :
    Valid get_active available_keys signed approved
      { s with approved_by := a :: s.approved_by } := by
  exact ⟨h.signed_iff, fun b hb => List.mem_cons_of_mem _ (h.approved_mem b hb),
    List.forall_mem_cons.2 ⟨ha, h.derives⟩⟩

theorem checkAccount_decides {check : Authority K → Check K} {n : ℕ}
    (hcheck : ∀ a auth, get_active a = some auth →
      Decides get_active available_keys signed approved (check auth)
        (get_active.DerivableWithin signed approved n auth)
        (get_active.Derivable signed approved auth)) (a : AccountName) :
    Decides get_active available_keys signed approved (checkAccount get_active (some check) a)
      (Holds (Sum.elim signed approved) get_active.ruleOf (n + 1) (.inr a.toString))
      (Derives (Sum.elim signed approved) get_active.ruleOf (.inr a.toString)) := by
  constructor
  · intro s r hs hr
    unfold checkAccount at hr
    split at hr
    · next hmem =>
      cases hr
      exact ⟨hs, fun _ => hs.derives _ hmem, nofun⟩
    · next hmem =>
      obtain ⟨auth, hget, hr⟩ := bind_ok.1 hr
      rw [AuthorityGetter.call_eq_ok] at hget
      obtain ⟨⟨b, s'⟩, hb, hr⟩ := bind_ok.1 hr
      obtain ⟨hs', hhigh, hlow⟩ := (hcheck _ auth hget).ok hs hb
      cases b with
      | true =>
        cases hr
        have ha := AuthorityGetter.derives_account.2 (.inr ⟨auth, hget, hhigh rfl⟩)
        exact ⟨hs'.insert ha, fun _ => ha, nofun⟩
      | false =>
        cases hr
        refine ⟨hs', nofun, fun _ h => ?_⟩
        rcases AuthorityGetter.holds_account.1 h with h | ⟨auth', hget', h⟩
        · exact hmem (hs.approved_mem _ h)
        · rw [hget, Option.some.injEq] at hget'
          subst hget'
          exact hlow rfl h
  · intro s
    unfold checkAccount
    split
    · exact .ok _
    · refine Throws.bind (fun e => AuthorityGetter.call_eq_error) fun auth hget => ?_
      exact ((hcheck _ auth (AuthorityGetter.call_eq_ok.1 hget)).error s).bind fun _ _ => .ok _

/-- A check with `n` levels left answers between the derivations nested at most `n` deep and all. -/
theorem check_authority_decides
    (hget : ∀ a auth, get_active a = some auth → auth.totalWeight < 2 ^ 32) (n : ℕ) :
    ∀ auth : Authority K, auth.totalWeight < 2 ^ 32 →
      Decides get_active available_keys signed approved
        (check_authority get_active available_keys n auth)
        (get_active.DerivableWithin signed approved n auth)
        (get_active.Derivable signed approved auth) := by
  induction n with
  | zero => exact fun auth hauth => checkAuths_decides checkAccount_limit_decides hauth
  | succ n ih =>
    exact fun auth hauth => checkAuths_decides
      (checkAccount_decides fun a auth ha => ih auth (hget a auth ha)) hauth

/-! ## Checks of required accounts -/

theorem Decides.orElse {f g : Check K} {low low' high high' : Prop}
    (hf : Decides get_active available_keys signed approved f low high)
    (hg : Decides get_active available_keys signed approved g low' high') :
    Decides get_active available_keys signed approved (orElse f g) (low ∨ low') (high ∨ high') := by
  constructor
  · intro s r hs hr
    obtain ⟨⟨b, s'⟩, hb, hr⟩ := bind_ok.1 hr
    obtain ⟨hs', hhigh, hlow⟩ := hf.ok hs hb
    cases b with
    | true =>
      cases hr
      exact ⟨hs', fun _ => .inl (hhigh rfl), nofun⟩
    | false =>
      obtain ⟨hv, hhigh', hlow'⟩ := hg.ok hs' hr
      exact ⟨hv, fun h => .inr (hhigh' h), fun h => not_or.2 ⟨hlow rfl, hlow' h⟩⟩
  · intro s
    refine (hf.error s).bind fun r _ => ?_
    split
    · exact .ok _
    · exact hg.error _

theorem Decides.imp {f : Check K} {low low' high high' : Prop}
    (h : Decides get_active available_keys signed approved f low high) (hlow : low' → low)
    (hhigh : high → high') : Decides get_active available_keys signed approved f low' high' where
  ok hs hr :=
    let ⟨hs', htrue, hfalse⟩ := h.ok hs hr
    ⟨hs', fun hb => hhigh (htrue hb), fun hb hl => hfalse hb (hlow hl)⟩
  error := h.error

variable {check : Authority K → Check K} {n : ℕ}

theorem check_authority_of_decides {get : AuthorityGetter K}
    (hcheck : ∀ a auth, get a = some auth →
      Decides get_active available_keys signed approved (check auth)
        (get_active.DerivableWithin signed approved n auth)
        (get_active.Derivable signed approved auth)) (id : AccountName) :
    Decides get_active available_keys signed approved (check_authority_of get check id)
      (∃ auth, get id.toString = some auth ∧ get_active.DerivableWithin signed approved n auth)
      (∃ auth, get id.toString = some auth ∧ get_active.Derivable signed approved auth) := by
  constructor
  · intro s r hs hr
    obtain ⟨auth, hget, hr⟩ := bind_ok.1 hr
    rw [AuthorityGetter.call_eq_ok] at hget
    obtain ⟨hs', hhigh, hlow⟩ := (hcheck _ auth hget).ok hs hr
    refine ⟨hs', fun h => ⟨auth, hget, hhigh h⟩, fun h => ?_⟩
    rintro ⟨auth', hget', hwithin⟩
    rw [hget, Option.some.injEq] at hget'
    subst hget'
    exact hlow h hwithin
  · intro s
    refine Throws.bind (fun e => AuthorityGetter.call_eq_error) fun auth hget => ?_
    exact (hcheck _ auth (AuthorityGetter.call_eq_ok.1 hget)).error s

theorem check_authority_id_decides
    (hcheck : ∀ a auth, get_active a = some auth →
      Decides get_active available_keys signed approved (check auth)
        (get_active.DerivableWithin signed approved n auth)
        (get_active.Derivable signed approved auth)) (id : AccountName) :
    Decides get_active available_keys signed approved (check_authority_id get_active check id)
      (approved id.toString ∨ ∃ auth, get_active id.toString = some auth ∧
        get_active.DerivableWithin signed approved n auth)
      (approved id.toString ∨ ∃ auth, get_active id.toString = some auth ∧
        get_active.Derivable signed approved auth) := by
  have hof := check_authority_of_decides hcheck id
  constructor
  · intro s r hs hr
    unfold check_authority_id at hr
    split at hr
    · next hmem =>
      cases hr
      exact ⟨hs, fun _ => AuthorityGetter.derives_account.1 (hs.derives _ hmem), nofun⟩
    · next hmem =>
      obtain ⟨hs', hhigh, hlow⟩ := hof.ok hs hr
      exact ⟨hs', fun h => .inr (hhigh h),
        fun h => not_or.2 ⟨fun ha => hmem (hs.approved_mem _ ha), hlow h⟩⟩
  · intro s
    unfold check_authority_id
    split
    · exact .ok _
    · exact hof.error s

theorem requireAll_ok {ι : Type} {error : ι → VerifyError K} {f : ι → Check K}
    {low high : ι → Prop} {ids : List ι}
    (hf : ∀ id ∈ ids, Decides get_active available_keys signed approved (f id) (low id) (high id)) :
    ∀ {s s' : SignState K}, Valid get_active available_keys signed approved s →
      requireAll error f ids s = .ok s' →
      Valid get_active available_keys signed approved s' ∧ ∀ id ∈ ids, high id := by
  induction ids with
  | nil =>
    intro s s' hs h
    cases h
    exact ⟨hs, nofun⟩
  | cons id ids ih =>
    intro s s' hs h
    rw [requireAll, List.foldlM_cons] at h
    obtain ⟨s1, h1, h⟩ := bind_ok.1 h
    obtain ⟨r, hr, h1⟩ := bind_ok.1 h1
    obtain ⟨htrue, h1⟩ := check_bind_ok.1 h1
    cases h1
    obtain ⟨hs1, hhigh, -⟩ := (hf id List.mem_cons_self).ok hs hr
    obtain ⟨hv, hall⟩ := ih (fun j hj => hf j (List.mem_cons_of_mem _ hj)) hs1 h
    exact ⟨hv, List.forall_mem_cons.2 ⟨hhigh htrue, hall⟩⟩

theorem requireAll_throws {ι : Type} {error : ι → VerifyError K} {f : ι → Check K}
    {low high : ι → Prop} {ids : List ι}
    (hf : ∀ id ∈ ids, Decides get_active available_keys signed approved (f id) (low id) (high id))
    (hlow : ∀ id ∈ ids, low id) :
    ∀ {s : SignState K}, Valid get_active available_keys signed approved s →
      Throws (requireAll error f ids s) fun e => e.isMissing = false := by
  induction ids with
  | nil => exact fun _ => .ok _
  | cons id ids ih =>
    intro s hs
    have hid := hf id List.mem_cons_self
    rw [requireAll, List.foldlM_cons]
    refine Throws.bind ((hid.error s).bind fun r hr => ?_) fun s1 h1 => ?_
    · have hnot := (hid.ok hs hr).2.2
      exact Throws.check_bind (fun h => absurd (hlow id List.mem_cons_self) (hnot h)) (.ok _)
    · obtain ⟨r, hr, h1⟩ := bind_ok.1 h1
      replace h1 := ok_of_check h1
      cases h1
      exact ih (fun j hj => hf j (List.mem_cons_of_mem _ hj))
        (fun j hj => hlow j (List.mem_cons_of_mem _ hj)) (hid.ok hs hr).1

end Checks

end SignState

end Calibrd.Protocol
