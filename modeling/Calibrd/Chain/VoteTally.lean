import Calibrd.Chain.WitnessVotes
import Calibrd.Lib.Check

/-!
# The witness vote tally

What the incremental adjustments keep: proxies form a forest, `proxied_vsf_votes` holds the levels
below an account, and the votes of a witness are the weights of the accounts that vote for it.

The walk that adjusts the votes along a proxy chain only adds to `proxied_vsf_votes` and to the
votes of witnesses. `adjustChain_spec` says how much, and every call is then compared with the
change of the levels that the forest library gives.
-/

namespace Calibrd.Chain.WitnessVotes

open Calibrd.Lib Calibrd.Lib.Forest

namespace State

variable {s s' : State} {a x : AccountId} {w : WitnessId}

def shares (s : State) (a : AccountId) : ℤ := (s.accounts a).vesting_shares

def nodes (s : State) : Finset AccountId := Finset.range s.num_accounts

/-- The shares that reach `x` from `k` levels below along `parent`. -/
def levelBelow (s : State) (parent : AccountId → Option AccountId) (k : ℕ) (x : AccountId) : ℤ :=
  level parent s.nodes s.shares k x

/-! ## What an adjustment adds -/

/-- More proxied votes and more votes of witnesses; nothing else is touched. -/
def shifted (s : State) (f : AccountId → ℕ → ℤ) (g : WitnessId → ℤ) : State :=
  { s with
    accounts := fun x =>
      { s.accounts x with proxied_vsf_votes := fun k => (s.accounts x).proxied_vsf_votes k + f x k }
    votes := fun w => s.votes w + g w }

section Shifted

variable (s) (f f' : AccountId → ℕ → ℤ) (g g' : WitnessId → ℤ)

@[simp] theorem proxyOf_shifted : (s.shifted f g).proxyOf = s.proxyOf := rfl

@[simp] theorem witness_votes_shifted : (s.shifted f g).witness_votes = s.witness_votes := rfl

@[simp] theorem levelBelow_shifted : (s.shifted f g).levelBelow = s.levelBelow := rfl

theorem shifted_shifted :
    (s.shifted f g).shifted f' g' = s.shifted (fun x k => f x k + f' x k) fun w => g w + g' w := by
  simp only [shifted, add_assoc]

theorem shifted_zero : s.shifted (fun _ _ => 0) (fun _ => 0) = s := by
  simp only [shifted, add_zero]

end Shifted

/-- The vote objects belong to accounts without a proxy, one for each witness. -/
structure VotersOk (s : State) : Prop where
  nodup : s.witness_votes.Nodup
  account_lt : ∀ {a w}, (a, w) ∈ s.witness_votes → a < s.num_accounts
  no_proxy : ∀ {a w}, (a, w) ∈ s.witness_votes → s.proxyOf a = none

theorem mem_votedFor : w ∈ s.votedFor a ↔ (a, w) ∈ s.witness_votes := by
  simp [votedFor]

theorem VotersOk.nodup_votedFor (h : s.VotersOk) (a : AccountId) : (s.votedFor a).Nodup := by
  refine List.Nodup.map_on ?_ (h.nodup.filter _)
  rintro ⟨b, w⟩ hb ⟨c, w'⟩ hc rfl
  have hb' : b = a := by simpa using (List.mem_filter.1 hb).2
  have hc' : c = a := by simpa using (List.mem_filter.1 hc).2
  rw [hb', hc']

theorem VotersOk.shifted (h : s.VotersOk) (f : AccountId → ℕ → ℤ) (g : WitnessId → ℤ) :
    (s.shifted f g).VotersOk :=
  ⟨h.nodup, h.account_lt, h.no_proxy⟩

variable {delta : ℤ}

theorem adjustAll_spec {l : List WitnessId} (h : adjustAll delta l s = .ok s') :
    s' = s.shifted (fun _ _ => 0) fun w => l.count w * delta := by
  induction l generalizing s with
  | nil =>
    cases h
    simp only [List.count_nil, Nat.cast_zero, zero_mul, shifted_zero]
  | cons v rest ih =>
    obtain ⟨s1, h1, hrest⟩ := bind_ok.1 h
    have hs1 := ok_of_check h1
    have hone : s1 = s.shifted (fun _ _ => 0) fun w => if v = w then delta else 0 := by
      cases hs1
      simp only [shifted, add_zero]
      congr 1
      funext w
      by_cases hw : w = v
      · subst hw
        rw [Function.update_self, if_pos rfl]
      · rw [Function.update_of_ne hw, if_neg (Ne.symm hw), add_zero]
    rw [ih hrest, hone, shifted_shifted]
    congr 1
    funext w
    rw [List.count_cons]
    by_cases hw : v = w
    · simp [hw]
      ring
    · simp [hw]

theorem adjust_witness_votes_spec (hv : s.VotersOk) (h : s.adjust_witness_votes a delta = .ok s') :
    s' = s.shifted (fun _ _ => 0) fun w => if (a, w) ∈ s.witness_votes then delta else 0 := by
  rw [adjustAll_spec h]
  congr 1
  funext w
  rw [(hv.nodup_votedFor a).count]
  simp only [mem_votedFor]
  split <;> simp

/-- What `total`, by depth, comes to at `x` when the walk from `a` ends there or passes it. -/
def walkTotal (parent : AccountId → Option AccountId) (left : ℕ) (total : ℕ → ℤ)
    (a x : AccountId) : ℤ :=
  (if a = x then total 0 else 0) + above parent left (fun d => total (d + 1)) a x

section

local instance : LawfulBEq (AccountId × WitnessId) := inferInstance

/-- The change of a witness's votes when every account that votes for it counts `c` more. -/
def votersSum (s : State) (c : AccountId → ℤ) (w : WitnessId) : ℤ :=
  ∑ x ∈ s.nodes, if (x, w) ∈ s.witness_votes then c x else 0

end

theorem votersSum_congr {c c' : AccountId → ℤ}
    (h : ∀ x, (x, w) ∈ s.witness_votes → c x = c' x) : s.votersSum c w = s.votersSum c' w := by
  refine Finset.sum_congr rfl fun x _ => ?_
  split
  · next hx => exact h x hx
  · rfl

theorem votersSum_add (c c' : AccountId → ℤ) :
    s.votersSum (fun x => c x + c' x) w = s.votersSum c w + s.votersSum c' w := by
  rw [votersSum, votersSum, votersSum, ← Finset.sum_add_distrib]
  refine Finset.sum_congr rfl fun x _ => ?_
  split <;> simp

theorem votersSum_single (hv : s.VotersOk) (a : AccountId) (d : ℤ) :
    s.votersSum (fun x => if a = x then d else 0) w =
      if (a, w) ∈ s.witness_votes then d else 0 := by
  have hpoint : ∀ x ∈ s.nodes,
      (if (x, w) ∈ s.witness_votes then (if a = x then d else 0) else 0) =
        if a = x then (if (a, w) ∈ s.witness_votes then d else 0) else 0 := by
    intro x _
    by_cases hx : a = x
    · subst hx
      simp
    · simp [hx]
  rw [votersSum, Finset.sum_congr rfl hpoint, Finset.sum_ite_eq]
  split
  · rfl
  · next ha => exact (if_neg fun h => ha (Finset.mem_range.2 (hv.account_lt h))).symm

section Walk

variable {change : ℕ → ℕ → ℤ} {total : ℕ → ℤ} {left depth : ℕ} {p : AccountId}

theorem adjustChain_of_none (h : s.proxyOf a = none) :
    adjustChain change total left depth a s = s.adjust_witness_votes a (total depth) := by
  cases left <;> simp [adjustChain, h]

theorem adjustChain_of_limit (h : s.proxyOf a = some p) :
    adjustChain change total 0 depth a s = .ok s := by
  simp [adjustChain, h]

theorem adjustChain_of_some (h : s.proxyOf a = some p)
    (hs : adjustChain change total (left + 1) depth a s = .ok s') :
    adjustChain change total left (depth + 1) p
      (s.shifted (fun x k => if p = x then change depth k else 0) fun _ => 0) = .ok s' := by
  unfold adjustChain at hs
  simp only [h] at hs
  replace hs := ok_of_check hs
  rw [← hs]
  congr 1
  simp only [shifted, modifyAccount, add_zero]
  congr 1
  funext x
  by_cases hx : p = x
  · subst hx
    simp
  · simp [Function.update_of_ne (Ne.symm hx), hx]

/-- A walk touches nothing but the two kinds of votes. -/
theorem adjustChain_shifted (h : adjustChain change total left depth a s = .ok s') :
    ∃ f g, s' = s.shifted f g := by
  induction left generalizing depth a s with
  | zero =>
    cases hp : s.proxyOf a with
    | none =>
      rw [adjustChain_of_none hp] at h
      exact ⟨_, _, adjustAll_spec h⟩
    | some p =>
      rw [adjustChain_of_limit hp] at h
      exact ⟨_, _, (Except.ok.inj h).symm.trans (shifted_zero s).symm⟩
  | succ left ih =>
    cases hp : s.proxyOf a with
    | none =>
      rw [adjustChain_of_none hp] at h
      exact ⟨_, _, adjustAll_spec h⟩
    | some p =>
      obtain ⟨f, g, hrest⟩ := ih (adjustChain_of_some hp h)
      rw [shifted_shifted] at hrest
      exact ⟨_, _, hrest⟩

/-- Above an account with a proxy the walk goes on from the proxy; the account itself does not
vote. -/
theorem votersSum_walkTotal (hv : s.VotersOk) (h : s.proxyOf a = some p) :
    s.votersSum (walkTotal s.proxyOf (left + 1) total a) w =
      s.votersSum (walkTotal s.proxyOf left (fun d => total (d + 1)) p) w := by
  refine votersSum_congr fun x hx => ?_
  have hne : a ≠ x := by
    rintro rfl
    rw [hv.no_proxy hx] at h
    cases h
  rw [walkTotal, if_neg hne, zero_add, above_of_some h]
  rfl

theorem adjustChain_spec_of_none (hv : s.VotersOk) (hp : s.proxyOf a = none)
    (h : adjustChain change total left depth a s = .ok s') :
    s' = s.shifted (fun x k => above s.proxyOf left (fun d => change (depth + d) k) a x)
      (s.votersSum (walkTotal s.proxyOf left (fun d => total (depth + d)) a)) := by
  rw [adjustChain_of_none hp] at h
  rw [adjust_witness_votes_spec hv h]
  congr 1
  · funext x k
    rw [above_of_none hp]
  · funext w
    rw [← votersSum_single hv]
    refine votersSum_congr fun x _ => ?_
    rw [walkTotal, above_of_none hp, add_zero, add_zero]

/-- The walk gives every proxy on its way the change for its depth, and the accounts that vote what
the walk's total is at their depth. -/
theorem adjustChain_spec (hv : s.VotersOk) (h : adjustChain change total left depth a s = .ok s') :
    s' = s.shifted (fun x k => above s.proxyOf left (fun d => change (depth + d) k) a x)
      (s.votersSum (walkTotal s.proxyOf left (fun d => total (depth + d)) a)) := by
  induction left generalizing depth a s with
  | zero =>
    cases hp : s.proxyOf a with
    | none => exact adjustChain_spec_of_none hv hp h
    | some p =>
      rw [adjustChain_of_limit hp] at h
      -- the limit stops the walk at an account with a proxy, which does not vote
      have hzero : ∀ w, s.votersSum (walkTotal s.proxyOf 0 (fun d => total (depth + d)) a) w =
          0 := by
        intro w
        refine Finset.sum_eq_zero fun x _ => ?_
        split
        · next hx =>
          have hne : a ≠ x := by
            rintro rfl
            exact absurd (hv.no_proxy hx) (by rw [hp]; exact nofun)
          simp [walkTotal, hne, above]
        · rfl
      rw [← Except.ok.inj h]
      conv_lhs => rw [← shifted_zero s]
      congr 1
      funext w
      exact (hzero w).symm
  | succ left ih =>
    cases hp : s.proxyOf a with
    | none => exact adjustChain_spec_of_none hv hp h
    | some p =>
      have hrest := ih (hv.shifted _ _) (adjustChain_of_some hp h)
      rw [hrest, shifted_shifted]
      congr 1
      · funext x k
        rw [above_of_some hp]
        simp only [proxyOf_shifted, add_zero, Nat.add_assoc, Nat.add_comm 1]
      · funext w
        rw [votersSum_walkTotal hv hp, zero_add]
        simp only [Nat.add_assoc, Nat.add_comm 1]
        rfl

end Walk

/-- An account's change of shares goes to its ancestors, each at its own depth. -/
theorem adjust_proxied_witness_votes_spec (hv : s.VotersOk)
    (h : s.adjust_proxied_witness_votes a delta = .ok s') :
    s' = s.shifted
      (fun x k => if k < STEEMIT_MAX_PROXY_RECURSION_DEPTH ∧ ancestor s.proxyOf (k + 1) a = some x
        then delta else 0)
      (s.votersSum fun x => ∑ k ∈ Finset.range (STEEMIT_MAX_PROXY_RECURSION_DEPTH + 1),
        if ancestor s.proxyOf k a = some x then delta else 0) := by
  rw [adjustChain_spec hv h]
  congr 1
  · funext x k
    -- only the proxy at depth `k` gets something at `k`
    have hpoint : ∀ d, (if ancestor s.proxyOf (d + 1) a = some x then
        (if k = 0 + d then delta else 0) else 0) =
          if k = d then (if ancestor s.proxyOf (k + 1) a = some x then delta else 0) else 0 := by
      intro d
      rw [Nat.zero_add]
      by_cases hd : k = d
      · subst hd
        simp
      · simp [hd]
    rw [above, Finset.sum_congr rfl fun d _ => hpoint d, Finset.sum_ite_eq]
    simp only [Finset.mem_range, ite_and]
  · congr 1
    funext x
    rw [Finset.sum_range_succ', add_comm, walkTotal]
    simp only [ancestor_zero, Option.some.injEq]
    rfl

/-- With an array, the `k`-th entry of an ancestor gets what is `k` levels below it. -/
theorem adjust_proxied_witness_votes_array_spec (hv : s.VotersOk) {delta : ℕ → ℤ}
    (h : s.adjust_proxied_witness_votes_array a delta = .ok s') :
    s' = s.shifted
      (fun x k => if k < STEEMIT_MAX_PROXY_RECURSION_DEPTH then
        above s.proxyOf (k + 1) (fun d => delta (k - d)) a x else 0)
      (s.votersSum fun x => ∑ k ∈ Finset.range (STEEMIT_MAX_PROXY_RECURSION_DEPTH + 1),
        ((if a = x then delta k else 0) + above s.proxyOf k (fun d => delta (k - 1 - d)) a x)) := by
  rw [adjustChain_spec hv h]
  congr 1
  · funext x k
    by_cases hk : k < STEEMIT_MAX_PROXY_RECURSION_DEPTH
    · rw [if_pos hk, ← above_truncate (Nat.succ_le_of_lt hk)]
      refine above_congr fun d _ => ?_
      simp only [Nat.zero_add, Nat.lt_succ_iff, hk, and_true]
    · rw [if_neg hk]
      refine Finset.sum_eq_zero fun d _ => ?_
      simp only [hk, and_false, if_false, ite_self]
  · congr 1
    funext x
    have habove : above s.proxyOf STEEMIT_MAX_PROXY_RECURSION_DEPTH
        (fun d => ∑ i ∈ Finset.range (STEEMIT_MAX_PROXY_RECURSION_DEPTH - (0 + (d + 1)) + 1), delta i)
        a x = above s.proxyOf STEEMIT_MAX_PROXY_RECURSION_DEPTH
          (fun d => ∑ i ∈ Finset.range (STEEMIT_MAX_PROXY_RECURSION_DEPTH - d), delta i) a x := by
      refine above_congr fun d hd => ?_
      rw [Nat.zero_add, Nat.sub_add_eq, Nat.sub_add_cancel (Nat.sub_pos_of_lt hd)]
    rw [walkTotal, habove, Finset.sum_add_distrib, above_sum]
    congr 1
    split
    · rfl
    · exact Finset.sum_const_zero.symm

/-! ## The tally -/

/-- The weight that the forest `parent` gives an account. -/
def weightBelow (s : State) (parent : AccountId → Option AccountId) (x : AccountId) : ℤ :=
  ∑ k ∈ Finset.range (STEEMIT_MAX_PROXY_RECURSION_DEPTH + 1), s.levelBelow parent k x

/-- The proxied votes and the votes of witnesses are those of the forest `parent`. After the split
of the first hardfork the votes of witnesses stay behind until the next one counts again. -/
structure Tallied (s : State) (parent : AccountId → Option AccountId) : Prop where
  proxied : ∀ x, ∀ k < STEEMIT_MAX_PROXY_RECURSION_DEPTH,
    (s.accounts x).proxied_vsf_votes k = s.levelBelow parent (k + 1) x
  votes : s.last_hardfork ≠ 1 → ∀ w, s.votes w = s.votersSum (s.weightBelow parent) w

theorem tallied_shifted {f : AccountId → ℕ → ℤ} {g : WitnessId → ℤ}
    {parent : AccountId → Option AccountId}
    (hp : ∀ x, ∀ k < STEEMIT_MAX_PROXY_RECURSION_DEPTH,
      (s.accounts x).proxied_vsf_votes k + f x k = s.levelBelow parent (k + 1) x)
    (hv : s.last_hardfork ≠ 1 →
      ∀ w, s.votes w + g w = s.votersSum (s.weightBelow parent) w) :
    (s.shifted f g).Tallied parent :=
  ⟨hp, hv⟩

/-- The way the tables refer to each other. -/
structure Links (s : State) : Prop extends VotersOk s where
  witness_lt : ∀ {a w}, (a, w) ∈ s.witness_votes → w < s.num_witnesses
  can_vote : ∀ {a w}, (a, w) ∈ s.witness_votes → (s.accounts a).can_vote = true
  acyclic : Acyclic s.proxyOf
  proxy_lt : ∀ {a p}, s.proxyOf a = some p → p < s.num_accounts
  fresh_proxy : ∀ {a}, s.num_accounts ≤ a → s.proxyOf a = none
  fresh_shares : ∀ {a}, s.num_accounts ≤ a → s.shares a = 0
  null_lt : STEEMIT_NULL_ACCOUNT < s.num_accounts
  null_proxy : s.proxyOf STEEMIT_NULL_ACCOUNT = none
  null_votes : ∀ {w}, (STEEMIT_NULL_ACCOUNT, w) ∉ s.witness_votes

/-- The vote counts. Before hardfork 6 clearing the votes does not reset the count; between
hardforks 6 and 8 the count is wrong for accounts without a proxy. -/
def CountOk (s : State) (a : AccountId) : Prop :=
  if s.last_hardfork < 6 then
    (s.votedFor a).length ≤ (s.accounts a).witnesses_voted_for ∧
      (s.accounts a).witnesses_voted_for ≤ STEEMIT_MAX_ACCOUNT_WITNESS_VOTES
  else
    (s.votedFor a).length ≤ STEEMIT_MAX_ACCOUNT_WITNESS_VOTES ∧
      (8 ≤ s.last_hardfork → (s.accounts a).witnesses_voted_for = (s.votedFor a).length)

/-- The links are right, and the votes are those of the proxies. -/
structure Core (s : State) : Prop where
  links : s.Links
  tallied : s.Tallied s.proxyOf

structure Inv (s : State) : Prop where
  links : s.Links
  tallied : s.Tallied s.proxyOf
  counts : ∀ a, s.CountOk a

theorem Inv.core (h : s.Inv) : s.Core := ⟨h.links, h.tallied⟩

/-! ## Changes of shares keep the vote tally

A change of an account's shares is followed by an adjustment along its proxy chain, which adds to
every level what the forest says (`Core.changeShares`). The null account is the exception: its shares
are cleared without one, and it neither votes nor has a proxy.
-/

/-! ## Changes that leave the links alone -/

theorem field_update {α β γ : Type} [DecidableEq α] (φ : β → γ) {f : α → β} {a : α} {b : β}
    (h : φ b = φ (f a)) (x : α) : φ (Function.update f a b x) = φ (f x) := by
  rw [Function.apply_update fun _ => φ, h]
  exact congrFun (Function.update_eq_self a fun x => φ (f x)) x

theorem field_modifyAccount {β : Type} (φ : Account → β) {f : Account → Account}
    (h : φ (f (s.accounts a)) = φ (s.accounts a)) (x : AccountId) :
    φ ((s.modifyAccount a f).accounts x) = φ (s.accounts x) :=
  field_update φ h x

theorem Links.congr (h : s.Links) (hn : s'.num_accounts = s.num_accounts)
    (hw : s'.num_witnesses = s.num_witnesses) (hp : s'.proxyOf = s.proxyOf)
    (hv : s'.witness_votes = s.witness_votes)
    (hc : ∀ a, (s'.accounts a).can_vote = (s.accounts a).can_vote)
    (hs : ∀ a, s.num_accounts ≤ a → s'.shares a = s.shares a) : s'.Links where
  nodup := by rw [hv]; exact h.nodup
  account_lt hm := by rw [hn]; rw [hv] at hm; exact h.account_lt hm
  no_proxy hm := by rw [hp]; rw [hv] at hm; exact h.no_proxy hm
  witness_lt hm := by rw [hw]; rw [hv] at hm; exact h.witness_lt hm
  can_vote hm := by rw [hc]; rw [hv] at hm; exact h.can_vote hm
  acyclic := by rw [hp]; exact h.acyclic
  proxy_lt hm := by rw [hn]; rw [hp] at hm; exact h.proxy_lt hm
  fresh_proxy hm := by rw [hp]; rw [hn] at hm; exact h.fresh_proxy hm
  fresh_shares hm := by rw [hn] at hm; rw [hs _ hm]; exact h.fresh_shares hm
  null_lt := by rw [hn]; exact h.null_lt
  null_proxy := by rw [hp]; exact h.null_proxy
  null_votes := by rw [hv]; exact h.null_votes

theorem Links.shifted (h : s.Links) (f : AccountId → ℕ → ℤ) (g : WitnessId → ℤ) :
    (s.shifted f g).Links :=
  h.congr rfl rfl rfl rfl (fun _ => rfl) fun _ _ => rfl

theorem Core.setTotal (h : s.Core) (t : ℤ) : { s with total_vesting_shares := t }.Core :=
  ⟨h.links.congr rfl rfl rfl rfl (fun _ => rfl) fun _ _ => rfl, ⟨h.tallied.proxied, h.tallied.votes⟩⟩

/-! ## Shares -/

/-- `d` more shares for `a`, with the total `t`. -/
def withShares (s : State) (a : AccountId) (d t : ℤ) : State :=
  { s.modifyAccount a fun acc => { acc with vesting_shares := acc.vesting_shares + d } with
    total_vesting_shares := t }

section WithShares

variable (s) (a) (d t : ℤ)

theorem field_withShares {β : Type} (φ : Account → β)
    (h : ∀ acc v, φ { acc with vesting_shares := v } = φ acc) (x : AccountId) :
    φ ((s.withShares a d t).accounts x) = φ (s.accounts x) :=
  field_modifyAccount (s := s) (a := a) φ
    (f := fun acc => { acc with vesting_shares := acc.vesting_shares + d }) (h _ _) x

theorem proxyOf_withShares : (s.withShares a d t).proxyOf = s.proxyOf :=
  funext (field_withShares s a d t Account.proxy fun _ _ => rfl)

theorem shares_withShares :
    (s.withShares a d t).shares = Function.update s.shares a (s.shares a + d) :=
  funext (Function.apply_update (fun _ => Account.vesting_shares) s.accounts a _)

theorem levelBelow_withShares (ha : a < s.num_accounts) (parent : AccountId → Option AccountId)
    (k : ℕ) (x : AccountId) :
    (s.withShares a d t).levelBelow parent k x =
      s.levelBelow parent k x + if ancestor parent k a = some x then d else 0 := by
  rw [levelBelow, shares_withShares]
  exact level_update (Finset.mem_range.2 ha) d k x

theorem weightBelow_withShares (ha : a < s.num_accounts) (parent : AccountId → Option AccountId)
    (x : AccountId) :
    (s.withShares a d t).weightBelow parent x = s.weightBelow parent x +
      ∑ k ∈ Finset.range (STEEMIT_MAX_PROXY_RECURSION_DEPTH + 1),
        if ancestor parent k a = some x then d else 0 := by
  rw [weightBelow, weightBelow, ← Finset.sum_add_distrib]
  exact Finset.sum_congr rfl fun k _ => levelBelow_withShares s a d t ha parent k x

end WithShares

theorem Links.withShares (h : s.Links) (ha : a < s.num_accounts) (d t : ℤ) :
    (s.withShares a d t).Links := by
  refine h.congr rfl rfl (proxyOf_withShares s a d t) rfl
    (field_withShares s a d t Account.can_vote fun _ _ => rfl) fun b hb => ?_
  rw [shares_withShares, Function.update_of_ne (Nat.ne_of_gt (ha.trans_le hb))]

theorem Core.changeShares (h : s.Core) (ha : a < s.num_accounts) {d t : ℤ}
    (hs : (s.withShares a d t).adjust_proxied_witness_votes a d = .ok s') :
    s'.Core ∧ s'.num_accounts = s.num_accounts := by
  have hlinks := h.links.withShares ha d t
  rw [adjust_proxied_witness_votes_spec hlinks.toVotersOk hs, proxyOf_withShares]
  refine ⟨⟨hlinks.shifted _ _, ?_⟩, rfl⟩
  rw [proxyOf_shifted, proxyOf_withShares]
  refine tallied_shifted (fun x k hk => ?_) fun hf w => ?_
  · rw [congrFun (field_withShares s a d t Account.proxied_vsf_votes (fun _ _ => rfl) x) k,
      h.tallied.proxied x k hk, levelBelow_withShares s a d t ha]
    simp only [hk, true_and]
  · calc s.votes w + s.votersSum _ w
        = s.votersSum (fun x => s.weightBelow s.proxyOf x + _) w := by
          rw [h.tallied.votes hf w, ← votersSum_add]
      _ = s.votersSum ((s.withShares a d t).weightBelow s.proxyOf) w :=
          votersSum_congr fun x _ => (weightBelow_withShares s a d t ha s.proxyOf x).symm

theorem Core.addShares (h : s.Core) {vests : ℤ} (hs : s.addShares a vests = .ok s') : s'.Core := by
  obtain ⟨ha, hs⟩ := check_decide_ok.1 hs
  exact (h.changeShares ha hs).1

theorem Core.depositVests (h : s.Core) {to_withdraw : ℕ} {routes : List Route}
    (hs : depositVests to_withdraw routes s = .ok s') :
    s'.Core ∧ s'.num_accounts = s.num_accounts := by
  induction routes generalizing s with
  | nil =>
    cases hs
    exact ⟨h, rfl⟩
  | cons r rest ih =>
    unfold State.depositVests at hs
    split at hs
    · obtain ⟨ha, hs⟩ := check_decide_ok.1 hs
      obtain ⟨s1, h1, hrest⟩ := bind_ok.1 hs
      obtain ⟨hinv, hn⟩ := h.changeShares (t := s.total_vesting_shares) ha h1
      obtain ⟨hinv', hn'⟩ := ih hinv hrest
      exact ⟨hinv', hn'.trans hn⟩
    · exact ih h hs

theorem Core.withdrawVesting (h : s.Core) {to_withdraw : ℕ} {routes : List Route}
    (hs : s.withdrawVesting a to_withdraw routes = .ok s') : s'.Core := by
  obtain ⟨ha, hs⟩ := check_decide_ok.1 hs
  obtain ⟨s1, h1, hs⟩ := bind_ok.1 hs
  replace hs := ok_of_check hs
  obtain ⟨hinv, hn⟩ := h.depositVests h1
  have ha1 : a < s1.num_accounts := hn ▸ ha
  split at hs
  · exact (hinv.changeShares ha1 hs).1
  · next hzero =>
    -- nothing is withdrawn, only the total is written
    obtain rfl : to_withdraw = 0 := Nat.eq_zero_of_not_pos hzero
    cases hs
    have hsame : (s1.modifyAccount a fun acc =>
        { acc with vesting_shares := acc.vesting_shares - ((0 : ℕ) : ℤ) }) = s1 := by
      simp [modifyAccount]
    rw [hsame]
    exact hinv.setTotal _

/-- The null account has no proxy and no votes, so its shares count for nobody. -/
theorem Core.clear_null_account_balance (h : s.Core) : s.clear_null_account_balance.Core := by
  unfold State.clear_null_account_balance
  dsimp only
  split
  · have hstate : { s.modifyAccount STEEMIT_NULL_ACCOUNT fun acc => { acc with vesting_shares := 0 }
        with total_vesting_shares :=
          s.total_vesting_shares - (s.accounts STEEMIT_NULL_ACCOUNT).vesting_shares } =
        s.withShares STEEMIT_NULL_ACCOUNT (-(s.accounts STEEMIT_NULL_ACCOUNT).vesting_shares)
          (s.total_vesting_shares - (s.accounts STEEMIT_NULL_ACCOUNT).vesting_shares) := by
      simp [withShares, modifyAccount]
    rw [hstate]
    generalize -(s.accounts STEEMIT_NULL_ACCOUNT).vesting_shares = d
    generalize s.total_vesting_shares - (s.accounts STEEMIT_NULL_ACCOUNT).vesting_shares = t
    have habove : ∀ k x, ancestor s.proxyOf (k + 1) STEEMIT_NULL_ACCOUNT ≠ some x := by
      intro k x
      rw [ancestor_succ_left, h.links.null_proxy]
      exact nofun
    refine ⟨h.links.withShares h.links.null_lt d t, ⟨fun x k hk => ?_, fun hf w => ?_⟩⟩
    · rw [congrFun (field_withShares s _ d t Account.proxied_vsf_votes (fun _ _ => rfl) x) k,
        h.tallied.proxied x k hk, proxyOf_withShares,
        levelBelow_withShares s _ d t h.links.null_lt, if_neg (habove k x), add_zero]
    · refine (h.tallied.votes hf w).trans (votersSum_congr fun x hx => ?_)
      have hne : STEEMIT_NULL_ACCOUNT ≠ x := by
        rintro rfl
        exact h.links.null_votes hx
      rw [proxyOf_withShares, weightBelow_withShares s _ d t h.links.null_lt,
        Finset.sum_eq_zero, add_zero]
      intro k _
      cases k with
      | zero => rw [ancestor_zero, if_neg fun e => hne (Option.some.inj e)]
      | succ k => rw [if_neg (habove k x)]
  · exact h

/-! ## New accounts and witnesses -/

theorem Links.no_votes_of_fresh (h : s.Links) (ha : s.num_accounts ≤ a) (w : WitnessId) :
    (a, w) ∉ s.witness_votes :=
  fun hm => absurd (h.account_lt hm) (Nat.not_lt.2 ha)

theorem proxyOf_createAccount (h : s.Links) : s.createAccount.proxyOf = s.proxyOf :=
  funext (field_update Account.proxy (h.fresh_proxy le_rfl).symm)

theorem shares_createAccount (h : s.Links) : s.createAccount.shares = s.shares :=
  funext (field_update Account.vesting_shares (h.fresh_shares le_rfl).symm)

theorem levelBelow_createAccount (h : s.Links) (parent : AccountId → Option AccountId) :
    s.createAccount.levelBelow parent = s.levelBelow parent := by
  funext k x
  have hnodes : s.createAccount.nodes = insert s.num_accounts s.nodes := Finset.range_add_one
  rw [levelBelow, hnodes, shares_createAccount h]
  exact level_insert (by simp [nodes]) (h.fresh_shares le_rfl) k x

theorem Core.createAccount (h : s.Core) : s.createAccount.Core := by
  have hproxy := proxyOf_createAccount h.links
  refine ⟨?_, ⟨fun x k hk => ?_, fun hf w => ?_⟩⟩
  · exact {
      nodup := h.links.nodup
      account_lt := fun hm => Nat.lt_succ_of_lt (h.links.account_lt hm)
      no_proxy := fun hm => by rw [hproxy]; exact h.links.no_proxy hm
      witness_lt := h.links.witness_lt
      can_vote := fun {a w} hm => by
        have hne : a ≠ s.num_accounts := (h.links.account_lt hm).ne
        simpa [State.createAccount, Function.update_of_ne hne] using h.links.can_vote hm
      acyclic := by rw [hproxy]; exact h.links.acyclic
      proxy_lt := fun hm => by rw [hproxy] at hm; exact Nat.lt_succ_of_lt (h.links.proxy_lt hm)
      fresh_proxy := fun hm => by rw [hproxy]; exact h.links.fresh_proxy (Nat.le_of_succ_le hm)
      fresh_shares := fun hm => by
        rw [shares_createAccount h.links]
        exact h.links.fresh_shares (Nat.le_of_succ_le hm)
      null_lt := Nat.lt_succ_of_lt h.links.null_lt
      null_proxy := by rw [hproxy]; exact h.links.null_proxy
      null_votes := h.links.null_votes }
  · rw [hproxy, levelBelow_createAccount h.links]
    by_cases hx : x = s.num_accounts
    · subst hx
      have hchild : ∀ y, s.proxyOf y ≠ some s.num_accounts := fun y hy =>
        absurd (h.links.proxy_lt hy) (Nat.lt_irrefl _)
      rw [levelBelow, level_of_no_child hchild]
      simp [State.createAccount]
    · rw [← h.tallied.proxied x k hk]
      simp [State.createAccount, Function.update_of_ne hx]
  · have hweight : s.createAccount.weightBelow s.proxyOf = s.weightBelow s.proxyOf := by
      funext x
      simp only [weightBelow, levelBelow_createAccount h.links]
    have hnodes : s.createAccount.nodes = insert s.num_accounts s.nodes := Finset.range_add_one
    have hfresh : (s.num_accounts, w) ∉ s.createAccount.witness_votes :=
      h.links.no_votes_of_fresh le_rfl w
    rw [hproxy, hweight, votersSum, hnodes, Finset.sum_insert (by simp [nodes]), if_neg hfresh,
      zero_add]
    exact h.tallied.votes hf w

theorem Core.createWitness (h : s.Core) : s.createWitness.Core := by
  refine ⟨?_, ⟨h.tallied.proxied, fun hf w => ?_⟩⟩
  · exact { h.links with witness_lt := fun hm => Nat.lt_succ_of_lt (h.links.witness_lt hm) }
  · by_cases hw : w = s.num_witnesses
    · subst hw
      have hzero : s.createWitness.votersSum (s.weightBelow s.proxyOf) s.num_witnesses = 0 :=
        Finset.sum_eq_zero fun x _ =>
          if_neg fun hm => absurd (h.links.witness_lt hm) (Nat.lt_irrefl _)
      refine Eq.trans ?_ hzero.symm
      simp [State.createWitness]
    · refine Eq.trans ?_ (h.tallied.votes hf w)
      simp [State.createWitness, Function.update_of_ne hw]

end State

end Calibrd.Chain.WitnessVotes
