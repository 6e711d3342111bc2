import Calibrd.Chain.VoteTally

/-!
# Changes of a proxy keep the vote tally

The evaluators take the votes of an account away, change its record and add the votes again along
the new chain. In between the tables are those of the forest in which the account has no parent
(`Removed`).
-/

namespace Calibrd.Chain.WitnessVotes

open Calibrd.Lib Calibrd.Lib.Forest

namespace State

variable {s s' : State} {a x : AccountId} {w : WitnessId}

/-! ## Cutting an account off

A walk with the levels of `a`, times `c`, makes up for the cut between `a` and its proxy.
-/

theorem above_levels (hacyclic : Acyclic s.proxyOf) {c : ℤ} {delta : ℕ → ℤ}
    (hd : ∀ i < STEEMIT_MAX_PROXY_RECURSION_DEPTH + 1, delta i = c * s.levelBelow s.proxyOf i a)
    {k : ℕ} (hk : k < STEEMIT_MAX_PROXY_RECURSION_DEPTH + 1) (x : AccountId) :
    above s.proxyOf k (fun d => delta (k - 1 - d)) a x =
      c * (s.levelBelow s.proxyOf k x - s.levelBelow (detach s.proxyOf a) k x) := by
  have hmul : above s.proxyOf k (fun d => delta (k - 1 - d)) a x =
      c * above s.proxyOf k (fun d => s.levelBelow s.proxyOf (k - 1 - d) a) a x := by
    rw [above, above, Finset.mul_sum]
    refine Finset.sum_congr rfl fun d hdk => ?_
    rw [hd _ (by omega), mul_ite, mul_zero]
  rw [hmul, levelBelow, level_detach (a := a) hacyclic k x, levelBelow, add_sub_cancel_left]
  rfl

theorem adjust_array_levels (h : s.Links) {c : ℤ} {delta : ℕ → ℤ}
    (hd : ∀ i < STEEMIT_MAX_PROXY_RECURSION_DEPTH + 1, delta i = c * s.levelBelow s.proxyOf i a)
    (hs : s.adjust_proxied_witness_votes_array a delta = .ok s') :
    s' = s.shifted
      (fun x k => if k < STEEMIT_MAX_PROXY_RECURSION_DEPTH then
        c * (s.levelBelow s.proxyOf (k + 1) x - s.levelBelow (detach s.proxyOf a) (k + 1) x) else 0)
      (s.votersSum fun x => c * ((if a = x then s.weightBelow s.proxyOf a else 0) +
        (s.weightBelow s.proxyOf x - s.weightBelow (detach s.proxyOf a) x))) := by
  rw [adjust_proxied_witness_votes_array_spec h.toVotersOk hs]
  congr 1
  · funext x k
    split
    · next hk => exact above_levels h.acyclic hd (Nat.succ_lt_succ hk) x
    · rfl
  · congr 1
    funext x
    rw [mul_add, mul_ite, mul_zero, Finset.sum_add_distrib]
    congr 1
    · split
      · rw [weightBelow, Finset.mul_sum]
        exact Finset.sum_congr rfl fun k hk => hd k (Finset.mem_range.1 hk)
      · exact Finset.sum_const_zero
    · rw [weightBelow, weightBelow, ← Finset.sum_sub_distrib, Finset.mul_sum]
      exact Finset.sum_congr rfl fun k hk => above_levels h.acyclic hd (Finset.mem_range.1 hk) x

/-- The delta that evaluators build from the account's fields is made of its levels. -/
theorem Core.removal_eq (h : s.Core) (ha : a < s.num_accounts) {i : ℕ}
    (hi : i < STEEMIT_MAX_PROXY_RECURSION_DEPTH + 1) :
    s.removal a i = -1 * s.levelBelow s.proxyOf i a := by
  rw [neg_one_mul]
  cases i with
  | zero =>
    have hmem : a ∈ s.nodes := Finset.mem_range.2 ha
    rw [levelBelow, level_zero hmem]
    rfl
  | succ i =>
    rw [← h.tallied.proxied a i (Nat.lt_of_succ_lt_succ hi)]
    rfl

theorem levelBelow_detach_self (h : s.Links) (k : ℕ) :
    s.levelBelow (detach s.proxyOf a) k a = s.levelBelow s.proxyOf k a :=
  level_detach_self h.acyclic k

theorem weightBelow_detach_self (h : s.Links) :
    s.weightBelow (detach s.proxyOf a) a = s.weightBelow s.proxyOf a :=
  Finset.sum_congr rfl fun k _ => levelBelow_detach_self h k

/-- With the votes of `a` taken away, the tables are those of the forest without its link, except
that `a` itself counts for nothing. -/
structure Removed (s s' : State) (a : AccountId) : Prop where
  shift : ∃ f g, s' = s.shifted f g
  proxied : ∀ x, ∀ k < STEEMIT_MAX_PROXY_RECURSION_DEPTH,
    (s'.accounts x).proxied_vsf_votes k = s.levelBelow (detach s.proxyOf a) (k + 1) x
  votes : s.last_hardfork ≠ 1 → ∀ w, s'.votes w =
    s.votersSum (fun x => if a = x then 0 else s.weightBelow (detach s.proxyOf a) x) w

theorem Core.removed (h : s.Core) (ha : a < s.num_accounts)
    (hs : s.adjust_proxied_witness_votes_array a (s.removal a) = .ok s') : Removed s s' a := by
  have hstate := adjust_array_levels h.links (fun i hi => h.removal_eq ha hi) hs
  refine ⟨⟨_, _, hstate⟩, fun x k hk => ?_, fun hf w => ?_⟩
  · rw [hstate]
    simp only [shifted, if_pos hk, h.tallied.proxied x k hk]
    ring
  · rw [hstate]
    simp only [shifted]
    rw [h.tallied.votes hf w, ← votersSum_add]
    refine votersSum_congr fun x _ => ?_
    split
    · next hx =>
      subst hx
      rw [weightBelow_detach_self h.links]
      ring
    · ring

/-! ## A new record -/

/-- Another record for `a`, whose votes are gone. -/
def relinked (s : State) (a : AccountId) (acc : Account) : State :=
  { s with
    accounts := Function.update s.accounts a acc
    witness_votes := s.witness_votes.filter fun v => v.1 ≠ a }

section Relinked

variable {acc : Account}

theorem proxyOf_relinked : (s.relinked a acc).proxyOf = Function.update s.proxyOf a acc.proxy :=
  funext (Function.apply_update (fun _ => Account.proxy) s.accounts a acc)

theorem field_relinked {β : Type} (φ : Account → β) (h : φ acc = φ (s.accounts a)) (x : AccountId) :
    φ ((s.relinked a acc).accounts x) = φ (s.accounts x) :=
  field_update φ h x

theorem mem_relinked {b : AccountId} :
    (b, w) ∈ (s.relinked a acc).witness_votes ↔ (b, w) ∈ s.witness_votes ∧ b ≠ a := by
  simp [relinked]

theorem votedFor_relinked_self : (s.relinked a acc).votedFor a = [] :=
  List.eq_nil_iff_forall_not_mem.2 fun _ hw => (mem_relinked.1 (mem_votedFor.1 hw)).2 rfl

theorem votedFor_relinked {b : AccountId} (hb : b ≠ a) :
    (s.relinked a acc).votedFor b = s.votedFor b := by
  unfold votedFor relinked
  rw [List.filter_filter]
  congr 1
  refine List.filter_congr fun v _ => ?_
  by_cases hv : v.1 = b
  · simp [hv, hb]
  · simp [hv]

theorem Links.relinked (h : s.Links) (ha : a < s.num_accounts) (hnull : a ≠ STEEMIT_NULL_ACCOUNT)
    (hshares : acc.vesting_shares = s.shares a)
    (hproxy : ∀ p, acc.proxy = some p → p < s.num_accounts)
    (hacyclic : Acyclic (Function.update s.proxyOf a acc.proxy)) : (s.relinked a acc).Links where
  nodup := h.nodup.filter _
  account_lt hm := h.account_lt (mem_relinked.1 hm).1
  no_proxy hm := by
    obtain ⟨hm, hne⟩ := mem_relinked.1 hm
    rw [proxyOf_relinked, Function.update_of_ne hne]
    exact h.no_proxy hm
  witness_lt hm := h.witness_lt (mem_relinked.1 hm).1
  can_vote hm := by
    obtain ⟨hm, hne⟩ := mem_relinked.1 hm
    simpa [State.relinked, Function.update_of_ne hne] using h.can_vote hm
  acyclic := by
    rw [proxyOf_relinked]
    exact hacyclic
  proxy_lt {b p} hp := by
    rw [proxyOf_relinked] at hp
    by_cases hb : b = a
    · subst hb
      rw [Function.update_self] at hp
      exact hproxy p hp
    · rw [Function.update_of_ne hb] at hp
      exact h.proxy_lt hp
  fresh_proxy {b} hb := by
    have hne : b ≠ a := (Nat.lt_of_lt_of_le ha hb).ne'
    rw [proxyOf_relinked, Function.update_of_ne hne]
    exact h.fresh_proxy hb
  fresh_shares {b} hb :=
    (field_relinked Account.vesting_shares hshares b).trans (h.fresh_shares hb)
  null_lt := h.null_lt
  null_proxy := by
    rw [proxyOf_relinked, Function.update_of_ne hnull.symm]
    exact h.null_proxy
  null_votes hm := h.null_votes (mem_relinked.1 hm).1

theorem levelBelow_relinked (hshares : acc.vesting_shares = s.shares a) :
    (s.relinked a acc).levelBelow = s.levelBelow := by
  have hs : (s.relinked a acc).shares = s.shares :=
    funext (field_relinked Account.vesting_shares hshares)
  funext parent k x
  rw [levelBelow, hs]
  rfl

/-- The record of an account whose votes were removed is rewritten. -/
theorem Removed.tallied {s1 : State} (h : Removed s s1 a)
    (hshares : acc.vesting_shares = s.shares a)
    (hproxied : acc.proxied_vsf_votes = (s1.accounts a).proxied_vsf_votes) :
    (s1.relinked a acc).Tallied (detach s.proxyOf a) := by
  obtain ⟨f, g, rfl⟩ := h.shift
  have hlevel : ((s.shifted f g).relinked a acc).levelBelow = s.levelBelow :=
    levelBelow_relinked hshares
  have hweight : ((s.shifted f g).relinked a acc).weightBelow = s.weightBelow := by
    funext parent x
    simp only [weightBelow, hlevel]
  refine ⟨fun x k hk => ?_, fun hf w => ?_⟩
  · rw [congrFun (field_relinked Account.proxied_vsf_votes hproxied x) k, h.proxied x k hk, hlevel]
  · refine (h.votes hf w).trans (Finset.sum_congr rfl fun x _ => ?_)
    rw [hweight]
    simp only [mem_relinked, witness_votes_shifted, ite_and, ne_eq]
    by_cases hx : a = x
    · subst hx
      simp
    · simp [hx, Ne.symm hx]

end Relinked

/-! ## The evaluators -/

/-- Clearing the votes of an account and rewriting its record. -/
theorem modifyAccount_clear_witness_votes (g : Account → Account) :
    (s.clear_witness_votes a).modifyAccount a g =
      s.relinked a (g { s.accounts a with
        witnesses_voted_for :=
          if s.has_hardfork 6 then 0 else (s.accounts a).witnesses_voted_for }) := by
  unfold clear_witness_votes
  cases s.has_hardfork 6 <;> simp [modifyAccount, relinked]

theorem Core.declineVotingRights (h : s.Core) (hnull : a ≠ STEEMIT_NULL_ACCOUNT)
    (hs : s.declineVotingRights a = .ok s') : s'.Core := by
  obtain ⟨ha, hs⟩ := check_decide_ok.1 hs
  obtain ⟨s1, h₁, hs⟩ := bind_ok.1 hs
  have hacc := ha
  have hr := h.removed hacc h₁
  obtain ⟨f, g, hshift⟩ := hr.shift
  rw [← Except.ok.inj hs, modifyAccount_clear_witness_votes]
  refine ⟨?_, ?_⟩
  · subst hshift
    exact (h.links.shifted f g).relinked hacc hnull rfl nofun (h.links.acyclic.detach a)
  · rw [proxyOf_relinked]
    subst hshift
    exact hr.tallied rfl rfl

/-- A walk that ends does not lead to an account of the chain. -/
theorem checkChain_spec {left : ℕ} {chain : List AccountId} {cprox : AccountId}
    (h : checkChain left chain cprox s = .ok ()) (ha : a ∈ chain) (k : ℕ) :
    ancestor s.proxyOf (k + 1) cprox ≠ some a := by
  rw [ancestor_succ_left]
  induction left generalizing chain cprox k with
  | zero =>
    cases hp : s.proxyOf cprox with
    | none => exact nofun
    | some q =>
      unfold checkChain at h
      simp only [hp] at h
      replace h := ok_of_check h
      exact nomatch (check_bind_ok.1 h).2
  | succ left ih =>
    cases hp : s.proxyOf cprox with
    | none => exact nofun
    | some q =>
      unfold checkChain at h
      simp only [hp] at h
      replace h := ok_of_check h
      obtain ⟨hq, h⟩ := check_decide_ok.1 h
      rw [Option.bind_some]
      cases k with
      | zero =>
        intro hqa
        obtain rfl : q = a := Option.some.inj hqa
        exact hq ha
      | succ k =>
        rw [ancestor_succ_left]
        exact ih h (List.mem_cons_of_mem q ha) k

/-- An account with a proxy has no votes of its own. -/
theorem setProxy_none (h : s.Links) (hproxy : s.proxyOf a ≠ none) :
    s.setProxy a none = s.relinked a { s.accounts a with proxy := none } := by
  have hvotes : s.witness_votes.filter (fun v => v.1 ≠ a) = s.witness_votes := by
    refine List.filter_eq_self.2 fun v hv => decide_eq_true fun hva => hproxy ?_
    rw [← hva]
    exact h.no_proxy hv
  rw [relinked, hvotes]
  rfl

theorem Core.clearProxy (h : s.Core) (hnull : a ≠ STEEMIT_NULL_ACCOUNT) (ha : a < s.num_accounts)
    (hproxy : s.proxyOf a ≠ none)
    (hs : s.adjust_proxied_witness_votes_array a (s.removal a) = .ok s') :
    (s'.setProxy a none).Core := by
  have hr := h.removed ha hs
  obtain ⟨f, g, hshift⟩ := hr.shift
  subst hshift
  rw [setProxy_none (h.links.shifted f g) hproxy]
  refine ⟨?_, ?_⟩
  · exact (h.links.shifted f g).relinked ha hnull rfl nofun (h.links.acyclic.detach a)
  · rw [proxyOf_relinked]
    exact hr.tallied rfl rfl

/-- A new proxy above whom `a` is not: the votes of `a` are cleared and its levels added along the
new chain. -/
theorem Core.newProxy {s1 : State} {p : AccountId} (h : s.Core) (hnull : a ≠ STEEMIT_NULL_ACCOUNT)
    (ha : a < s.num_accounts) (hp : p < s.num_accounts)
    (hchain : ∀ k, ancestor s.proxyOf k p ≠ some a)
    (h₁ : s.adjust_proxied_witness_votes_array a (s.removal a) = .ok s1)
    (hs : ((s1.clear_witness_votes a).setProxy a (some p)).adjust_proxied_witness_votes_array a
      (fun i => -s.removal a i) = .ok s') : s'.Core := by
  have hr := h.removed ha h₁
  obtain ⟨f, g, hshift⟩ := hr.shift
  rw [setProxy, modifyAccount_clear_witness_votes] at hs
  set acc : Account := { s1.accounts a with
    proxy := some p
    witnesses_voted_for := if s1.has_hardfork 6 then 0 else (s1.accounts a).witnesses_voted_for }
  have hproxy : (s1.relinked a acc).proxyOf = Function.update s.proxyOf a (some p) := by
    rw [proxyOf_relinked, hshift]
    rfl
  have hdetach : detach (s1.relinked a acc).proxyOf a = detach s.proxyOf a := by
    rw [hproxy, detach, Function.update_idem]
    rfl
  have hacyclic : Acyclic (Function.update s.proxyOf a (some p)) := by
    have hroot : detach s.proxyOf a a = none := Function.update_self ..
    have hcut : ∀ k, ancestor (detach s.proxyOf a) k p ≠ some a := by
      intro k
      rcases ancestor_detach s.proxyOf a k p with ⟨-, hnone⟩ | ⟨-, hsame⟩
      · rw [hnone]
        exact (Option.some_ne_none a).symm
      · rw [hsame]
        exact hchain k
    have hattach := (h.links.acyclic.detach a).attach hroot hcut
    rwa [detach, Function.update_idem] at hattach
  have hshares : acc.vesting_shares = s1.shares a := rfl
  have hlinks : (s1.relinked a acc).Links := by
    subst hshift
    refine (h.links.shifted f g).relinked ha hnull hshares ?_ hacyclic
    intro q hq
    obtain rfl : p = q := Option.some.inj hq
    exact hp
  have htallied : (s1.relinked a acc).Tallied (detach s.proxyOf a) := by
    subst hshift
    exact hr.tallied rfl rfl
  -- below `a` nothing has changed
  have hdelta : ∀ i < STEEMIT_MAX_PROXY_RECURSION_DEPTH + 1, -s.removal a i =
      1 * (s1.relinked a acc).levelBelow (s1.relinked a acc).proxyOf i a := by
    intro i hi
    rw [h.removal_eq ha hi, ← levelBelow_detach_self hlinks, hdetach, levelBelow_relinked hshares,
      hshift, levelBelow_shifted, levelBelow_detach_self h.links]
    ring
  have hstate := adjust_array_levels hlinks hdelta hs
  rw [hdetach] at hstate
  rw [hstate]
  refine ⟨hlinks.shifted _ _, ?_⟩
  rw [proxyOf_shifted]
  refine tallied_shifted (fun x k hk => ?_) fun hf w => ?_
  · rw [htallied.proxied x k hk, if_pos hk]
    ring
  · rw [htallied.votes hf w, ← votersSum_add]
    refine votersSum_congr fun x hx => ?_
    rw [if_neg (mem_relinked.1 hx).2.symm]
    ring

theorem Core.account_witness_proxy (h : s.Core) (hnull : a ≠ STEEMIT_NULL_ACCOUNT)
    {proxy : Option AccountId} (hs : s.account_witness_proxy a proxy = .ok s') : s'.Core := by
  obtain ⟨hself, hs⟩ := check_decide_ok.1 hs
  obtain ⟨ha, hs⟩ := check_decide_ok.1 hs
  obtain ⟨hchange, hs⟩ := check_decide_ok.1 hs
  replace hs := ok_of_check hs
  obtain ⟨s1, h₁, hs⟩ := bind_ok.1 hs
  have hacc := ha
  cases proxy with
  | none =>
    cases hs
    exact h.clearProxy hnull hacc hchange h₁
  | some p =>
    obtain ⟨hp, hs⟩ := check_bind_ok.1 hs
    obtain ⟨u, hcheck, hs⟩ := bind_ok.1 hs
    obtain ⟨f, g, hshift⟩ := (h.removed hacc h₁).shift
    refine h.newProxy hnull hacc ?_ ?_ h₁ hs
    · rw [hshift] at hp
      exact of_decide_eq_true hp
    · intro k
      cases k with
      | zero =>
        intro hpa
        exact hself hpa
      | succ k =>
        have hwalk := checkChain_spec hcheck (List.mem_cons_self (a := a)) k
        rwa [hshift, proxyOf_shifted] at hwalk

/-! ## Votes and hardforks keep the vote tally

A vote adds or takes one supporter, and the hardforks count again. With the changes of shares and
proxies every call keeps `State.Core`.
-/

variable {v : WitnessId}

/-! ## Votes -/

/-- Other vote objects, with the votes of one witness and the count of one account adapted. -/
def revoted (s : State) (objects : List (AccountId × WitnessId)) (v : WitnessId) (d : ℤ)
    (a : AccountId) (count : ℕ) : State :=
  { s with
    accounts := Function.update s.accounts a { s.accounts a with witnesses_voted_for := count }
    votes := Function.update s.votes v (s.votes v + d)
    witness_votes := objects }

section Revoted

variable {objects : List (AccountId × WitnessId)} {v : WitnessId} {d : ℤ} {count : ℕ}

theorem field_revoted {β : Type} (φ : Account → β)
    (h : ∀ acc c, φ { acc with witnesses_voted_for := c } = φ acc) (x : AccountId) :
    φ ((s.revoted objects v d a count).accounts x) = φ (s.accounts x) :=
  field_update φ (h _ _) x

theorem proxyOf_revoted : (s.revoted objects v d a count).proxyOf = s.proxyOf :=
  funext (field_revoted Account.proxy fun _ _ => rfl)

theorem shares_revoted : (s.revoted objects v d a count).shares = s.shares :=
  funext (field_revoted Account.vesting_shares fun _ _ => rfl)

theorem levelBelow_revoted : (s.revoted objects v d a count).levelBelow = s.levelBelow := by
  funext parent k x
  rw [levelBelow, shares_revoted]
  rfl

/-- The vote objects may be fewer, or one more of an account that may vote. -/
theorem Links.revoted (h : s.Links) (hnodup : objects.Nodup)
    (hsub : ∀ b u, (b, u) ∈ objects → (b, u) ∈ s.witness_votes ∨ b = a ∧ u = v ∧
      a < s.num_accounts ∧ v < s.num_witnesses ∧ s.proxyOf a = none ∧
      (s.accounts a).can_vote = true ∧ a ≠ STEEMIT_NULL_ACCOUNT) :
    (s.revoted objects v d a count).Links where
  nodup := hnodup
  account_lt {b u} hm := by
    rcases hsub b u hm with hm | ⟨rfl, -, hlt, -⟩
    · exact h.account_lt hm
    · exact hlt
  no_proxy {b u} hm := by
    rw [proxyOf_revoted]
    rcases hsub b u hm with hm | ⟨rfl, -, -, -, hproxy, -⟩
    · exact h.no_proxy hm
    · exact hproxy
  witness_lt {b u} hm := by
    rcases hsub b u hm with hm | ⟨-, rfl, -, hlt, -⟩
    · exact h.witness_lt hm
    · exact hlt
  can_vote {b u} hm := by
    rw [field_revoted Account.can_vote fun _ _ => rfl]
    rcases hsub b u hm with hm | ⟨rfl, -, -, -, -, hcan, -⟩
    · exact h.can_vote hm
    · exact hcan
  acyclic := by rw [proxyOf_revoted]; exact h.acyclic
  proxy_lt hp := by rw [proxyOf_revoted] at hp; exact h.proxy_lt hp
  fresh_proxy hb := by rw [proxyOf_revoted]; exact h.fresh_proxy hb
  fresh_shares hb := by rw [shares_revoted]; exact h.fresh_shares hb
  null_lt := h.null_lt
  null_proxy := by rw [proxyOf_revoted]; exact h.null_proxy
  null_votes {u} hm := by
    rcases hsub _ u hm with hm | ⟨hb, -, -, -, -, -, hne⟩
    · exact h.null_votes hm
    · exact hne hb.symm

theorem Tallied.revoted (h : s.Tallied s.proxyOf)
    (hsum : ∀ w, (s.revoted objects v d a count).votersSum (s.weightBelow s.proxyOf) w =
      s.votersSum (s.weightBelow s.proxyOf) w + if w = v then d else 0) :
    (s.revoted objects v d a count).Tallied s.proxyOf := by
  refine ⟨fun x k hk => ?_, fun hf w => ?_⟩
  · rw [congrFun (field_revoted Account.proxied_vsf_votes (fun _ _ => rfl) x) k,
      h.proxied x k hk, levelBelow_revoted]
  · have hweight : (s.revoted objects v d a count).weightBelow s.proxyOf =
        s.weightBelow s.proxyOf := by
      funext x
      simp only [weightBelow, levelBelow_revoted]
    rw [hweight, hsum, ← h.votes hf w]
    by_cases hw : w = v
    · subst hw
      simp [State.revoted]
    · simp [State.revoted, hw]

end Revoted

theorem votersSum_insert (s1 s2 : State) (hn : s2.nodes = s1.nodes)
    (hmem : ∀ x w, (x, w) ∈ s2.witness_votes ↔ (x, w) ∈ s1.witness_votes ∨ x = a ∧ w = v)
    (hnot : (a, v) ∉ s1.witness_votes) (ha : a ∈ s1.nodes) (c : AccountId → ℤ) (w : WitnessId) :
    s2.votersSum c w = s1.votersSum c w + if w = v then c a else 0 := by
  have hpoint : ∀ x ∈ s1.nodes, (if (x, w) ∈ s2.witness_votes then c x else 0) =
      (if (x, w) ∈ s1.witness_votes then c x else 0) +
        if x = a then (if w = v then c a else 0) else 0 := by
    intro x _
    by_cases hx : x = a
    · subst hx
      by_cases hw : w = v
      · subst hw
        simp [hmem, hnot]
      · simp [hmem, hw]
    · simp [hmem, hx]
  rw [votersSum, hn, Finset.sum_congr rfl hpoint, Finset.sum_add_distrib, Finset.sum_ite_eq',
    if_pos ha]
  rfl

/-- With its fields right, `witness_vote_weight` is the weight that the forest gives. -/
theorem Core.weight_eq (h : s.Core) (ha : a < s.num_accounts) :
    (s.accounts a).witness_vote_weight = s.weightBelow s.proxyOf a := by
  have hmem : a ∈ s.nodes := Finset.mem_range.2 ha
  rw [Account.witness_vote_weight, weightBelow, Finset.sum_range_succ', levelBelow, level_zero hmem,
    add_comm]
  congr 1
  exact Finset.sum_congr rfl fun k hk => h.tallied.proxied a k (Finset.mem_range.1 hk)

theorem Core.vote (h : s.Core) (hnull : a ≠ STEEMIT_NULL_ACCOUNT)
    (ha : a < s.num_accounts) (hv : v < s.num_witnesses) (hproxy : s.proxyOf a = none)
    (hcan : (s.accounts a).can_vote = true) (hnew : (a, v) ∉ s.witness_votes) (count : ℕ) :
    (s.revoted ((a, v) :: s.witness_votes) v (s.accounts a).witness_vote_weight a count).Core := by
  refine ⟨h.links.revoted (List.nodup_cons.2 ⟨hnew, h.links.nodup⟩) ?_, ?_⟩
  · intro b u hm
    rcases List.mem_cons.1 hm with hm | hm
    · obtain ⟨rfl, rfl⟩ := Prod.mk.inj hm
      exact Or.inr ⟨rfl, rfl, ha, hv, hproxy, hcan, hnull⟩
    · exact Or.inl hm
  · rw [proxyOf_revoted]
    refine h.tallied.revoted fun w => ?_
    rw [h.weight_eq ha]
    refine votersSum_insert s (s.revoted ((a, v) :: s.witness_votes) v _ a _) rfl (fun x w => ?_)
      hnew (Finset.mem_range.2 ha) _ w
    rw [revoted, List.mem_cons, Prod.mk.injEq, or_comm]

theorem Core.unvote (h : s.Core) (hmem : (a, v) ∈ s.witness_votes) (count : ℕ) :
    (s.revoted (s.witness_votes.erase (a, v)) v (-(s.accounts a).witness_vote_weight) a
      count).Core := by
  have ha := h.links.account_lt hmem
  refine ⟨h.links.revoted (h.links.nodup.erase _) fun b u hm => Or.inl (List.mem_of_mem_erase hm), ?_⟩
  rw [proxyOf_revoted]
  refine h.tallied.revoted fun w => ?_
  -- the old vote objects are the new ones and the one that goes
  have hinsert := votersSum_insert (s.revoted (s.witness_votes.erase (a, v)) v
    (-(s.accounts a).witness_vote_weight) a count) s (a := a) (v := v) rfl
    (fun x w => ?_) (h.links.nodup.not_mem_erase) (Finset.mem_range.2 ha)
    (s.weightBelow s.proxyOf) w
  · rw [hinsert, h.weight_eq ha]
    split <;> ring
  · rw [(List.perm_cons_erase hmem).mem_iff, List.mem_cons, Prod.mk.injEq, or_comm]
    rfl

/-- What an accepted vote does: it takes back a vote, or casts one within the limit. -/
theorem account_witness_vote_cases {approve : Bool}
    (hs : s.account_witness_vote a v approve = .ok s') :
    ((a, v) ∈ s.witness_votes ∧
      s' = s.revoted (s.witness_votes.erase (a, v)) v (-(s.accounts a).witness_vote_weight) a
        (((s.accounts a).witnesses_voted_for + (2 ^ 16 - 1)) % 2 ^ 16)) ∨
    ((a, v) ∉ s.witness_votes ∧ approve = true ∧ a < s.num_accounts ∧ v < s.num_witnesses ∧
      s.proxyOf a = none ∧ (s.accounts a).can_vote = true ∧
      (s.accounts a).witnesses_voted_for < STEEMIT_MAX_ACCOUNT_WITNESS_VOTES ∧
      s' = s.revoted ((a, v) :: s.witness_votes) v (s.accounts a).witness_vote_weight a
        (((s.accounts a).witnesses_voted_for + 1) % 2 ^ 16)) := by
  obtain ⟨ha, hs⟩ := check_decide_ok.1 hs
  obtain ⟨hproxy, hs⟩ := check_bind_ok.1 hs
  obtain ⟨hcan, hs⟩ := check_bind_ok.1 hs
  obtain ⟨hv, hs⟩ := check_decide_ok.1 hs
  dsimp only at hs
  split at hs
  · next hmem =>
    replace hs := ok_of_check hs
    obtain ⟨s1, h₁, hs⟩ := bind_ok.1 hs
    replace h₁ := ok_of_check h₁
    rw [← Except.ok.inj hs, ← Except.ok.inj h₁]
    exact .inl ⟨hmem, rfl⟩
  · next hnew =>
    obtain ⟨happrove, hs⟩ := check_bind_ok.1 hs
    obtain ⟨hlimit, hs⟩ := check_decide_ok.1 hs
    obtain ⟨s1, h₁, hs⟩ := bind_ok.1 hs
    replace h₁ := ok_of_check h₁
    rw [← Except.ok.inj hs, ← Except.ok.inj h₁]
    rw [happrove, Bool.not_true, Bool.false_or] at hcan
    exact .inr ⟨hnew, happrove, ha, hv,
      Option.isNone_iff_eq_none.1 hproxy, hcan, hlimit, rfl⟩

theorem Core.account_witness_vote {approve : Bool} (h : s.Core)
    (hnull : a ≠ STEEMIT_NULL_ACCOUNT) (hs : s.account_witness_vote a v approve = .ok s') :
    s'.Core := by
  obtain ⟨hmem, rfl⟩ | ⟨hnew, -, ha, hv, hproxy, hcan, -, rfl⟩ := account_witness_vote_cases hs
  · exact h.unvote hmem _
  · exact h.vote hnull ha hv hproxy hcan hnew _

/-! ## Hardforks -/

theorem accounts_shifted_zero (g : WitnessId → ℤ) :
    (s.shifted (fun _ _ => 0) g).accounts = s.accounts := by
  simp only [shifted, add_zero]

theorem tallyAccounts_spec {l : List AccountId} (hv : s.VotersOk)
    (hs : tallyAccounts l s = .ok s') :
    s' = s.shifted (fun _ _ => 0) fun w => (l.map fun a =>
      if (a, w) ∈ s.witness_votes then (s.accounts a).witness_vote_weight else 0).sum := by
  induction l generalizing s with
  | nil =>
    cases hs
    simp only [List.map_nil, List.sum_nil, shifted_zero]
  | cons a rest ih =>
    unfold tallyAccounts at hs
    split at hs
    · next hproxy =>
      rw [ih hv hs]
      congr 1
      funext w
      rw [List.map_cons, List.sum_cons, if_neg fun hm => hproxy (hv.no_proxy hm), zero_add]
    · obtain ⟨s1, h₁, hrest⟩ := bind_ok.1 hs
      have hs1 := adjust_witness_votes_spec hv h₁
      subst hs1
      rw [ih (hv.shifted _ _) hrest, shifted_shifted]
      simp only [accounts_shifted_zero, witness_votes_shifted, List.map_cons, List.sum_cons,
        add_zero]

theorem Core.retally_votes (h : s.Core) (hs : s.retally_witness_votes = .ok s') :
    ∃ g, s' = s.shifted (fun _ _ => 0) g ∧
      ∀ w, s'.votes w = s.votersSum (s.weightBelow s.proxyOf) w := by
  have hv : VotersOk { s with votes := fun _ => 0 } :=
    ⟨h.links.nodup, h.links.account_lt, h.links.no_proxy⟩
  have hstate := tallyAccounts_spec hv hs
  have hvotes : ∀ w, s'.votes w = s.votersSum (s.weightBelow s.proxyOf) w := by
    intro w
    rw [hstate]
    simp only [shifted, zero_add]
    have hpoint : ∀ x ∈ s.nodes,
        (if (x, w) ∈ s.witness_votes then (s.accounts x).witness_vote_weight else 0) =
          if (x, w) ∈ s.witness_votes then s.weightBelow s.proxyOf x else 0 := by
      intro x hx
      rw [h.weight_eq (Finset.mem_range.1 hx)]
    exact Finset.sum_congr rfl hpoint
  refine ⟨fun w => s'.votes w - s.votes w, ?_, hvotes⟩
  rw [hstate]
  simp [shifted]

theorem Links.perform_vesting_share_split (h : s.Links) (m : ℤ) :
    (s.perform_vesting_share_split m).Links := by
  refine h.congr rfl rfl rfl rfl (fun _ => rfl) fun a ha => ?_
  have hzero : (s.accounts a).vesting_shares = 0 := h.fresh_shares ha
  simp [State.perform_vesting_share_split, shares, hzero]

/-- The next hardfork over tables that are right for it. -/
theorem Core.of_hardfork {s1 : State} {n : ℕ} (hlinks : s1.Links)
    (hproxied : ∀ x, ∀ k < STEEMIT_MAX_PROXY_RECURSION_DEPTH,
      (s1.accounts x).proxied_vsf_votes k = s1.levelBelow s1.proxyOf (k + 1) x)
    (hvotes : n ≠ 1 → ∀ w, s1.votes w = s1.votersSum (s1.weightBelow s1.proxyOf) w) :
    { s1 with last_hardfork := n }.Core :=
  ⟨hlinks.congr rfl rfl rfl rfl (fun _ => rfl) fun _ _ => rfl, ⟨hproxied, hvotes⟩⟩

theorem Core.retally_hardfork (h : s.Core) {s1 : State} {n : ℕ}
    (hs : s.retally_witness_votes = .ok s1) : { s1 with last_hardfork := n }.Core := by
  obtain ⟨g, rfl, hcounted⟩ := h.retally_votes hs
  refine Core.of_hardfork (h.links.shifted _ _) (fun x k hk => ?_) fun _ => hcounted
  rw [accounts_shifted_zero]
  exact h.tallied.proxied x k hk

theorem Core.applyNextHardfork (h : s.Core) (hs : s.applyNextHardfork = .ok s') : s'.Core := by
  replace hs := ok_of_check hs
  obtain ⟨s1, h₁, hs⟩ := bind_ok.1 hs
  cases hs
  generalize hn : s.last_hardfork + 1 = n at h₁ ⊢
  -- where the hardfork does not touch the votes, they were right before
  have hvotes : n ≠ 2 → s.last_hardfork ≠ 1 := by omega
  unfold hardforkChanges at h₁
  split at h₁
  · obtain rfl := Except.ok.inj h₁
    refine Core.of_hardfork (h.links.perform_vesting_share_split _) (fun x k hk => ?_)
      fun hne => absurd rfl hne
    refine Eq.trans ?_ (level_mul _ (k + 1) x).symm
    exact congrArg (· * _) (h.tallied.proxied x k hk)
  · exact h.retally_hardfork h₁
  · exact h.retally_hardfork h₁
  · obtain rfl := Except.ok.inj h₁
    exact Core.of_hardfork (h.links.congr rfl rfl rfl rfl (fun _ => rfl) fun _ _ => rfl)
      h.tallied.proxied fun _ => h.tallied.votes (hvotes (by decide))
  · obtain rfl := Except.ok.inj h₁
    exact Core.of_hardfork (h.links.congr rfl rfl rfl rfl (fun _ => rfl) fun _ _ => rfl)
      h.tallied.proxied fun _ => h.tallied.votes (hvotes (by decide))
  · next h1 h2 h3 h6 h8 =>
    obtain rfl := Except.ok.inj h₁
    exact Core.of_hardfork h.links h.tallied.proxied fun _ => h.tallied.votes (hvotes h2)

end State

end Calibrd.Chain.WitnessVotes
