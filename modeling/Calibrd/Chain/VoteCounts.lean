import Calibrd.Chain.VoteProxies

/-!
# The vote counts

Adjustments and changes of shares do not touch the vote objects or the counts (`SameCounts`);
votes change both by one, and clearing the votes of an account resets its count from hardfork 6 on.

Hardfork 6 recounts the votes of accounts that have a proxy only, which have none, so every count is
0 until hardfork 8 counts again. In between the limit on votes is checked against a wrong count, and
the counts are kept under a condition on the votes only (`VoteAllowed`).
-/

namespace Calibrd.Chain.WitnessVotes

open Calibrd.Lib Calibrd.Lib.Forest

namespace State

variable {s s' s1 s2 : State} {a x : AccountId} {w : WitnessId}

theorem CountOk.congr (h : s.CountOk a) (hh : s'.last_hardfork = s.last_hardfork)
    (hv : (s'.votedFor a).length = (s.votedFor a).length)
    (hc : (s'.accounts a).witnesses_voted_for = (s.accounts a).witnesses_voted_for) :
    s'.CountOk a := by
  unfold CountOk at *
  rwa [hh, hv, hc]

/-! ## Calls that leave the counts alone -/

structure SameCounts (s s' : State) : Prop where
  last_hardfork : s'.last_hardfork = s.last_hardfork
  objects : s'.witness_votes = s.witness_votes
  counts : ∀ a, (s'.accounts a).witnesses_voted_for = (s.accounts a).witnesses_voted_for

theorem SameCounts.trans (h : SameCounts s s1) (h' : SameCounts s1 s2) : SameCounts s s2 :=
  ⟨h'.last_hardfork.trans h.last_hardfork, h'.objects.trans h.objects,
    fun a => (h'.counts a).trans (h.counts a)⟩

theorem SameCounts.countOk (hs : SameCounts s s') (h : ∀ b, s.CountOk b) (b : AccountId) :
    s'.CountOk b := by
  refine (h b).congr hs.last_hardfork ?_ (hs.counts b)
  simp only [votedFor, hs.objects]

theorem SameCounts.adjustChain {change : ℕ → ℕ → ℤ} {total : ℕ → ℤ} {left depth : ℕ}
    (h : adjustChain change total left depth a s = .ok s') : SameCounts s s' := by
  obtain ⟨f, g, rfl⟩ := adjustChain_shifted h
  exact ⟨rfl, rfl, fun _ => rfl⟩

theorem SameCounts.withShares (s : State) (a : AccountId) (d t : ℤ) :
    SameCounts s (s.withShares a d t) :=
  ⟨rfl, rfl, field_withShares s a d t Account.witnesses_voted_for fun _ _ => rfl⟩

theorem SameCounts.changeShares {d t : ℤ}
    (h : (s.withShares a d t).adjust_proxied_witness_votes a d = .ok s') : SameCounts s s' :=
  (SameCounts.withShares s a d t).trans (.adjustChain h)

theorem SameCounts.addShares {vests : ℤ} (h : s.addShares a vests = .ok s') : SameCounts s s' := by
  replace h := ok_of_check h
  exact .changeShares h

theorem SameCounts.depositVests {to_withdraw : ℕ} {routes : List Route}
    (h : depositVests to_withdraw routes s = .ok s') : SameCounts s s' := by
  induction routes generalizing s with
  | nil =>
    cases h
    exact ⟨rfl, rfl, fun _ => rfl⟩
  | cons r rest ih =>
    unfold State.depositVests at h
    split at h
    · replace h := ok_of_check h
      obtain ⟨s1, h₁, h⟩ := bind_ok.1 h
      have hfirst : SameCounts s s1 := .changeShares (t := s.total_vesting_shares) h₁
      exact hfirst.trans (ih h)
    · exact ih h

theorem SameCounts.withdrawVesting {to_withdraw : ℕ} {routes : List Route}
    (h : s.withdrawVesting a to_withdraw routes = .ok s') : SameCounts s s' := by
  replace h := ok_of_check h
  obtain ⟨s1, h₁, h⟩ := bind_ok.1 h
  replace h := ok_of_check h
  have hdeposit := SameCounts.depositVests h₁
  split at h
  · exact hdeposit.trans (.changeShares h)
  · cases h
    exact hdeposit.trans (.withShares s1 a _ _)

theorem SameCounts.clear_null_account_balance (s : State) :
    SameCounts s s.clear_null_account_balance := by
  unfold State.clear_null_account_balance
  dsimp only
  split
  · exact ⟨rfl, rfl, field_modifyAccount (s := s) (a := STEEMIT_NULL_ACCOUNT)
      Account.witnesses_voted_for (f := fun acc => { acc with vesting_shares := 0 }) rfl⟩
  · exact ⟨rfl, rfl, fun _ => rfl⟩

/-! ## New accounts, proxies and declined rights -/

theorem CountOk.createAccount (hl : s.Links) (h : ∀ b, s.CountOk b) (b : AccountId) :
    s.createAccount.CountOk b := by
  by_cases hb : b = s.num_accounts
  · subst hb
    have hvoted : s.votedFor s.num_accounts = [] :=
      List.eq_nil_iff_forall_not_mem.2 fun w hw =>
        hl.no_votes_of_fresh le_rfl w (mem_votedFor.1 hw)
    have hvoted' : s.createAccount.votedFor s.num_accounts = [] := hvoted
    unfold CountOk
    rw [hvoted']
    split <;> simp [State.createAccount]
  · exact (h b).congr rfl rfl (by simp [State.createAccount, Function.update_of_ne hb])

section Relinked

variable {acc : Account}

theorem CountOk.relinked {s1 : State} (h : ∀ b, s.CountOk b) (hr : ∃ f g, s1 = s.shifted f g)
    (hbefore : s.last_hardfork < 6 →
      acc.witnesses_voted_for = (s.accounts a).witnesses_voted_for)
    (hafter : 8 ≤ s.last_hardfork → acc.witnesses_voted_for = 0) (b : AccountId) :
    (s1.relinked a acc).CountOk b := by
  obtain ⟨f, g, rfl⟩ := hr
  by_cases hb : b = a
  · subst hb
    have hcount := h b
    have hacc : (((s.shifted f g).relinked b acc).accounts b) = acc := by simp [State.relinked]
    unfold CountOk at *
    rw [votedFor_relinked_self, hacc]
    by_cases hf : s.last_hardfork < 6
    · rw [if_pos hf] at hcount
      rw [if_pos (show ((s.shifted f g).relinked b acc).last_hardfork < 6 from hf), hbefore hf]
      exact ⟨Nat.zero_le _, hcount.2⟩
    · rw [if_neg (show ¬ ((s.shifted f g).relinked b acc).last_hardfork < 6 from hf)]
      exact ⟨Nat.zero_le _, hafter⟩
  · refine (h b).congr rfl (congrArg List.length (votedFor_relinked hb)) ?_
    simp [State.relinked, Function.update_of_ne hb, State.shifted]

/-- `clear_witness_votes` resets the count from hardfork 6 on. -/
theorem CountOk.cleared {s1 : State} (h : ∀ b, s.CountOk b) (hr : ∃ f g, s1 = s.shifted f g)
    (hacc : acc.witnesses_voted_for =
      if s1.has_hardfork 6 then 0 else (s1.accounts a).witnesses_voted_for) (b : AccountId) :
    (s1.relinked a acc).CountOk b := by
  obtain ⟨f, g, rfl⟩ := hr
  refine CountOk.relinked h ⟨f, g, rfl⟩ (fun hf => ?_) (fun hf => ?_) b
  · have hno : (s.shifted f g).has_hardfork 6 = false := decide_eq_false (Nat.not_le.2 hf)
    rw [hacc, hno]
    rfl
  · have hyes : (s.shifted f g).has_hardfork 6 = true :=
      decide_eq_true (le_trans (by decide) hf)
    rw [hacc, hyes]
    rfl

end Relinked

theorem CountOk.declineVotingRights (h : ∀ b, s.CountOk b)
    (hs : s.declineVotingRights a = .ok s') (b : AccountId) : s'.CountOk b := by
  replace hs := ok_of_check hs
  obtain ⟨s1, h₁, hs⟩ := bind_ok.1 hs
  rw [← Except.ok.inj hs, modifyAccount_clear_witness_votes]
  exact CountOk.cleared h (adjustChain_shifted h₁) rfl b

/-- Clearing the proxy of an account, which has no votes of its own. -/
theorem CountOk.clearProxy (hl : s.Links) (h : ∀ b, s.CountOk b) (hproxy : s.proxyOf a ≠ none)
    (hs : ∃ f g, s1 = s.shifted f g) (b : AccountId) : (s1.setProxy a none).CountOk b := by
  have hvoted : s.votedFor a = [] :=
    List.eq_nil_iff_forall_not_mem.2 fun w hw => hproxy (hl.no_proxy (mem_votedFor.1 hw))
  obtain ⟨f, g, rfl⟩ := hs
  rw [setProxy_none (hl.shifted f g) hproxy]
  refine CountOk.relinked h ⟨f, g, rfl⟩ ?_ ?_ b
  · exact fun _ => rfl
  · intro hf
    have hcount := h a
    unfold CountOk at hcount
    rw [if_neg (by omega), hvoted] at hcount
    exact hcount.2 hf

theorem CountOk.account_witness_proxy (hl : s.Links) (h : ∀ b, s.CountOk b)
    {proxy : Option AccountId} (hs : s.account_witness_proxy a proxy = .ok s') (b : AccountId) :
    s'.CountOk b := by
  replace hs := ok_of_check hs
  replace hs := ok_of_check hs
  obtain ⟨hchange, hs⟩ := check_decide_ok.1 hs
  replace hs := ok_of_check hs
  obtain ⟨s1, h₁, hs⟩ := bind_ok.1 hs
  have hshift := adjustChain_shifted h₁
  cases proxy with
  | none =>
    cases hs
    exact CountOk.clearProxy hl h hchange hshift b
  | some p =>
    replace hs := ok_of_check hs
    obtain ⟨u, -, hs⟩ := bind_ok.1 hs
    refine (SameCounts.adjustChain hs).countOk (fun c => ?_) b
    rw [setProxy, modifyAccount_clear_witness_votes]
    exact CountOk.cleared h hshift rfl c

/-! ## Votes -/

variable {v : WitnessId}

theorem length_votedFor_perm (s1 s2 : State)
    (h : s2.witness_votes.Perm ((a, v) :: s1.witness_votes)) (b : AccountId) :
    (s2.votedFor b).length = (s1.votedFor b).length + if a = b then 1 else 0 := by
  unfold votedFor
  rw [List.length_map, List.length_map, (h.filter _).length_eq, List.filter_cons]
  split
  · next hab => simp_all
  · next hab => simp_all

/-- What the limit on votes rests on: between hardforks 6 and 8, where the count is not right, the
account has votes left by its vote objects. -/
def VoteAllowed (s : State) (a : AccountId) : Prop :=
  6 ≤ s.last_hardfork ∧ s.last_hardfork < 8 →
    (s.votedFor a).length < STEEMIT_MAX_ACCOUNT_WITNESS_VOTES

section

variable (h : ∀ b, s.CountOk b)

include h

theorem CountOk.vote {d : ℤ} (hallowed : s.VoteAllowed a)
    (hlimit : (s.accounts a).witnesses_voted_for < STEEMIT_MAX_ACCOUNT_WITNESS_VOTES)
    (b : AccountId) :
    (s.revoted ((a, v) :: s.witness_votes) v d a
      (((s.accounts a).witnesses_voted_for + 1) % 2 ^ 16)).CountOk b := by
  set s2 := s.revoted ((a, v) :: s.witness_votes) v d a
    (((s.accounts a).witnesses_voted_for + 1) % 2 ^ 16) with hs2
  have hlength := length_votedFor_perm s s2 (a := a) (v := v) (List.Perm.refl _) b
  by_cases hb : b = a
  · subst hb
    rw [if_pos rfl] at hlength
    have hcount : (s2.accounts b).witnesses_voted_for =
        (s.accounts b).witnesses_voted_for + 1 := by
      simp only [hs2, revoted, Function.update_self]
      simp only [STEEMIT_MAX_ACCOUNT_WITNESS_VOTES] at hlimit
      omega
    have hold := h b
    have hhardfork : s2.last_hardfork = s.last_hardfork := rfl
    unfold CountOk VoteAllowed at *
    rw [hhardfork, hlength, hcount]
    simp only [STEEMIT_MAX_ACCOUNT_WITNESS_VOTES] at *
    split at hold
    · next hf =>
      rw [if_pos hf]
      omega
    · next hf =>
      rw [if_neg hf]
      omega
  · refine (h b).congr rfl ?_ ?_
    · rw [hlength, if_neg (Ne.symm hb), add_zero]
    · simp [hs2, revoted, Function.update_of_ne hb]

theorem CountOk.unvote {d : ℤ} (hmem : (a, v) ∈ s.witness_votes) (b : AccountId) :
    (s.revoted (s.witness_votes.erase (a, v)) v d a
      (((s.accounts a).witnesses_voted_for + (2 ^ 16 - 1)) % 2 ^ 16)).CountOk b := by
  set s2 := s.revoted (s.witness_votes.erase (a, v)) v d a
    (((s.accounts a).witnesses_voted_for + (2 ^ 16 - 1)) % 2 ^ 16) with hs2
  have hlength := length_votedFor_perm s2 s (List.perm_cons_erase hmem) b
  by_cases hb : b = a
  · subst hb
    rw [if_pos rfl] at hlength
    have hcount : (s2.accounts b).witnesses_voted_for =
        ((s.accounts b).witnesses_voted_for + (2 ^ 16 - 1)) % 2 ^ 16 := by
      simp only [hs2, revoted, Function.update_self]
    have hold := h b
    have hhardfork : s2.last_hardfork = s.last_hardfork := rfl
    unfold CountOk at *
    rw [hlength] at hold
    rw [hhardfork, hcount]
    simp only [STEEMIT_MAX_ACCOUNT_WITNESS_VOTES] at *
    split at hold
    · next hf =>
      rw [if_pos hf]
      omega
    · next hf =>
      rw [if_neg hf]
      omega
  · refine (h b).congr rfl ?_ ?_
    · rw [hlength, if_neg (Ne.symm hb), add_zero]
    · simp [hs2, revoted, Function.update_of_ne hb]

theorem CountOk.account_witness_vote {approve : Bool}
    (hallowed : approve = true → s.VoteAllowed a) (hs : s.account_witness_vote a v approve = .ok s')
    (b : AccountId) : s'.CountOk b := by
  obtain ⟨hmem, rfl⟩ | ⟨-, happrove, -, -, -, -, hlimit, rfl⟩ := account_witness_vote_cases hs
  · exact CountOk.unvote h hmem b
  · exact CountOk.vote h (hallowed happrove) hlimit b

/-! ## Hardforks -/

theorem CountOk.of_hardfork (s1 : State) {n : ℕ}
    (hn : n = s.last_hardfork + 1) (hobjects : s1.witness_votes = s.witness_votes)
    (hcount : n ≠ 6 → n ≠ 8 → ∀ a,
      (s1.accounts a).witnesses_voted_for = (s.accounts a).witnesses_voted_for)
    (height : n = 8 → ∀ a, (s1.accounts a).witnesses_voted_for = (s.votedFor a).length % 2 ^ 16)
    (a : AccountId) : { s1 with last_hardfork := n }.CountOk a := by
  have hold := h a
  have hvoted : { s1 with last_hardfork := n }.votedFor a = s.votedFor a := by
    simp only [votedFor, hobjects]
  unfold CountOk at *
  rw [hvoted]
  simp only [STEEMIT_MAX_ACCOUNT_WITNESS_VOTES] at *
  subst hn
  by_cases hsix : s.last_hardfork + 1 = 6
  · rw [if_pos (by omega)] at hold
    rw [if_neg (by omega)]
    omega
  · by_cases heq : s.last_hardfork + 1 = 8
    · have hcounted := height heq a
      rw [if_neg (by omega)] at hold
      rw [if_neg (by omega), hcounted]
      omega
    · rw [hcount hsix heq a]
      by_cases hlt : s.last_hardfork < 6
      · rw [if_pos hlt] at hold
        rw [if_pos (by omega)]
        exact hold
      · rw [if_neg hlt] at hold
        rw [if_neg (by omega)]
        exact ⟨hold.1, fun h8 => hold.2 (by omega)⟩

end

/-- A new tally of the votes touches neither objects nor counts. -/
theorem SameCounts.retally_witness_votes (h : s.retally_witness_votes = .ok s') :
    SameCounts s s' := by
  have hloop : ∀ (l : List AccountId) (s : State), tallyAccounts l s = .ok s' → SameCounts s s' := by
    intro l
    induction l with
    | nil =>
      intro s h
      cases h
      exact ⟨rfl, rfl, fun _ => rfl⟩
    | cons a rest ih =>
      intro s h
      unfold tallyAccounts at h
      split at h
      · exact ih s h
      · obtain ⟨s1, h₁, h⟩ := bind_ok.1 h
        have hfirst : SameCounts s s1 := by
          rw [adjustAll_spec h₁]
          exact ⟨rfl, rfl, fun _ => rfl⟩
        exact hfirst.trans (ih s1 h)
  have hall := hloop _ _ h
  exact ⟨hall.last_hardfork, hall.objects, hall.counts⟩

theorem CountOk.applyNextHardfork (h : ∀ b, s.CountOk b) (hs : s.applyNextHardfork = .ok s')
    (b : AccountId) : s'.CountOk b := by
  replace hs := ok_of_check hs
  obtain ⟨s1, h₁, hs⟩ := bind_ok.1 hs
  cases hs
  generalize hn : s.last_hardfork + 1 = n at h₁ ⊢
  unfold hardforkChanges at h₁
  split at h₁
  · obtain rfl := Except.ok.inj h₁
    exact CountOk.of_hardfork h (s.perform_vesting_share_split 1000000) hn.symm rfl
      (fun _ _ _ => rfl) (fun h8 => absurd h8 (by decide)) b
  · have hsame := SameCounts.retally_witness_votes h₁
    exact CountOk.of_hardfork h s1 hn.symm hsame.objects (fun _ _ => hsame.counts)
      (fun h8 => absurd h8 (by decide)) b
  · have hsame := SameCounts.retally_witness_votes h₁
    exact CountOk.of_hardfork h s1 hn.symm hsame.objects (fun _ _ => hsame.counts)
      (fun h8 => absurd h8 (by decide)) b
  · obtain rfl := Except.ok.inj h₁
    exact CountOk.of_hardfork h (s.retally_witness_vote_counts false) hn.symm rfl
      (fun hne => absurd rfl hne) (fun h8 => absurd h8 (by decide)) b
  · obtain rfl := Except.ok.inj h₁
    exact CountOk.of_hardfork h (s.retally_witness_vote_counts true) hn.symm rfl
      (fun _ hne => absurd rfl hne) (fun _ a => by simp [retally_witness_vote_counts]) b
  · next h1 h2 h3 h6 h8 =>
    obtain rfl := Except.ok.inj h₁
    exact CountOk.of_hardfork h s hn.symm rfl (fun _ _ _ => rfl) (fun heq => absurd heq h8) b

end State

/-! ## Runs keep the vote tally

Every call keeps `State.Core` (`Call.evaluate_core`), and the counts of votes where no account goes
over the limit while they are wrong (`Call.evaluate_counts`); so runs keep `State.Inv` (`run_inv`).

Between hardforks 6 and 8 the limit on votes is checked against a wrong count, and an account can
go over it.
-/

/-! ## Runs -/

/-- What keeps the limit on votes: while the counts are wrong, between hardforks 6 and 8, accounts
with `STEEMIT_MAX_ACCOUNT_WITNESS_VOTES` vote objects cast no further vote. -/
def Call.Allowed (s : State) : Call → Prop
  | account_witness_vote account _ true => s.VoteAllowed account
  | _ => True

variable {s s' : State}

variable {c : Call}

theorem Call.evaluate_core (h : s.Core) (hsigner : c.signer ≠ some STEEMIT_NULL_ACCOUNT)
    (hs : c.evaluate s = .ok s') : s'.Core := by
  cases c with
  | create_account =>
    cases hs
    exact h.createAccount
  | create_witness =>
    cases hs
    exact h.createWitness
  | create_vesting to_account new_vesting => exact h.addShares hs
  | claim_reward_balance account reward_vests => exact h.addShares hs
  | process_vesting_withdrawal from_account to_withdraw routes => exact h.withdrawVesting hs
  | clear_null_account_balance =>
    cases hs
    exact h.clear_null_account_balance
  | account_witness_proxy account proxy =>
    exact h.account_witness_proxy (fun e => hsigner (congrArg some e)) hs
  | account_witness_vote account witness approve =>
    exact h.account_witness_vote (fun e => hsigner (congrArg some e)) hs
  | decline_voting_rights account =>
    exact h.declineVotingRights (fun e => hsigner (congrArg some e)) hs
  | apply_hardfork => exact h.applyNextHardfork hs

theorem Call.evaluate_counts (hl : s.Links) (h : ∀ b, s.CountOk b) (hallowed : c.Allowed s)
    (hs : c.evaluate s = .ok s') (b : AccountId) : s'.CountOk b := by
  cases c with
  | create_account =>
    cases hs
    exact State.CountOk.createAccount hl h b
  | create_witness =>
    cases hs
    exact (h b).congr rfl rfl rfl
  | create_vesting to_account new_vesting => exact (State.SameCounts.addShares hs).countOk h b
  | claim_reward_balance account reward_vests => exact (State.SameCounts.addShares hs).countOk h b
  | process_vesting_withdrawal from_account to_withdraw routes =>
    exact (State.SameCounts.withdrawVesting hs).countOk h b
  | clear_null_account_balance =>
    cases hs
    exact (State.SameCounts.clear_null_account_balance s).countOk h b
  | account_witness_proxy account proxy => exact State.CountOk.account_witness_proxy hl h hs b
  | account_witness_vote account witness approve =>
    refine State.CountOk.account_witness_vote h ?_ hs b
    rintro rfl
    exact hallowed
  | decline_voting_rights account => exact State.CountOk.declineVotingRights h hs b
  | apply_hardfork => exact State.CountOk.applyNextHardfork h hs b

theorem Call.evaluate_inv (h : s.Inv) (hsigner : c.signer ≠ some STEEMIT_NULL_ACCOUNT)
    (hallowed : c.Allowed s) (hs : c.evaluate s = .ok s') : s'.Inv := by
  have hcore := Call.evaluate_core h.core hsigner hs
  exact ⟨hcore.links, hcore.tallied, Call.evaluate_counts h.links h.counts hallowed hs⟩

theorem run_inv {calls : List Call} (h : s.Inv)
    (hallowed : Along Call.apply Call.Allowed s calls) : (run s calls).Inv := by
  refine runCalls_rule (fun h hallowed hs => ?_) h hallowed
  obtain ⟨hsigner, hs⟩ := check_decide_ok.1 hs
  exact Call.evaluate_inv h hsigner hallowed hs

theorem genesis_inv : genesis.Inv where
  links := {
    nodup := List.nodup_nil
    account_lt := nofun
    no_proxy := nofun
    witness_lt := nofun
    can_vote := nofun
    acyclic := fun x k => by
      rw [ancestor_succ_left]
      exact nofun
    proxy_lt := nofun
    fresh_proxy := fun _ => rfl
    fresh_shares := fun _ => rfl
    null_lt := by decide
    null_proxy := rfl
    null_votes := nofun }
  tallied := by
    have hroots : ∀ x y, genesis.proxyOf y ≠ some x := fun _ _ => nofun
    exact ⟨fun x k _ => (level_of_no_child (hroots x) k).symm,
      fun _ w => (Finset.sum_eq_zero fun x _ => if_neg nofun).symm⟩
  counts a := by
    unfold State.CountOk
    rw [if_pos (by decide)]
    exact ⟨Nat.zero_le _, Nat.zero_le _⟩

/-- The vote tally, in the terms of the tables. -/
structure State.TallyOk (s : State) : Prop where
  acyclic : ∀ a k, ancestor s.proxyOf (k + 1) a ≠ some a
  proxied : ∀ p < s.num_accounts, ∀ k < STEEMIT_MAX_PROXY_RECURSION_DEPTH,
    (s.accounts p).proxied_vsf_votes k =
      ∑ x ∈ Finset.range s.num_accounts with ancestor s.proxyOf (k + 1) x = some p,
        (s.accounts x).vesting_shares
  no_votes : ∀ a w, s.proxyOf a ≠ none ∨ (s.accounts a).can_vote = false →
    (a, w) ∉ s.witness_votes
  counts : ∀ a < s.num_accounts, (s.accounts a).witnesses_voted_for = (s.votedFor a).length ∧
    (s.accounts a).witnesses_voted_for ≤ STEEMIT_MAX_ACCOUNT_WITNESS_VOTES
  votes : ∀ w < s.num_witnesses, s.votes w =
    ∑ a ∈ Finset.range s.num_accounts with (a, w) ∈ s.witness_votes,
      (s.accounts a).witness_vote_weight

theorem State.Inv.tallyOk (h : s.Inv) (hall : s.last_hardfork = STEEMIT_NUM_HARDFORKS) :
    s.TallyOk where
  acyclic := h.links.acyclic
  proxied p _ k hk := by
    rw [h.tallied.proxied p k hk, Finset.sum_filter]
    rfl
  no_votes a w hno hm := by
    rcases hno with hproxy | hcan
    · exact hproxy (h.links.no_proxy hm)
    · exact absurd (h.links.can_vote hm) (by rw [hcan]; decide)
  counts a _ := by
    have hcount := h.counts a
    unfold State.CountOk at hcount
    rw [hall, if_neg (by decide)] at hcount
    have heq := hcount.2 (by decide)
    exact ⟨heq, heq ▸ hcount.1⟩
  votes w _ := by
    rw [h.tallied.votes (by rw [hall]; decide) w, Finset.sum_filter]
    refine Finset.sum_congr rfl fun x hx => ?_
    rw [h.core.weight_eq (Finset.mem_range.1 hx)]

/-- With all hardforks applied, in every state that a run from genesis reaches in which no account
goes over the limit between hardforks 6 and 8, the vote tally is right. -/
theorem run_tallyOk (calls : List Call)
    (hallowed : Along Call.apply Call.Allowed genesis calls)
    (hall : (run genesis calls).last_hardfork = STEEMIT_NUM_HARDFORKS) :
    (run genesis calls).TallyOk :=
  (run_inv genesis_inv hallowed).tallyOk hall

instance (s : State) (a : AccountId) : Decidable (s.VoteAllowed a) :=
  inferInstanceAs (Decidable (_ → _))

instance (s : State) : (c : Call) → Decidable (c.Allowed s)
  | .account_witness_vote account _ true => inferInstanceAs (Decidable (s.VoteAllowed account))
  | .account_witness_vote _ _ false => isTrue trivial
  | .create_account => isTrue trivial
  | .create_witness => isTrue trivial
  | .create_vesting .. => isTrue trivial
  | .claim_reward_balance .. => isTrue trivial
  | .process_vesting_withdrawal .. => isTrue trivial
  | .clear_null_account_balance => isTrue trivial
  | .account_witness_proxy .. => isTrue trivial
  | .decline_voting_rights _ => isTrue trivial
  | .apply_hardfork => isTrue trivial

/-- All hardforks, then shares for the accounts 2 and 3, a proxy from 2 to 3 and a vote of 3. -/
def proxiedVote : List Call :=
  List.replicate STEEMIT_NUM_HARDFORKS Call.apply_hardfork ++
    [Call.create_vesting 2 5, .create_vesting 3 10, .account_witness_proxy 2 (some 3),
      .account_witness_vote 3 0 true]

theorem run_tallyOk_proxiedVote :
    (run genesis proxiedVote).votes 0 = 15 ∧ (run genesis proxiedVote).TallyOk :=
  ⟨by decide +kernel, run_tallyOk proxiedVote (by decide +kernel) (by decide +kernel)⟩

/-- Thirty votes after hardfork 5, one more after hardfork 6, then the other hardforks. -/
def votesAcrossHardforkSix : List Call :=
  List.replicate 30 Call.create_witness ++ List.replicate 5 Call.apply_hardfork ++
    (List.range 30).map (fun w : ℕ => Call.account_witness_vote 3 w true) ++
    [Call.apply_hardfork, .account_witness_vote 3 30 true] ++ List.replicate 13 Call.apply_hardfork

theorem hardfork_six_exceeds_limit :
    (run genesis votesAcrossHardforkSix).last_hardfork = STEEMIT_NUM_HARDFORKS ∧
      ¬ (run genesis votesAcrossHardforkSix).TallyOk :=
  ⟨by decide +kernel, fun h => absurd (h.counts 3 (by decide +kernel)).2 (by decide +kernel)⟩

end Calibrd.Chain.WitnessVotes
