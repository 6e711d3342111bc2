import Calibrd.Protocol.SignState

/-!
# `verify_authority`

A transaction that requires posting authorities may require nothing else; accounts then stand for each
other by their posting authorities. Otherwise the authorities that come with the operations are checked
first, then the accounts with their active and then with their owner authority, and accounts stand for
each other by their active authorities. A stronger authority of an account itself will do as well.
`Authorized` says what has to be derivable for that.
-/

namespace Calibrd.Protocol

open Calibrd.Lib SignState

variable {D : DataType → Type} {K : Type} {get : AuthorityGetter K} {counts : Authority K → Prop}

/-- One of the authorities that the getters have for the account counts. -/
def Stands (getters : List (AuthorityGetter K)) (counts : Authority K → Prop) (id : AccountName) :
    Prop :=
  ∃ get ∈ getters, ∃ auth, get id.toString = some auth ∧ counts auth

theorem stands_cons {getters : List (AuthorityGetter K)}
    {id : AccountName} : Stands (get :: getters) counts id ↔
      (∃ auth, get id.toString = some auth ∧ counts auth) ∨ Stands getters counts id :=
  List.exists_mem_cons_iff _ _ _

theorem stands_singleton {id : AccountName} :
    Stands [get] counts id ↔ ∃ auth, get id.toString = some auth ∧ counts auth :=
  stands_cons.trans (or_iff_left nofun)

/-- An account that is approved, or whose authority counts, or that has another one that does. -/
theorem or_stands_cons {P : Prop} {getters : List (AuthorityGetter K)}
    {id : AccountName} : P ∨ Stands (get :: getters) counts id ↔
      (P ∨ ∃ auth, get id.toString = some auth ∧ counts auth) ∨ Stands getters counts id := by
  rw [stands_cons, or_assoc]

variable [LinearOrder K] (v : FieldValues D K)
  (sigs : List K) (get_active get_owner get_posting : AuthorityGetter K) (max_recursion_depth : ℕ)
  (active_approvals owner_approvals posting_approvals : List AccountName)

/-- The condition on an account whose posting authority is required. -/
def posting_check (check : Authority K → Check K) (id : AccountName) : Check K :=
  orElse (check_authority_id get_posting check id)
    (orElse (check_authority_of get_active check id) (check_authority_of get_owner check id))

def active_check (check : Authority K → Check K) (id : AccountName) : Check K :=
  orElse (check_authority_id get_active check id) (check_authority_of get_owner check id)

def owner_check (check : Authority K → Check K) (id : AccountName) : Check K :=
  orElse (fun s => .ok (decide (id ∈ owner_approvals), s)) (check_authority_of get_owner check id)

/-- The branch for posting authorities. -/
def verify_posting_authority (required_posting : List AccountName) :
    Except (VerifyError K) Unit := do
  let check := check_authority get_posting [] max_recursion_depth
  let s ← requireAll .tx_missing_posting_auth (posting_check get_active get_owner get_posting check)
    required_posting ((init sigs).approve posting_approvals)
  Lib.check (!s.remove_unused_signatures.1) .tx_irrelevant_sig

/-- The branch for the other authorities. -/
def verify_active_authority (required_active required_owner : List AccountName)
    (other : List (Authority K)) : Except (VerifyError K) Unit := do
  let check := check_authority get_active [] max_recursion_depth
  let s ← requireAll .tx_missing_other_auth check other
    (((init sigs).approve active_approvals).approve owner_approvals)
  let s ← requireAll .tx_missing_active_auth (active_check get_active get_owner check) required_active s
  let s ← requireAll .tx_missing_owner_auth (owner_check get_owner owner_approvals check)
    required_owner s
  Lib.check (!s.remove_unused_signatures.1) .tx_irrelevant_sig

/-- The argument `allow_committe` is not used. -/
def verify_authority (ops : List (Operation D)) : Except (VerifyError K) Unit := do
  let required := get_required_authorities v ops
  if required.posting.keys ≠ [] then
    Lib.check (decide (required.active.keys = [])) (.assert_exception "required_active.size() == 0")
    Lib.check (decide (required.owner.keys = [])) (.assert_exception "required_owner.size() == 0")
    Lib.check (decide (required.other = [])) (.assert_exception "other.size() == 0")
    verify_posting_authority sigs get_active get_owner get_posting max_recursion_depth
      posting_approvals required.posting.keys
  else
    verify_active_authority sigs get_active get_owner max_recursion_depth active_approvals
      owner_approvals required.active.keys required.owner.keys required.other

/-! ## What has to be derivable -/

/-- The names that are approved from the start. -/
def ApprovedName (ids : List AccountName) (name : List Byte) : Prop :=
  name = temp ∨ ∃ id ∈ ids, id.toString = name

/-- The accounts and authorities that the operations require, by the authorities that count: `counts`
gives them for a getter by which accounts stand for each other and the names approved from the start. -/
structure Authorized (counts : AuthorityGetter K → (List Byte → Prop) → Authority K → Prop)
    (ops : List (Operation D)) : Prop where
  posting : ∀ op ∈ ops, ∀ id ∈ Operation.get_required_posting_authorities op.1 op.2,
    ApprovedName posting_approvals id.toString ∨ Stands [get_posting, get_active, get_owner]
      (counts get_posting (ApprovedName posting_approvals)) id
  active : ∀ op ∈ ops, ∀ id ∈ Operation.get_required_active_authorities v op.1 op.2,
    ApprovedName (active_approvals ++ owner_approvals) id.toString ∨ Stands [get_active, get_owner]
      (counts get_active (ApprovedName (active_approvals ++ owner_approvals))) id
  owner : ∀ op ∈ ops, ∀ id ∈ Operation.get_required_owner_authorities v op.1 op.2,
    id ∈ owner_approvals ∨ Stands [get_owner]
      (counts get_active (ApprovedName (active_approvals ++ owner_approvals))) id
  other : ∀ op ∈ ops, ∀ auth ∈ Operation.get_required_authorities v op.1 op.2,
    counts get_active (ApprovedName (active_approvals ++ owner_approvals)) auth

/-- No sum of weights overflows. -/
structure WeightsFit (ops : List (Operation D)) : Prop where
  active : ∀ name auth, get_active name = some auth → auth.totalWeight < 2 ^ 32
  owner : ∀ name auth, get_owner name = some auth → auth.totalWeight < 2 ^ 32
  posting : ∀ name auth, get_posting name = some auth → auth.totalWeight < 2 ^ 32
  other : ∀ op ∈ ops, ∀ auth ∈ Operation.get_required_authorities v op.1 op.2,
    auth.totalWeight < 2 ^ 32

/-! ## The initial state -/

theorem contains_init {k : K} {sigs : List K} :
    (init sigs).provided_signatures.contains k = true ↔ k ∈ sigs := by
  suffices ∀ m : OrdMap K Bool, ((sigs.foldl (fun m key => m.insert key false) m).contains k = true ↔
      m.contains k = true ∨ k ∈ sigs) from
    (this .empty).trans (or_iff_right nofun)
  induction sigs with
  | nil => simp
  | cons key sigs ih =>
    intro m
    rw [List.foldl_cons, ih, List.mem_cons, OrdMap.contains_iff, OrdMap.contains_iff]
    by_cases h : key = k
    · subst h
      simp
    · rw [OrdMap.find?_insert_ne _ _ h]
      simp [Ne.symm h]

variable {ids : List AccountName}

theorem provided_approve : ∀ {s : SignState K},
    (s.approve ids).provided_signatures = s.provided_signatures := by
  induction ids with
  | nil => exact rfl
  | cons id ids ih => exact ih

theorem mem_approve {name : List Byte} : ∀ {s : SignState K},
    name ∈ (s.approve ids).approved_by ↔ (∃ id ∈ ids, id.toString = name) ∨ name ∈ s.approved_by := by
  induction ids with
  | nil => simp [approve]
  | cons id ids ih =>
    intro s
    refine ih.trans ?_
    rw [List.mem_cons, List.exists_mem_cons_iff, eq_comm (a := name), or_left_comm, or_assoc]

/-- A state whose keys are those that signed and whose cache holds the approved names. -/
theorem valid_of_approved {approved : List Byte → Prop} {s : SignState K}
    (hkeys : ∀ k, s.provided_signatures.contains k = true ↔ k ∈ sigs)
    (happroved : ∀ name, name ∈ s.approved_by ↔ approved name) :
    Valid get [] (· ∈ sigs) approved s where
  signed_iff k := (or_iff_left (List.not_mem_nil)).trans (hkeys k)
  approved_mem name := (happroved name).2
  derives name h := ⟨0, (happroved name).1 h⟩

theorem valid_posting : Valid get_posting [] (· ∈ sigs) (ApprovedName posting_approvals)
    ((init sigs).approve posting_approvals) := by
  refine valid_of_approved sigs (fun k => ?_) fun name => ?_
  · rw [provided_approve, contains_init]
  · rw [mem_approve, init, List.mem_singleton, or_comm]
    exact Iff.rfl

theorem valid_active :
    Valid get_active [] (· ∈ sigs) (ApprovedName (active_approvals ++ owner_approvals))
      (((init sigs).approve active_approvals).approve owner_approvals) := by
  refine valid_of_approved sigs (fun k => ?_) fun name => ?_
  · rw [provided_approve, provided_approve, contains_init]
  · rw [mem_approve, mem_approve, init, List.mem_singleton, ApprovedName]
    simp only [List.mem_append, or_and_right, exists_or, or_comm, or_assoc]

/-! ## Soundness and completeness -/

section Branches

variable {v sigs get_active get_owner get_posting max_recursion_depth active_approvals
  owner_approvals posting_approvals} {ops : List (Operation D)}

variable {get get' : AuthorityGetter K} {n : ℕ} {approved : List Byte → Prop}
  {check : Authority K → Check K}

/-- The check decides, for every authority, whether it can be derived. -/
def DecidesAll (get : AuthorityGetter K) (sigs : List K) (approved : List Byte → Prop) (n : ℕ)
    (check : Authority K → Check K) : Prop :=
  ∀ auth, auth.totalWeight < 2 ^ 32 → Decides get [] (· ∈ sigs) approved (check auth)
    (get.DerivableWithin (· ∈ sigs) approved n auth) (get.Derivable (· ∈ sigs) approved auth)

theorem DecidesAll.of (h : DecidesAll get sigs approved n check)
    (hw : ∀ name auth, get' name = some auth → auth.totalWeight < 2 ^ 32) (id : AccountName) :
    Decides get [] (· ∈ sigs) approved (check_authority_of get' check id)
      (Stands [get'] (get.DerivableWithin (· ∈ sigs) approved n) id)
      (Stands [get'] (get.Derivable (· ∈ sigs) approved) id) :=
  (check_authority_of_decides (fun a auth ha => h auth (hw a auth ha)) id).imp
    stands_singleton.1 stands_singleton.2

section

variable (hw : WeightsFit v get_active get_owner get_posting ops)

include hw

theorem posting_check_decides
    (h : DecidesAll get_posting sigs approved n check) (id : AccountName) :
    Decides get_posting [] (· ∈ sigs) approved
      (posting_check get_active get_owner get_posting check id)
      (approved id.toString ∨ Stands [get_posting, get_active, get_owner]
        (get_posting.DerivableWithin (· ∈ sigs) approved n) id)
      (approved id.toString ∨ Stands [get_posting, get_active, get_owner]
        (get_posting.Derivable (· ∈ sigs) approved) id) := by
  have hid := check_authority_id_decides (fun a auth ha => h auth (hw.posting a auth ha)) id
  have hactive := check_authority_of_decides (fun a auth ha => h auth (hw.active a auth ha)) id
  have hstronger := (hactive.orElse (h.of hw.owner id)).imp stands_cons.1 stands_cons.2
  exact (hid.orElse hstronger).imp or_stands_cons.1 or_stands_cons.2

theorem active_check_decides (h : DecidesAll get_active sigs approved n check) (id : AccountName) :
    Decides get_active [] (· ∈ sigs) approved (active_check get_active get_owner check id)
      (approved id.toString ∨ Stands [get_active, get_owner]
        (get_active.DerivableWithin (· ∈ sigs) approved n) id)
      (approved id.toString ∨ Stands [get_active, get_owner]
        (get_active.Derivable (· ∈ sigs) approved) id) := by
  have hid := check_authority_id_decides (fun a auth ha => h auth (hw.active a auth ha)) id
  exact (hid.orElse (h.of hw.owner id)).imp or_stands_cons.1 or_stands_cons.2

theorem owner_check_decides (h : DecidesAll get_active sigs approved n check) (id : AccountName) :
    Decides get_active [] (· ∈ sigs) approved (owner_check get_owner owner_approvals check id)
      (id ∈ owner_approvals ∨ Stands [get_owner] (get_active.DerivableWithin (· ∈ sigs) approved n) id)
      (id ∈ owner_approvals ∨ Stands [get_owner] (get_active.Derivable (· ∈ sigs) approved) id) := by
  refine Decides.orElse ⟨fun hs hr => ?_, fun s => .ok _⟩ (h.of hw.owner id)
  cases hr
  exact ⟨hs, of_decide_eq_true, of_decide_eq_false⟩

theorem verify_posting_authority_ok
    (h : verify_posting_authority sigs get_active get_owner get_posting max_recursion_depth
      posting_approvals ids = .ok ()) :
    ∀ id ∈ ids, ApprovedName posting_approvals id.toString ∨
      Stands [get_posting, get_active, get_owner]
        (get_posting.Derivable (· ∈ sigs) (ApprovedName posting_approvals)) id := by
  obtain ⟨s, hs, -⟩ := bind_ok.1 h
  exact (requireAll_ok (fun id _ => posting_check_decides hw
    (check_authority_decides hw.posting max_recursion_depth) id) (valid_posting _ _ _) hs).2

theorem verify_posting_authority_throws
    (h : ∀ id ∈ ids, ApprovedName posting_approvals id.toString ∨
      Stands [get_posting, get_active, get_owner] (get_posting.DerivableWithin (· ∈ sigs)
        (ApprovedName posting_approvals) max_recursion_depth) id) :
    Throws (verify_posting_authority sigs get_active get_owner get_posting max_recursion_depth
      posting_approvals ids) fun e => e.isMissing = false := by
  refine Throws.bind ?_ fun s _ => ?_
  · exact requireAll_throws (fun id _ => posting_check_decides hw
      (check_authority_decides hw.posting max_recursion_depth) id) h (valid_posting _ _ _)
  · exact Throws.of_check fun _ => rfl

end

section Active

variable {required_active required_owner : List AccountName} {other : List (Authority K)}

theorem verify_active_authority_ok (hw : WeightsFit v get_active get_owner get_posting ops)
    (hother : ∀ auth ∈ other, auth.totalWeight < 2 ^ 32)
    (happroved : approved = ApprovedName (active_approvals ++ owner_approvals))
    (h : verify_active_authority sigs get_active get_owner max_recursion_depth active_approvals
      owner_approvals required_active required_owner other = .ok ()) :
    (∀ auth ∈ other, get_active.Derivable (· ∈ sigs) approved auth) ∧
    (∀ id ∈ required_active, approved id.toString ∨
      Stands [get_active, get_owner] (get_active.Derivable (· ∈ sigs) approved) id) ∧
    ∀ id ∈ required_owner, id ∈ owner_approvals ∨
      Stands [get_owner] (get_active.Derivable (· ∈ sigs) approved) id := by
  subst happroved
  have hcheck : DecidesAll get_active sigs (ApprovedName (active_approvals ++ owner_approvals))
      max_recursion_depth _ := check_authority_decides hw.active max_recursion_depth
  obtain ⟨s1, hs1, h⟩ := bind_ok.1 h
  obtain ⟨s2, hs2, h⟩ := bind_ok.1 h
  obtain ⟨s3, hs3, -⟩ := bind_ok.1 h
  obtain ⟨hv1, h₁⟩ := requireAll_ok (fun auth ha => hcheck auth (hother auth ha))
    (valid_active _ _ _ _) hs1
  obtain ⟨hv2, h₂⟩ := requireAll_ok (fun id _ => active_check_decides hw hcheck id) hv1 hs2
  obtain ⟨-, h₃⟩ := requireAll_ok (fun id _ => owner_check_decides hw hcheck id) hv2 hs3
  exact ⟨h₁, h₂, h₃⟩

theorem verify_active_authority_throws (hw : WeightsFit v get_active get_owner get_posting ops)
    (hother : ∀ auth ∈ other, auth.totalWeight < 2 ^ 32)
    (happroved : approved = ApprovedName (active_approvals ++ owner_approvals))
    (h₁ : ∀ auth ∈ other,
      get_active.DerivableWithin (· ∈ sigs) approved max_recursion_depth auth)
    (h₂ : ∀ id ∈ required_active, approved id.toString ∨ Stands [get_active, get_owner]
      (get_active.DerivableWithin (· ∈ sigs) approved max_recursion_depth) id)
    (h₃ : ∀ id ∈ required_owner, id ∈ owner_approvals ∨ Stands [get_owner]
      (get_active.DerivableWithin (· ∈ sigs) approved max_recursion_depth) id) :
    Throws (verify_active_authority sigs get_active get_owner max_recursion_depth active_approvals
      owner_approvals required_active required_owner other) fun e => e.isMissing = false := by
  subst happroved
  have hcheck : DecidesAll get_active sigs (ApprovedName (active_approvals ++ owner_approvals))
      max_recursion_depth _ := check_authority_decides hw.active max_recursion_depth
  have hd1 := fun auth ha => hcheck auth (hother auth ha)
  have hd2 := fun id (_ : id ∈ required_active) => active_check_decides hw hcheck id
  have hv := valid_active sigs get_active active_approvals owner_approvals
  refine Throws.bind (requireAll_throws hd1 h₁ hv) fun s1 hs1 => ?_
  have hv1 := (requireAll_ok hd1 hv hs1).1
  refine Throws.bind (requireAll_throws hd2 h₂ hv1) fun s2 hs2 => ?_
  have hv2 := (requireAll_ok hd2 hv1 hs2).1
  refine Throws.bind ?_ fun s3 _ => Throws.of_check fun _ => rfl
  exact requireAll_throws (fun id _ => owner_check_decides hw hcheck id) h₃ hv2

end Active

end Branches

/-- A transaction that is accepted has derivations for all it requires, and one whose derivations are
nested at most `max_recursion_depth` deep is not rejected for a missing authority. -/
theorem verify_authority_derivable (ops : List (Operation D))
    (hw : WeightsFit v get_active get_owner get_posting ops) :
    (verify_authority v sigs get_active get_owner get_posting max_recursion_depth active_approvals
        owner_approvals posting_approvals ops = .ok () →
      Authorized v get_active get_owner get_posting active_approvals owner_approvals
        posting_approvals (fun get approved => get.Derivable (· ∈ sigs) approved) ops) ∧
    (Authorized v get_active get_owner get_posting active_approvals owner_approvals
        posting_approvals
        (fun get approved => get.DerivableWithin (· ∈ sigs) approved max_recursion_depth) ops →
      ∀ e, verify_authority v sigs get_active get_owner get_posting max_recursion_depth
        active_approvals owner_approvals posting_approvals ops = .error e → e.isMissing = false) := by
  have hother : ∀ auth ∈ (get_required_authorities v ops).other, auth.totalWeight < 2 ^ 32 := by
    intro auth ha
    obtain ⟨op, hop, ha⟩ := mem_required_other.1 ha
    exact hw.other op hop auth ha
  unfold verify_authority
  constructor
  · intro h
    dsimp only at h
    split at h
    · obtain ⟨hactive, h⟩ := check_bind_ok.1 h
      obtain ⟨howner, h⟩ := check_bind_ok.1 h
      obtain ⟨hnone, h⟩ := check_bind_ok.1 h
      have hposting := verify_posting_authority_ok hw h
      rw [decide_eq_true_eq] at hactive howner hnone
      refine ⟨fun op hop id hid => hposting id (mem_required_posting.2 ⟨op, hop, hid⟩),
        fun op hop id hid => ?_, fun op hop id hid => ?_, fun op hop auth ha => ?_⟩
      · have hmem := mem_required_active.2 ⟨op, hop, hid⟩
        rw [hactive] at hmem
        cases hmem
      · have hmem := mem_required_owner.2 ⟨op, hop, hid⟩
        rw [howner] at hmem
        cases hmem
      · have hmem := mem_required_other.2 ⟨op, hop, ha⟩
        rw [hnone] at hmem
        cases hmem
    · next hempty =>
      obtain ⟨h₁, h₂, h₃⟩ := verify_active_authority_ok hw hother rfl h
      refine ⟨fun op hop id hid => ?_, fun op hop id hid => h₂ id (mem_required_active.2 ⟨op, hop, hid⟩),
        fun op hop id hid => h₃ id (mem_required_owner.2 ⟨op, hop, hid⟩),
        fun op hop auth ha => h₁ auth (mem_required_other.2 ⟨op, hop, ha⟩)⟩
      have hmem := mem_required_posting (v := v).2 ⟨op, hop, hid⟩
      rw [not_not.1 hempty] at hmem
      cases hmem
  · intro h
    change Throws _ fun e : VerifyError K => e.isMissing = false
    dsimp only
    split
    · refine Throws.check_bind (fun _ => rfl) (Throws.check_bind (fun _ => rfl)
        (Throws.check_bind (fun _ => rfl) ?_))
      refine verify_posting_authority_throws hw fun id hid => ?_
      obtain ⟨op, hop, hid⟩ := mem_required_posting.1 hid
      exact h.posting op hop id hid
    · refine verify_active_authority_throws hw hother rfl (fun auth ha => ?_) (fun id hid => ?_)
        fun id hid => ?_
      · obtain ⟨op, hop, ha⟩ := mem_required_other.1 ha
        exact h.other op hop auth ha
      · obtain ⟨op, hop, hid⟩ := mem_required_active.1 hid
        exact h.active op hop id hid
      · obtain ⟨op, hop, hid⟩ := mem_required_owner.1 hid
        exact h.owner op hop id hid

/-- Plain values for the fields of operations. -/
abbrev PlainData : DataType → Type
  | .bool => Bool
  | .key_authority_map => List (ℕ × ℕ)
  | _ => ℕ

def plainValues : FieldValues PlainData ℕ := ⟨id, id, id, id, id, id⟩

/-- Two accounts that name each other: `alice` needs a key and `bob`, and for `bob` a key will do. -/
def circularAuthorities : AuthorityGetter ℕ := fun name =>
  if name = ofAscii "alice" then some ⟨2, [(.ofString (ofAscii "bob"), 1)], [(1, 1)]⟩
  else if name = ofAscii "bob" then some ⟨1, [(.ofString (ofAscii "alice"), 1)], [(2, 1)]⟩
  else none

theorem circularAuthorities_fit {name : List Byte} {auth : Authority ℕ}
    (h : circularAuthorities name = some auth) : auth.totalWeight < 2 ^ 32 := by
  unfold circularAuthorities at h
  split at h
  · cases h
    decide
  · split at h
    · cases h
      decide
    · cases h

def transferFromAlice : Operation PlainData :=
  ⟨.transfer, (.ofString (ofAscii "alice"), .ofString (ofAscii "carol"), Symbol.STEEM.code, (0 : ℕ), ())⟩

theorem verify_authority_derivable_circular :
    verify_authority plainValues [1, 2] circularAuthorities circularAuthorities circularAuthorities
      2 [] [] [] [transferFromAlice] = .ok () ∧
    Authorized plainValues circularAuthorities circularAuthorities circularAuthorities [] [] []
      (fun get approved => get.Derivable (· ∈ [1, 2]) approved) [transferFromAlice] := by
  have hok : verify_authority plainValues [1, 2] circularAuthorities circularAuthorities
      circularAuthorities 2 [] [] [] [transferFromAlice] = .ok () := by decide +kernel
  refine ⟨hok, (verify_authority_derivable plainValues [1, 2] _ _ _ 2 [] [] [] [transferFromAlice]
    ⟨fun _ _ => circularAuthorities_fit, fun _ _ => circularAuthorities_fit,
      fun _ _ => circularAuthorities_fit, ?_⟩).1 hok⟩
  intro op hop auth ha
  rw [List.mem_singleton.1 hop] at ha
  cases ha

end Calibrd.Protocol
