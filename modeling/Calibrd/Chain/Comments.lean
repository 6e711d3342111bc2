import Calibrd.Chain.Config
import Calibrd.Lib.Check
import Calibrd.Lib.OrdMap
import Calibrd.Lib.Runs

/-!
# The comment tree

The evaluators of `comment` and `delete_comment` and `retally_comment_children`, with the writes of
voting and payout to the fields that they read. Titles, bodies and metadata are left out except for
their sizes. A name is the number that it is stored as, `0` is the empty one
(`STEEMIT_ROOT_POST_PARENT`). The node is built without `IS_LOW_MEM`.

`TreeOk` says what the fields of a comment are for. The constructor of a comment does not write the
parent, depth and root of the new comment, so `TreeOk` fails as soon as there is a comment
(`run_treeOk_iff`). For the same reason an edit is compared with an empty parent, and not with the
one that the comment was created with (`run_editExact_iff`).
-/

namespace Calibrd.Chain.Comments

open Calibrd.Lib

abbrev CommentId := ℕ

abbrev Permlink := List Char

def STEEMIT_ROOT_POST_PARENT : AccountName := 0

def STEEMIT_MIN_PERMLINK_LENGTH : ℕ := 0

def STEEMIT_MAX_PERMLINK_LENGTH : ℕ := 256

def STEEMIT_MAX_COMMENT_DEPTH : ℕ := 65535

def STEEMIT_MIN_ROOT_COMMENT_INTERVAL : ℕ := 60 * 5

def STEEMIT_POST_AVERAGE_WINDOW : ℕ := 60 * 60 * 24

def STEEMIT_POST_MAX_BANDWIDTH : ℕ := 4 * STEEMIT_100_PERCENT

def STEEMIT_POST_WEIGHT_CONSTANT : ℕ := STEEMIT_POST_MAX_BANDWIDTH * STEEMIT_POST_MAX_BANDWIDTH

/-- The fields of `account_object` that posting reads and writes. -/
structure Account where
  owner_challenged : Bool := false
  active_challenged : Bool := false
  last_root_post : ℕ := 0
  last_post : ℕ := 0
  post_bandwidth : ℕ := 0
  post_count : ℕ := 0
deriving DecidableEq, Repr

/-- `comment_object`. The last field is not stored: it is the parent that the operation named which
created the comment. -/
structure Comment where
  author : AccountName
  permlink : Permlink
  category : Permlink := []
  parent_author : AccountName := STEEMIT_ROOT_POST_PARENT
  parent_permlink : Permlink := []
  depth : ℕ := 0
  children : ℕ := 0
  root_comment : CommentId := 0
  last_update : ℕ
  created : ℕ
  active : ℕ
  cashout_time : ℕ
  reward_weight : ℕ
  net_rshares : ℤ := 0
  allow_replies : Bool := true
  origin : AccountName × Permlink
deriving DecidableEq, Repr

structure State where
  accounts : OrdMap AccountName Account
  comments : OrdMap CommentId Comment := .empty
  next_id : CommentId := 0
  head_block_time : ℕ

inductive Error where
  | nothing_changes
  | unknown_account
  | account_exists
  | challenged
  | unknown_comment
  | too_deep
  | metadata_not_utf8
  | replies_disabled
  | discussion_frozen
  | posted_too_soon
  | permlink_size
  | permlink_character
  | parent_changed
  | permlink_changed
  | has_replies
  | paid_out
  | positive_votes
  | endless_chain
deriving DecidableEq, Repr

abbrev Result := Except Error

/-- The part of a string that `strcmp` compares. -/
def cString (l : Permlink) : Permlink := l.takeWhile (· != '\x00')

/-- `strcmp_equal`: strings of the same size are equal as well. -/
def strcmpEqual (a b : Permlink) : Bool := a.length == b.length || cString a == cString b

def isPermlinkChar (c : Char) : Bool :=
  ('a' ≤ c && c ≤ 'z') || ('0' ≤ c && c ≤ '9') || c == '-'

def validate_permlink_0_1 (permlink : Permlink) : Result Unit := do
  check (STEEMIT_MIN_PERMLINK_LENGTH < permlink.length &&
    permlink.length < STEEMIT_MAX_PERMLINK_LENGTH) .permlink_size
  check (permlink.all isPermlinkChar) .permlink_character

namespace State

variable (s : State)

/-- The row of `by_permlink`. -/
def find_comment (author : AccountName) (permlink : Permlink) : Option (CommentId × Comment) :=
  s.comments.rows.find? fun r => r.2.author == author && cString r.2.permlink == cString permlink

def get_comment (author : AccountName) (permlink : Permlink) : Result (CommentId × Comment) :=
  match s.find_comment author permlink with
  | some r => .ok r
  | none => .error .unknown_comment

/-- The comment with the id. -/
def get (id : CommentId) : Result Comment :=
  match s.comments.find? id with
  | some c => .ok c
  | none => .error .unknown_comment

def get_account (name : AccountName) : Result Account :=
  match s.accounts.find? name with
  | some a => .ok a
  | none => .error .unknown_account

def modifyComment (id : CommentId) (f : Comment → Comment) : State :=
  match s.comments.find? id with
  | some c => { s with comments := s.comments.insert id (f c) }
  | none => s

end State

/-- `++` of a `uint32_t`. -/
def increment (n : ℕ) : ℕ := (n + 1) % 2 ^ 32

/-- `--` of a `uint32_t`. -/
def decrement (n : ℕ) : ℕ := (n + (2 ^ 32 - 1)) % 2 ^ 32

def Comment.addChild (now : ℕ) (c : Comment) : Comment :=
  { c with children := increment c.children, active := now }

def Comment.dropChild (now : ℕ) (c : Comment) : Comment :=
  { c with children := decrement c.children, active := now }

/-- The loop that goes up from a comment to its root, for at most `fuel` comments. -/
def forAncestors (f : Comment → Comment) : ℕ → CommentId × Comment → State → Result State
  | 0, _, _ => .error .endless_chain
  | fuel + 1, (id, c), s =>
    let s := s.modifyComment id f
    if c.parent_author == STEEMIT_ROOT_POST_PARENT then .ok s
    else
      match s.get_comment c.parent_author c.parent_permlink with
      | .ok parent => forAncestors f fuel parent s
      | .error e => .error e

/-- A chain of distinct comments is not longer than the table. -/
def State.forAncestors (s : State) (f : Comment → Comment) (r : CommentId × Comment) :
    Result State :=
  Comments.forAncestors f (s.comments.rows.length + 1) r s

structure CommentOperation where
  parent_author : AccountName
  parent_permlink : Permlink
  author : AccountName
  permlink : Permlink
  title_size : ℕ
  body_size : ℕ
  json_size : ℕ
  json_is_utf8 : Bool
deriving DecidableEq, Repr

/-- The parent that the operation names; it exists unless the comment is a root post. -/
def CommentOperation.parent (s : State) (o : CommentOperation) :
    Result (Option (CommentId × Comment)) :=
  if o.parent_author == STEEMIT_ROOT_POST_PARENT then .ok none
  else do
    let parent ← s.get_comment o.parent_author o.parent_permlink
    check (parent.2.depth < STEEMIT_MAX_COMMENT_DEPTH) .too_deep
    return some parent

variable (s : State)

/-- What posting requires of the parent, or of the time since the last root post. -/
def mayPost (auth : Account) : Option (CommentId × Comment) → Result Unit
  | some parent => do
    let root ← s.get parent.2.root_comment
    check root.allow_replies .replies_disabled
    -- `calculate_discussion_payout_time`
    check (parent.2.cashout_time != MAXIMUM_TIME) .discussion_frozen
  | none => check (STEEMIT_MIN_ROOT_COMMENT_INTERVAL < s.head_block_time - auth.last_root_post)
      .posted_too_soon

/-- The bandwidth after a root post. -/
def postBandwidth (now : ℕ) (auth : Account) : ℕ :=
  let post_delta_time := min (now - auth.last_root_post) STEEMIT_POST_AVERAGE_WINDOW
  let old_weight := auth.post_bandwidth * (STEEMIT_POST_AVERAGE_WINDOW - post_delta_time) /
    STEEMIT_POST_AVERAGE_WINDOW % 2 ^ 32
  old_weight + STEEMIT_100_PERCENT

def rewardWeight (post_bandwidth : ℕ) : ℕ :=
  min (STEEMIT_POST_WEIGHT_CONSTANT * STEEMIT_100_PERCENT / (post_bandwidth * post_bandwidth))
    STEEMIT_100_PERCENT

/-- The constructor of a new comment. Parent, category, depth and root keep their defaults. -/
def newComment (now reward_weight : ℕ) (o : CommentOperation) : Comment :=
  { author := o.author
    permlink := o.permlink
    last_update := now
    created := now
    active := now
    cashout_time := now + STEEMIT_CASHOUT_WINDOW_SECONDS
    reward_weight
    origin := (o.parent_author, o.parent_permlink) }

/-- `create` of a comment and `modify` of its author. -/
def State.addComment (author : AccountName) (auth : Account) (c : Comment) : State :=
  { s with
    accounts := s.accounts.insert author auth
    comments := s.comments.insert s.next_id c
    next_id := s.next_id + 1 }

/-- The branch of `comment_evaluator` for a new comment. -/
def createComment (o : CommentOperation) (auth : Account)
    (parent : Option (CommentId × Comment)) : Result State := do
  mayPost s auth parent
  let now := s.head_block_time
  let is_root := o.parent_author == STEEMIT_ROOT_POST_PARENT
  let post_bandwidth := if is_root then postBandwidth now auth else auth.post_bandwidth
  let reward_weight := if is_root then rewardWeight post_bandwidth else STEEMIT_100_PERCENT
  let auth := { auth with
    last_root_post := if is_root then now else auth.last_root_post
    post_bandwidth := if is_root then post_bandwidth % 2 ^ 32 else auth.post_bandwidth
    last_post := now
    post_count := auth.post_count + 1 }
  validate_permlink_0_1 o.parent_permlink
  validate_permlink_0_1 o.permlink
  let s := s.addComment o.author auth (newComment now reward_weight o)
  match parent with
  | some parent => s.forAncestors (Comment.addChild now) parent
  | none => return s

/-- The branch for an existing comment. -/
def editComment (o : CommentOperation) (id : CommentId) (com : Comment) :
    Result State := do
  check (com.parent_author == o.parent_author) .parent_changed
  check (strcmpEqual com.parent_permlink o.parent_permlink) .permlink_changed
  return s.modifyComment id fun c =>
    { c with last_update := s.head_block_time, active := s.head_block_time }

/-- `comment_evaluator`. -/
def comment (o : CommentOperation) : Result State := do
  check (o.title_size + o.body_size + o.json_size != 0) .nothing_changes
  let auth ← s.get_account o.author
  check (!(auth.owner_challenged || auth.active_challenged)) .challenged
  let parent ← o.parent s
  check (o.json_size == 0 || o.json_is_utf8) .metadata_not_utf8
  match s.find_comment o.author o.permlink with
  | none => createComment s o auth parent
  | some (id, com) => editComment s o id com

/-- The loop of `delete_comment_evaluator` over the ancestors. -/
def dropFromAncestors (c : Comment) : Result State :=
  if c.parent_author == STEEMIT_ROOT_POST_PARENT then .ok s
  else do
    let parent ← s.get_comment c.parent_author c.parent_permlink
    s.forAncestors (Comment.dropChild s.head_block_time) parent

/-- `delete_comment_evaluator`. -/
def delete_comment (author : AccountName) (permlink : Permlink) : Result State := do
  let auth ← s.get_account author
  check (!(auth.owner_challenged || auth.active_challenged)) .challenged
  let (id, c) ← s.get_comment author permlink
  check (c.children == 0) .has_replies
  check (c.cashout_time != MAXIMUM_TIME) .paid_out
  check (c.net_rshares ≤ 0) .positive_votes
  let s ← dropFromAncestors s c
  return { s with comments := s.comments.erase id }

/-- One comment of the second loop of `retally_comment_children`. -/
def countChild (r : CommentId × Comment) : Result State :=
  if r.2.parent_author == STEEMIT_ROOT_POST_PARENT then .ok s
  else do
    let parent ← s.get_comment r.2.parent_author r.2.parent_permlink
    s.forAncestors (fun c => { c with children := increment c.children }) parent

def retally_comment_children : Result State :=
  let cleared := s.comments.keys.foldl
    (fun s id => s.modifyComment id fun c => { c with children := 0 }) s
  cleared.comments.rows.foldlM countChild cleared

inductive Call where
  | comment (o : CommentOperation)
  | delete_comment (author : AccountName) (permlink : Permlink)
  | retally_comment_children
  /-- An account is created, or changes in another field. -/
  | account (name : AccountName) (a : Account)
  /-- Votes and payouts. -/
  | vote (id : CommentId) (net_rshares : ℤ)
  | cashout (id : CommentId) (cashout_time : ℕ)
  | time (head_block_time : ℕ)

def Call.apply : Call → Result State
  | comment o => Comments.comment s o
  | delete_comment author permlink => Comments.delete_comment s author permlink
  | retally_comment_children => Comments.retally_comment_children s
  | account name a => .ok { s with accounts := s.accounts.insert name a }
  | vote id net_rshares => .ok (s.modifyComment id fun c => { c with net_rshares })
  | cashout id cashout_time => .ok (s.modifyComment id fun c => { c with cashout_time })
  | time head_block_time => .ok { s with head_block_time }

def genesis (accounts : OrdMap AccountName Account) (time : ℕ) : State :=
  { accounts, head_block_time := time }

def run (calls : List Call) : State := runCalls Call.apply s calls

section Tree

variable (s : State)

/-- `d` is a reply to `c`, by the parent fields. -/
def State.Reply (d c : CommentId) : Prop :=
  ∃ cd cc, s.comments.find? d = some cd ∧ s.comments.find? c = some cc ∧
    cd.parent_author ≠ STEEMIT_ROOT_POST_PARENT ∧ cc.author = cd.parent_author ∧
      cString cc.permlink = cString cd.parent_permlink

/-- `d` is below `c` in the tree. -/
def State.Below : CommentId → CommentId → Prop := Relation.TransGen s.Reply

/-- The parent is the one that the operation named. -/
def Comment.ParentOk (c : Comment) : Prop := (c.parent_author, c.parent_permlink) = c.origin

/-- Only root posts have depth 0, and a reply is one deeper than its parent. -/
def State.DepthOk (id : CommentId) (c : Comment) : Prop :=
  (c.depth = 0 ↔ c.parent_author = STEEMIT_ROOT_POST_PARENT) ∧
    ∀ p cp, s.Reply id p → s.comments.find? p = some cp → c.depth = cp.depth + 1

/-- The root is the root post that the replies lead up to. -/
def State.RootOk (id : CommentId) (c : Comment) : Prop :=
  ∃ r, s.comments.find? c.root_comment = some r ∧ r.parent_author = STEEMIT_ROOT_POST_PARENT ∧
    (c.root_comment = id ∨ s.Below id c.root_comment)

def State.ChildrenOk (id : CommentId) (c : Comment) : Prop :=
  c.children = Set.ncard { d | s.Below d id }

/-- What the fields of a comment are meant to say. -/
structure CommentOk (id : CommentId) (c : Comment) : Prop where
  parent : c.ParentOk
  depth : s.DepthOk id c
  root : s.RootOk id c
  children : s.ChildrenOk id c

def TreeOk : Prop := ∀ id c, s.comments.find? id = some c → CommentOk s id c

end Tree

/-- What the constructor leaves of a comment's place in the tree. -/
structure Comment.Flat (c : Comment) : Prop where
  parent_author : c.parent_author = STEEMIT_ROOT_POST_PARENT
  parent_permlink : c.parent_permlink = []
  depth : c.depth = 0
  root_comment : c.root_comment = 0
  origin : cString c.origin.2 ≠ []

/-- All comments are flat. -/
def State.Flat : Prop := ∀ id c, s.comments.find? id = some c → c.Flat

section Steps

variable {s s' : State}

theorem State.Flat.congr (h : s.Flat) (heq : s'.comments = s.comments) : s'.Flat := by
  rw [State.Flat, heq]
  exact h

variable {o : CommentOperation} {c : Comment}

theorem State.Flat.insert (h : s.Flat) {id : CommentId} (hc : c.Flat)
    (heq : s'.comments = s.comments.insert id c) : s'.Flat := by
  rw [State.Flat, heq]
  exact OrdMap.forall_insert h hc

theorem State.Flat.modifyComment (h : s.Flat) (id : CommentId) {f : Comment → Comment}
    (hf : ∀ c : Comment, c.Flat → (f c).Flat) : (s.modifyComment id f).Flat := by
  rw [State.modifyComment]
  split
  · rename_i c hc
    exact h.insert (hf c (h id c hc)) rfl
  · exact h

theorem State.Flat.addComment (h : s.Flat) (author : AccountName) (auth : Account) (hc : c.Flat) :
    (s.addComment author auth c).Flat :=
  h.insert hc rfl

theorem State.Flat.erase (h : s.Flat) (id : CommentId) :
    State.Flat { s with comments := s.comments.erase id } :=
  fun j d hd => h j d (OrdMap.find?_of_erase hd)

/-- The loop over the ancestors changes counts and times only. -/
theorem State.Flat.forAncestors {f : Comment → Comment} (hf : ∀ c : Comment, c.Flat → (f c).Flat)
    {fuel : ℕ} {r : CommentId × Comment} (h : s.Flat)
    (heq : Comments.forAncestors f fuel r s = .ok s') : s'.Flat := by
  induction fuel generalizing r s with
  | zero => exact nomatch heq
  | succ fuel ih =>
    rw [Comments.forAncestors] at heq
    split at heq
    · cases heq
      exact h.modifyComment r.1 hf
    · split at heq
      · exact ih (h.modifyComment r.1 hf) heq
      · exact nomatch heq

theorem Comment.Flat.addChild (h : c.Flat) (now : ℕ) : (c.addChild now).Flat :=
  ⟨h.parent_author, h.parent_permlink, h.depth, h.root_comment, h.origin⟩

theorem Comment.Flat.dropChild (h : c.Flat) (now : ℕ) : (c.dropChild now).Flat := by
  unfold Comment.dropChild
  exact ⟨h.parent_author, h.parent_permlink, h.depth, h.root_comment, h.origin⟩

/-- A permlink that passes is not empty, also for `strcmp`. -/
theorem cString_ne_nil_of_validate {permlink : Permlink} {r : Unit}
    (h : validate_permlink_0_1 permlink = .ok r) : cString permlink ≠ [] := by
  obtain ⟨hsize, h⟩ := check_bind_ok.1 h
  have hchars := check_eq_ok.1 h
  cases permlink with
  | nil => simp at hsize
  | cons c rest =>
    have hc : isPermlinkChar c = true := (List.all_eq_true.1 hchars) c List.mem_cons_self
    have hne : c ≠ '\x00' := by
      rintro rfl
      exact absurd hc (by decide)
    simp [cString, hne]

variable (h : s.Flat)

include h

theorem State.Flat.createComment {auth : Account} {parent : Option (CommentId × Comment)}
    (heq : createComment s o auth parent = .ok s') : s'.Flat := by
  obtain ⟨_, -, heq⟩ := bind_ok.1 heq
  obtain ⟨_, hvalid, heq⟩ := bind_ok.1 heq
  obtain ⟨_, -, heq⟩ := bind_ok.1 heq
  have hnew : ∀ now reward_weight, (newComment now reward_weight o).Flat := fun _ _ =>
    ⟨rfl, rfl, rfl, rfl, cString_ne_nil_of_validate hvalid⟩
  cases parent with
  | none =>
    cases heq
    exact h.addComment _ _ (hnew _ _)
  | some parent => exact (h.addComment _ _ (hnew _ _)).forAncestors (fun c hc => hc.addChild _) heq

theorem State.Flat.editComment {id : CommentId} {com : Comment}
    (heq : editComment s o id com = .ok s') : s'.Flat := by
  replace heq := ok_of_check heq
  replace heq := ok_of_check heq
  cases heq
  exact h.modifyComment id fun c hc => { hc with }

theorem State.Flat.comment (heq : comment s o = .ok s') :
    s'.Flat := by
  replace heq := ok_of_check heq
  obtain ⟨auth, -, heq⟩ := bind_ok.1 heq
  replace heq := ok_of_check heq
  obtain ⟨parent, -, heq⟩ := bind_ok.1 heq
  replace heq := ok_of_check heq
  cases hfind : s.find_comment o.author o.permlink with
  | none =>
    rw [hfind] at heq
    exact h.createComment heq
  | some r =>
    rw [hfind] at heq
    exact h.editComment heq

theorem State.Flat.delete_comment {author : AccountName} {permlink : Permlink}
    (heq : delete_comment s author permlink = .ok s') : s'.Flat := by
  obtain ⟨auth, -, heq⟩ := bind_ok.1 heq
  replace heq := ok_of_check heq
  obtain ⟨⟨id, c⟩, -, heq⟩ := bind_ok.1 heq
  replace heq := ok_of_check heq
  replace heq := ok_of_check heq
  replace heq := ok_of_check heq
  obtain ⟨s1, h1, heq⟩ := bind_ok.1 heq
  have hdropped : s1.Flat := by
    unfold dropFromAncestors at h1
    split at h1
    · cases h1
      exact h
    · obtain ⟨parent, -, h1⟩ := bind_ok.1 h1
      exact h.forAncestors (fun c hc => hc.dropChild _) h1
  cases heq
  exact hdropped.erase id

theorem State.Flat.retally_comment_children
    (heq : retally_comment_children s = .ok s') : s'.Flat := by
  have hcleared : ∀ (ids : List CommentId) {s : State}, s.Flat →
      (ids.foldl (fun s id => s.modifyComment id fun c => { c with children := 0 }) s).Flat := by
    intro ids
    induction ids with
    | nil => exact fun h => h
    | cons id ids ih => exact fun h => ih (h.modifyComment id fun c hc => { hc with })
  refine foldlM_rule (P := State.Flat) (fun {b b' a} hb hstep => ?_) (hcleared _ h) heq
  unfold countChild at hstep
  split at hstep
  · cases hstep
    exact hb
  · obtain ⟨parent, -, hstep⟩ := bind_ok.1 hstep
    refine hb.forAncestors (fun c hc => ?_) hstep
    exact ⟨hc.parent_author, hc.parent_permlink, hc.depth, hc.root_comment, hc.origin⟩

theorem State.Flat.call {c : Call} (heq : c.apply s = .ok s') : s'.Flat := by
  cases c with
  | comment o => exact h.comment heq
  | delete_comment author permlink => exact h.delete_comment heq
  | retally_comment_children => exact h.retally_comment_children heq
  | account name a =>
    cases heq
    exact h.congr rfl
  | vote id net_rshares =>
    cases heq
    exact h.modifyComment id fun c hc => { hc with }
  | cashout id cashout_time =>
    cases heq
    exact h.modifyComment id fun c hc => { hc with }
  | time head_block_time =>
    cases heq
    exact h.congr rfl

end Steps

/-- In every run all comments lie flat: no parent, depth and root are recorded, although the
operation named a parent or a category. -/
theorem run_flat (accounts : OrdMap AccountName Account) (time : ℕ) (calls : List Call) :
    (run (genesis accounts time) calls).Flat := by
  refine runCalls_rule_all (fun h heq => State.Flat.call h heq) (fun id c hc => ?_) calls
  have hnone : (none : Option Comment) = some c := hc
  exact nomatch hnone

section Flat

variable {s : State} {id : CommentId} {c : Comment}

/-- The operation's parent permlink is not empty, the stored one is. -/
theorem Comment.Flat.not_parentOk (h : c.Flat) : ¬ c.ParentOk := by
  intro hparent
  have hpermlink := congrArg Prod.snd hparent
  rw [h.parent_permlink] at hpermlink
  have hempty : cString c.origin.2 = [] := by
    rw [← hpermlink]
    rfl
  exact h.origin hempty

variable (h : s.Flat)

include h

/-- Nothing is stored as a reply. -/
theorem State.Flat.not_reply {d : CommentId} : ¬ s.Reply d id := by
  rintro ⟨cd, _, hd, -, hparent, -⟩
  exact hparent (h d cd hd).parent_author

theorem State.Flat.not_below {d : CommentId} : ¬ s.Below d id := by
  intro hbelow
  cases hbelow with
  | single hreply => exact h.not_reply hreply
  | tail _ hreply => exact h.not_reply hreply

theorem State.Flat.depthOk (hc : s.comments.find? id = some c) : s.DepthOk id c :=
  ⟨⟨fun _ => (h id c hc).parent_author, fun _ => (h id c hc).depth⟩,
    fun _ _ hreply => absurd hreply h.not_reply⟩

theorem State.Flat.rootOk_iff (hc : s.comments.find? id = some c) :
    s.RootOk id c ↔ id = 0 := by
  rw [State.RootOk, (h id c hc).root_comment]
  constructor
  · rintro ⟨r, -, -, hid | hbelow⟩
    · exact hid.symm
    · exact absurd hbelow h.not_below
  · rintro rfl
    exact ⟨c, hc, (h 0 c hc).parent_author, Or.inl rfl⟩

theorem State.Flat.childrenOk_iff : s.ChildrenOk id c ↔ c.children = 0 := by
  have hempty : { d | s.Below d id } = ∅ := Set.eq_empty_of_forall_notMem fun _ => h.not_below
  rw [State.ChildrenOk, hempty, Set.ncard_empty]

end Flat

/-- In every run the tree is as the fields say exactly as long as there is no comment. Of each
comment the parent is wrong and the depth agrees with it; the root is right for the first comment
only, and the count of children for those that nobody replied to. -/
theorem run_treeOk_iff (accounts : OrdMap AccountName Account) (time : ℕ) (calls : List Call) :
    (TreeOk (run (genesis accounts time) calls) ↔
      (run (genesis accounts time) calls).comments = .empty) ∧
    ∀ id c, (run (genesis accounts time) calls).comments.find? id = some c →
      ¬ c.ParentOk ∧ (run (genesis accounts time) calls).DepthOk id c ∧
        ((run (genesis accounts time) calls).RootOk id c ↔ id = 0) ∧
          ((run (genesis accounts time) calls).ChildrenOk id c ↔ c.children = 0) := by
  have hflat := run_flat accounts time calls
  generalize run (genesis accounts time) calls = s at hflat ⊢
  refine ⟨⟨?_, ?_⟩, ?_⟩
  · intro h
    refine OrdMap.ext_find fun id => ?_
    rw [OrdMap.find?_empty]
    by_contra hsome
    obtain ⟨c, hc⟩ := Option.ne_none_iff_exists'.1 hsome
    exact (hflat id c hc).not_parentOk (h id c hc).parent
  · intro h id c hc
    rw [h] at hc
    exact nomatch hc
  · intro id c hc
    exact ⟨(hflat id c hc).not_parentOk, hflat.depthOk hc, hflat.rootOk_iff hc,
      hflat.childrenOk_iff⟩

/-- A post by account 1 and a reply to it by account 2. -/
def postAndReply : List Call :=
  [ .comment ⟨0, ['t'], 1, ['a'], 0, 1, 0, true⟩, .comment ⟨1, ['a'], 2, ['b'], 0, 1, 0, true⟩ ]

/-- The reply is stored as a root post, under the root `0`. -/
theorem reply_has_no_parent :
    (∃ c, (run (genesis ((OrdMap.empty.insert 1 {}).insert 2 {}) 1000) postAndReply).comments.find? 1 =
      some c ∧ c.origin = (1, ['a']) ∧ c.parent_author = STEEMIT_ROOT_POST_PARENT ∧ c.depth = 0) ∧
    ¬ TreeOk (run (genesis ((OrdMap.empty.insert 1 {}).insert 2 {}) 1000) postAndReply) := by
  have hreply : (run (genesis ((OrdMap.empty.insert 1 {}).insert 2 {}) 1000)
      postAndReply).comments.find? 1 = some
        { author := 2, permlink := ['b'], last_update := 1000, created := 1000, active := 1000,
          cashout_time := 1000 + STEEMIT_CASHOUT_WINDOW_SECONDS, reward_weight := 10000,
          origin := (1, ['a']) } := by
    decide +kernel
  refine ⟨⟨_, hreply, rfl, rfl, rfl⟩, fun htree => ?_⟩
  have hparent : ((STEEMIT_ROOT_POST_PARENT, []) : AccountName × Permlink) = (1, ['a']) :=
    (htree _ _ hreply).parent
  exact absurd hparent (by decide)

section Edits

variable {s : State} {o : CommentOperation} {id : CommentId} {com : Comment}

/-- What `comment_evaluator` requires before it looks for the comment. -/
def CommentOperation.admitted (s : State) (o : CommentOperation) :
    Result (Account × Option (CommentId × Comment)) := do
  check (o.title_size + o.body_size + o.json_size != 0) .nothing_changes
  let auth ← s.get_account o.author
  check (!(auth.owner_challenged || auth.active_challenged)) .challenged
  let parent ← o.parent s
  check (o.json_size == 0 || o.json_is_utf8) .metadata_not_utf8
  return (auth, parent)

theorem comment_eq_admitted (s : State) (o : CommentOperation) :
    comment s o = (do
      let (auth, parent) ← o.admitted s
      match s.find_comment o.author o.permlink with
      | none => createComment s o auth parent
      | some (id, com) => editComment s o id com) := by
  simp only [comment, CommentOperation.admitted, bind_assoc, pure_bind]

/-- The parent of a comment cannot change: an edit is accepted only with the parent fields of the
operation that created the comment, and with these it is not refused for a changed parent. -/
structure EditExact (s : State) (o : CommentOperation) (com : Comment) : Prop where
  same_parent : ∀ s', comment s o = .ok s' → (o.parent_author, o.parent_permlink) = com.origin
  not_refused : (o.parent_author, o.parent_permlink) = com.origin →
    comment s o ≠ .error .parent_changed ∧ comment s o ≠ .error .permlink_changed

/-- The two checks of an edit pass. -/
def CommentOperation.matchesParent (o : CommentOperation) (com : Comment) : Bool :=
  com.parent_author == o.parent_author && strcmpEqual com.parent_permlink o.parent_permlink

theorem editComment_eq_ok {s' : State} (h : editComment s o id com = .ok s') :
    o.matchesParent com = true := by
  obtain ⟨hauthor, h⟩ := check_bind_ok.1 h
  obtain ⟨hpermlink, -⟩ := check_bind_ok.1 h
  rw [CommentOperation.matchesParent, hauthor, hpermlink]
  rfl

theorem editComment_of_matches (s : State) (id : CommentId) (h : o.matchesParent com = true) :
    ∃ s', editComment s o id com = .ok s' := by
  obtain ⟨hauthor, hpermlink⟩ := Bool.and_eq_true_iff.1 h
  exact ⟨_, check_bind_ok.2 ⟨hauthor, check_bind_ok.2 ⟨hpermlink, rfl⟩⟩⟩

theorem editComment_of_not_matches (s : State) (id : CommentId) (h : o.matchesParent com = false) :
    editComment s o id com = .error .parent_changed ∨
      editComment s o id com = .error .permlink_changed := by
  rw [editComment]
  cases hauthor : com.parent_author == o.parent_author with
  | false => exact Or.inl rfl
  | true =>
    rw [CommentOperation.matchesParent, hauthor, Bool.true_and] at h
    rw [h]
    exact Or.inr rfl

/-- An error of the two checks of an edit. -/
def Error.IsEdit (e : Error) : Prop := e = .parent_changed ∨ e = .permlink_changed

theorem CommentOperation.throws_parent (s : State) (o : CommentOperation) :
    Throws (o.parent s) fun e => ¬ e.IsEdit := by
  unfold CommentOperation.parent State.get_comment
  split
  · exact .ok _
  · refine Throws.bind ?_ fun parent _ => ?_
    · split
      · exact .ok _
      · exact .error (by simp [Error.IsEdit])
    · exact .check_bind (by simp [Error.IsEdit]) (.ok _)

/-- No check before the lookup throws an error of the edit. -/
theorem CommentOperation.throws_admitted (s : State) (o : CommentOperation) :
    Throws (o.admitted s) fun e => ¬ e.IsEdit := by
  have hget : Throws (s.get_account o.author) fun e => ¬ e.IsEdit := by
    unfold State.get_account
    split
    · exact .ok _
    · exact .error (by simp [Error.IsEdit])
  refine .check_bind (by simp [Error.IsEdit]) (.bind hget fun _ _ => ?_)
  refine .check_bind (by simp [Error.IsEdit]) (.bind (o.throws_parent s) fun _ _ => ?_)
  exact .check_bind (by simp [Error.IsEdit]) (.ok _)

/-- A flat comment matches the empty parent only. -/
theorem Comment.Flat.matchesParent_iff (h : com.Flat) :
    o.matchesParent com = true ↔
      o.parent_author = STEEMIT_ROOT_POST_PARENT ∧ cString o.parent_permlink = [] := by
  rw [CommentOperation.matchesParent, h.parent_author, h.parent_permlink, strcmpEqual]
  simp only [Bool.and_eq_true, Bool.or_eq_true, beq_iff_eq, List.length_nil]
  refine and_congr ⟨Eq.symm, Eq.symm⟩ ⟨?_, fun h => Or.inr h.symm⟩
  rintro (hlength | hstring)
  · rw [List.length_eq_zero_iff.1 hlength.symm]
    rfl
  · exact hstring.symm

/-- The parent that a comment was created with does not match what was stored of it. -/
theorem Comment.Flat.not_matches_origin (h : com.Flat)
    (horigin : (o.parent_author, o.parent_permlink) = com.origin) :
    ¬ o.matchesParent com = true := by
  intro hmatch
  have hempty := (h.matchesParent_iff.1 hmatch).2
  have hpermlink := congrArg Prod.snd horigin
  exact h.origin (hpermlink ▸ hempty)

/-- Of an edit that reaches the comparison, both halves of `EditExact` say what the comparison says. -/
theorem Comment.Flat.editExact_iff (h : com.Flat) {r : Account × Option (CommentId × Comment)}
    (hadmitted : o.admitted s = .ok r) (hfind : s.find_comment o.author o.permlink = some (id, com)) :
    EditExact s o com ↔
      (o.parent_author, o.parent_permlink) ≠ com.origin ∧ ¬ o.matchesParent com = true := by
  -- an edit that reaches the comparison is judged by it alone
  have hcomment : comment s o = editComment s o id com := by
    rw [comment_eq_admitted, hadmitted, hfind]
    rfl
  constructor
  · intro hexact
    have hdiffers : (o.parent_author, o.parent_permlink) ≠ com.origin := by
      intro horigin
      obtain ⟨hparent, hpermlink⟩ := hexact.not_refused horigin
      rw [hcomment] at hparent hpermlink
      rcases editComment_of_not_matches s id
        (Bool.eq_false_iff.2 (h.not_matches_origin horigin)) with herror | herror
      · exact hparent herror
      · exact hpermlink herror
    refine ⟨hdiffers, fun hmatch => ?_⟩
    obtain ⟨s', hs'⟩ := editComment_of_matches s id hmatch
    exact hdiffers (hexact.same_parent s' (hcomment.trans hs'))
  · rintro ⟨hdiffers, hmatch⟩
    refine ⟨fun s' hs' => ?_, fun horigin => absurd horigin hdiffers⟩
    rw [hcomment] at hs'
    exact absurd (editComment_eq_ok hs') hmatch

end Edits

/-- In every run an edit obeys the rule exactly if it is refused before its parent is compared, or
names neither the parent of the creation nor the empty parent that is stored in its place. -/
theorem run_editExact_iff (accounts : OrdMap AccountName Account) (time : ℕ) (calls : List Call)
    (o : CommentOperation) (id : CommentId) (com : Comment)
    (hfind : (run (genesis accounts time) calls).find_comment o.author o.permlink = some (id, com)) :
    EditExact (run (genesis accounts time) calls) o com ↔
      (∃ e, o.admitted (run (genesis accounts time) calls) = .error e) ∨
        ((o.parent_author, o.parent_permlink) ≠ com.origin ∧
          ¬ (o.parent_author = STEEMIT_ROOT_POST_PARENT ∧ cString o.parent_permlink = [])) := by
  have hflat := run_flat accounts time calls
  generalize run (genesis accounts time) calls = s at hfind hflat ⊢
  have hcom : com.Flat := hflat id com (OrdMap.mem_rows.1 (List.mem_of_find?_eq_some hfind))
  cases hadmitted : o.admitted s with
  | ok r =>
    rw [hcom.editExact_iff hadmitted hfind, hcom.matchesParent_iff]
    simp
  | error e =>
    have hcomment : comment s o = .error e := by
      rw [comment_eq_admitted, hadmitted]
      rfl
    have hother := o.throws_admitted s e hadmitted
    refine ⟨fun _ => Or.inl ⟨e, rfl⟩, fun _ => ⟨fun s' hs' => ?_, fun _ => ?_⟩⟩
    · rw [hcomment] at hs'
      exact nomatch hs'
    · rw [hcomment]
      exact ⟨fun h => hother (.inl (Except.error.inj h)), fun h => hother (.inr (Except.error.inj h))⟩

/-- The root post of account 1, in the category `t`. -/
def post : CommentOperation := ⟨0, ['t'], 1, ['a'], 0, 1, 0, true⟩

def posted : State := run (genesis (OrdMap.empty.insert 1 {}) 1000) [.comment post]

/-- The comment of `post`. -/
def postComment : Comment :=
  { author := 1, permlink := ['a'], last_update := 1000, created := 1000, active := 1000,
    cashout_time := 1000 + STEEMIT_CASHOUT_WINDOW_SECONDS, reward_weight := 10000,
    origin := (0, ['t']) }

/-- An edit with another category is refused, as it should be. -/
theorem run_editExact_iff_other_category :
    EditExact posted { post with parent_permlink := ['u'] } postComment :=
  (run_editExact_iff (OrdMap.empty.insert 1 {}) 1000 [.comment post]
    { post with parent_permlink := ['u'] } 0 postComment (by decide +kernel)).2
      (Or.inr ⟨by decide, by decide⟩)

/-- The post is refused as an edit of itself, and accepted with an empty category. -/
theorem edit_of_post_refused :
    posted.find_comment 1 ['a'] = some (0, postComment) ∧
      comment posted post = .error .permlink_changed ∧
      (comment posted { post with parent_permlink := [] }).isOk = true ∧
      ¬ EditExact posted post postComment ∧
        ¬ EditExact posted { post with parent_permlink := [] } postComment := by
  have hrefused : comment posted post = .error .permlink_changed := rfl
  have haccepted : (comment posted { post with parent_permlink := [] }).isOk = true := by
    decide +kernel
  refine ⟨by decide +kernel, hrefused, haccepted, fun h => ?_, fun h => ?_⟩
  · exact (h.not_refused rfl).2 hrefused
  · obtain ⟨s', hs'⟩ := exists_eq_ok haccepted
    exact absurd (h.same_parent s' hs') (by decide)

/-! ## The bandwidth of root posts -/

/-- The author of a root post, as it is stored. -/
def Account.rootPost (auth : Account) (now : ℕ) : Account :=
  { auth with
    last_root_post := now
    post_bandwidth := postBandwidth now auth % 2 ^ 32
    last_post := now
    post_count := auth.post_count + 1 }

/-- The times of root posts of one account, each more than the interval after the one before. -/
def PostsApart : Account → List ℕ → Prop
  | _, [] => True
  | auth, now :: rest =>
    STEEMIT_MIN_ROOT_COMMENT_INTERVAL < now - auth.last_root_post ∧ PostsApart (auth.rootPost now) rest

/-- What is left of the bandwidth at the next root post, before it is narrowed. -/
def oldWeight (now : ℕ) (auth : Account) : ℕ :=
  auth.post_bandwidth * (STEEMIT_POST_AVERAGE_WINDOW -
    min (now - auth.last_root_post) STEEMIT_POST_AVERAGE_WINDOW) / STEEMIT_POST_AVERAGE_WINDOW

/-- The bandwidth of an account that posts without a pause. -/
def MAX_POST_BANDWIDTH : ℕ := STEEMIT_100_PERCENT * STEEMIT_POST_AVERAGE_WINDOW / 300

section Bandwidth

variable {auth : Account} {now : ℕ} (hauth : auth.post_bandwidth ≤ MAX_POST_BANDWIDTH)

include hauth

theorem postBandwidth_eq (h : STEEMIT_MIN_ROOT_COMMENT_INTERVAL < now - auth.last_root_post) :
    postBandwidth now auth = oldWeight now auth + STEEMIT_100_PERCENT ∧
      oldWeight now auth + STEEMIT_100_PERCENT ≤ MAX_POST_BANDWIDTH := by
  have hkeep : STEEMIT_POST_AVERAGE_WINDOW -
      min (now - auth.last_root_post) STEEMIT_POST_AVERAGE_WINDOW ≤ 86099 := by
    simp only [STEEMIT_MIN_ROOT_COMMENT_INTERVAL, STEEMIT_POST_AVERAGE_WINDOW] at h ⊢
    omega
  have hproduct := Nat.mul_le_mul_left auth.post_bandwidth hkeep
  have hweight : oldWeight now auth + STEEMIT_100_PERCENT ≤ MAX_POST_BANDWIDTH := by
    simp only [oldWeight, MAX_POST_BANDWIDTH, STEEMIT_100_PERCENT, STEEMIT_POST_AVERAGE_WINDOW]
      at hauth hproduct ⊢
    omega
  refine ⟨congrArg (· + STEEMIT_100_PERCENT) (Nat.mod_eq_of_lt ?_), hweight⟩
  exact (Nat.le_of_add_right_le hweight).trans_lt (by decide)

theorem rootPost_bandwidth_le (h : STEEMIT_MIN_ROOT_COMMENT_INTERVAL < now - auth.last_root_post) :
    (auth.rootPost now).post_bandwidth ≤ MAX_POST_BANDWIDTH := by
  obtain ⟨heq, hle⟩ := postBandwidth_eq hauth h
  exact (Nat.mod_le _ _).trans (heq ▸ hle)

theorem posts_bandwidth_le {posts : List ℕ} (h : PostsApart auth posts) :
    (posts.foldl Account.rootPost auth).post_bandwidth ≤ MAX_POST_BANDWIDTH := by
  induction posts generalizing auth with
  | nil => exact hauth
  | cons now rest ih => exact ih (rootPost_bandwidth_le hauth h.1) h.2

end Bandwidth

theorem rewardWeight_bounds {b : ℕ} (hpos : 0 < b) (hb : b ≤ MAX_POST_BANDWIDTH) :
    1 ≤ rewardWeight b ∧ rewardWeight b ≤ STEEMIT_100_PERCENT := by
  refine ⟨le_min ?_ (by decide), min_le_right _ _⟩
  have hsq : b * b ≤ MAX_POST_BANDWIDTH * MAX_POST_BANDWIDTH := Nat.mul_le_mul hb hb
  exact (Nat.one_le_div_iff (Nat.mul_pos hpos hpos)).2 (hsq.trans (by decide))

/-- After any root posts of an account the next one leaves a bandwidth within the limit, narrows
nothing, does not divide by zero and has a weight between 1 and `STEEMIT_100_PERCENT`. -/
theorem root_posts_bandwidth {auth last : Account} {posts : List ℕ}
    (hauth : auth.post_bandwidth ≤ MAX_POST_BANDWIDTH) (h : PostsApart auth posts)
    (hlast : posts.foldl Account.rootPost auth = last) {s s' : State} {o : CommentOperation}
    (hroot : o.parent_author = STEEMIT_ROOT_POST_PARENT)
    (heq : createComment s o last none = .ok s') :
    last.post_bandwidth ≤ MAX_POST_BANDWIDTH ∧
    oldWeight s.head_block_time last < 2 ^ 32 ∧
    postBandwidth s.head_block_time last ≤ MAX_POST_BANDWIDTH ∧ MAX_POST_BANDWIDTH < 2 ^ 32 ∧
    0 < postBandwidth s.head_block_time last * postBandwidth s.head_block_time last ∧
    ∃ reward_weight, 1 ≤ reward_weight ∧ reward_weight ≤ STEEMIT_100_PERCENT ∧
      s' = s.addComment o.author (last.rootPost s.head_block_time)
        (newComment s.head_block_time reward_weight o) := by
  have hbound : last.post_bandwidth ≤ MAX_POST_BANDWIDTH := hlast ▸ posts_bandwidth_le hauth h
  obtain ⟨_, hmay, heq⟩ := bind_ok.1 heq
  obtain ⟨hweight, hle⟩ := postBandwidth_eq hbound (of_decide_eq_true (check_eq_ok.1 hmay))
  have hpos : 0 < postBandwidth s.head_block_time last := hweight ▸ Nat.succ_pos _
  obtain ⟨_, -, heq⟩ := bind_ok.1 heq
  obtain ⟨_, -, heq⟩ := bind_ok.1 heq
  obtain ⟨hmin, hmax⟩ := rewardWeight_bounds hpos (hweight ▸ hle)
  refine ⟨hbound, (Nat.le_of_add_right_le hle).trans_lt (by decide), hweight ▸ hle, by decide,
    Nat.mul_pos hpos hpos, _, hmin, hmax, ?_⟩
  cases heq
  simp only [hroot, beq_self_eq_true, if_true, Account.rootPost]

/-- The second root post of an account. -/
theorem root_posts_bandwidth_second :
    PostsApart {} [1000] ∧ (Account.rootPost {} 1000).post_bandwidth = 10000 ∧
      postBandwidth 2000 (Account.rootPost {} 1000) ≤ MAX_POST_BANDWIDTH := by
  have hposts : PostsApart {} [1000] := ⟨by decide, trivial⟩
  have hsecond := root_posts_bandwidth (s := genesis .empty 2000) (o := post) (by decide) hposts rfl
    rfl rfl
  exact ⟨hposts, by decide, hsecond.2.2.1⟩

end Calibrd.Chain.Comments
