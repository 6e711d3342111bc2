import Calibrd.Lib.Stateful

/-!
# `fork_database`

The tree of recent blocks. Items are shared by pointers: the index and `_head` own their items, and
an item knows its predecessor by a weak pointer, which locks only while somebody owns the item. So
the model has a heap of items that are never moved, a list of the pointers the index holds, and the
head. `held` are the pointers a running function owns besides (the branches of a fork switch).

Blocks are abstract here: what the fork database reads of a block is its id, the id of the previous
block and its number, which is one more than the number in that id.
-/

namespace Calibrd.Chain

open Calibrd.Lib

/-- What the node reads of a block. `num_from_id` is the number that the first word of an id carries;
`previous_of_id` is the only thing assumed of the hash: an id belongs to one header. -/
structure BlockSpec where
  Id : Type
  decId : DecidableEq Id
  Block : Type
  zero : Id
  num_from_id : Id → ℕ
  id : Block → Id
  previous : Block → Id
  num_zero : num_from_id zero = 0
  num_id : ∀ b, num_from_id (id b) = num_from_id (previous b) + 1
  previous_of_id : ∀ b b', id b = id b' → previous b = previous b'

instance (B : BlockSpec) : DecidableEq B.Id := B.decId

variable {B : BlockSpec}

/-- `block_header::block_num`. -/
def BlockSpec.block_num (B : BlockSpec) (b : B.Block) : ℕ := B.num_from_id (B.previous b) + 1

theorem BlockSpec.id_ne_previous (B : BlockSpec) (b : B.Block) : B.id b ≠ B.previous b := by
  intro h
  have hnum := B.num_id b
  rw [h] at hnum
  omega

abbrev Ptr := ℕ

structure ForkItem (B : BlockSpec) where
  data : B.Block
  prev : Option Ptr
  invalid : Bool

namespace ForkItem

def num (item : ForkItem B) : ℕ := B.block_num item.data

def id (item : ForkItem B) : B.Id := B.id item.data

def previous_id (item : ForkItem B) : B.Id := B.previous item.data

end ForkItem

/-- The failed assertions of the fork database. `null_head` and `out_of_steps` do not occur in the
source: the first is a null pointer that is followed, the second the end of the step bound that the
loops of the model carry. -/
inductive ForkError where
  | too_old
  | unlinkable_block
  | previous_invalid
  | pop_empty
  | pop_last
  | unknown_branch
  | expired_branch
  | null_head
  | out_of_steps
deriving DecidableEq, Repr

structure ForkDatabase (B : BlockSpec) where
  heap : List (ForkItem B)
  index : List Ptr
  head : Option Ptr
  max_size : ℕ

namespace ForkDatabase

def init : ForkDatabase B := ⟨[], [], none, 1024⟩

variable (f : ForkDatabase B)

def item? (p : Ptr) : Option (ForkItem B) := f.heap[p]?

/-- A pointer with its item. -/
def entry? (p : Ptr) : Option (Ptr × ForkItem B) := (f.item? p).map (p, ·)

/-- The item of the head. -/
def headItem : Option (ForkItem B) := f.head.bind f.item?

/-- Somebody owns the item. -/
def alive (held : List Ptr) (p : Ptr) : Bool :=
  p ∈ f.index || f.head = some p || p ∈ held

/-- `weak_ptr::lock` on the predecessor of an item. -/
def lock (held : List Ptr) (item : ForkItem B) :
    Option (Ptr × ForkItem B) := do
  let p ← item.prev
  if f.alive held p then
    let prev ← f.item? p
    return (p, prev)
  else none

/-- `fetch_block`, which looks an item up by its block id. The cache of unlinked blocks stays empty:
`push_block` throws before it would insert into it. -/
def fetch_block (id : B.Id) : Option Ptr :=
  f.index.find? fun p => (f.item? p).any fun item => item.id = id

def fetch_block_by_number (num : ℕ) : List Ptr :=
  f.index.filter fun p => (f.item? p).any fun item => item.num = num

def reset : ForkDatabase B := { f with head := none, index := [] }

/-- `_index.insert`: nothing happens if there is an item with this id. -/
def insertIndex (p : Ptr) (id : B.Id) : ForkDatabase B :=
  if (f.fetch_block id).isSome then f else { f with index := f.index ++ [p] }

def start_block (b : B.Block) : ForkDatabase B :=
  let p := f.heap.length
  { insertIndex { f with heap := f.heap ++ [⟨b, none, false⟩] } p (B.id b) with head := some p }

def pop_block (held : List Ptr) (f : ForkDatabase B) : Except ForkError (ForkDatabase B) :=
  match f.headItem with
  | none => .error .pop_empty
  | some item =>
    match f.lock held item with
    | none => .error .pop_last
    | some (p, _) => .ok { f with head := some p }

/-- The link of a new item to its predecessor. -/
def link (b : B.Block) : Except ForkError (Option Ptr) :=
  if f.head.isSome ∧ B.previous b ≠ B.zero then
    match f.fetch_block (B.previous b) with
    | none => .error .unlinkable_block
    | some p =>
      if (f.item? p).any (·.invalid) then .error .previous_invalid else .ok (some p)
  else .ok none

/-- `push_block`: the new item goes into the index and becomes the head if it is higher. -/
def push_block (b : B.Block) : Except ForkError (ForkDatabase B) :=
  let tooOld := f.headItem.any fun head => decide (B.block_num b ≤ head.num - f.max_size)
  if tooOld then .error .too_old
  else match f.link b with
    | .error e => .error e
    | .ok prev =>
      let p := f.heap.length
      let higher := f.headItem.all fun head => decide (head.num < B.block_num b)
      let f' := insertIndex { f with heap := f.heap ++ [⟨b, prev, false⟩] } p (B.id b)
      .ok (if higher then { f' with head := some p } else f')

/-- `set_max_size`: with a head, the items more than `s` below it leave the index. -/
def set_max_size (s : ℕ) : ForkDatabase B :=
  match f.headItem with
  | none => { f with max_size := s }
  | some head =>
    { f with
      max_size := s
      index := f.index.filter fun p => (f.item? p).any fun item => head.num - s ≤ item.num }

def set_head (p : Ptr) : ForkDatabase B := { f with head := some p }

def remove (id : B.Id) : ForkDatabase B :=
  { f with index := f.index.filter fun p => !(f.item? p).any fun item => item.id = id }

/-! ## Walks -/

/-- The first two loops of `fetch_branch_from`: back along the predecessors to the number `num`, with
the items that were passed. -/
def walkDown (f : ForkDatabase B) (num : ℕ) :
    ℕ → Ptr × ForkItem B → Except ForkError (List Ptr × (Ptr × ForkItem B))
  | 0, _ => .error .out_of_steps
  | steps + 1, (p, item) =>
    if item.num > num then
      match f.lock [] item with
      | none => .error .expired_branch
      | some prev =>
        match walkDown f num steps prev with
        | .error e => .error e
        | .ok (branch, last) => .ok (p :: branch, last)
    else .ok ([], (p, item))

/-- The third loop of `fetch_branch_from`: back along both branches to the same previous block. -/
def walkBoth (f : ForkDatabase B) :
    ℕ → Ptr × ForkItem B → Ptr × ForkItem B → Except ForkError (List Ptr × List Ptr)
  | 0, _, _ => .error .out_of_steps
  | steps + 1, (p, first), (q, second) =>
    if first.previous_id = second.previous_id then .ok ([p], [q])
    else
      match f.lock [] first, f.lock [] second with
      | some first', some second' =>
        match walkBoth f steps first' second' with
        | .error e => .error e
        | .ok (l, r) => .ok (p :: l, q :: r)
      | _, _ => .error .expired_branch

/-- `fetch_branch_from`: the two branches back to the common predecessor, newest items first. -/
def fetch_branch_from (first second : B.Id) :
    Except ForkError (List Ptr × List Ptr) :=
  match (f.fetch_block first).bind f.entry?, (f.fetch_block second).bind f.entry? with
  | some x, some y =>
    let steps := x.2.num + y.2.num + 1
    match walkDown f y.2.num steps x with
    | .error e => .error e
    | .ok (l1, x') =>
      match walkDown f x'.2.num steps y with
      | .error e => .error e
      | .ok (r1, y') =>
        match walkBoth f steps x' y' with
        | .error e => .error e
        | .ok (l2, r2) => .ok (l1 ++ l2, r1 ++ r2)
  | _, _ => .error .unknown_branch

def walkMain (f : ForkDatabase B) (held : List Ptr) (num : ℕ) : ℕ → ForkItem B → Option (ForkItem B)
  | 0, _ => none
  | steps + 1, item =>
    if item.num > num then
      match f.lock held item with
      | none => none
      | some (_, prev) => walkMain f held num steps prev
    else some item

/-- `fetch_block_on_main_branch_by_number`, with `walk_main_branch_to_num` for the case of several
items with this number. -/
def fetch_block_on_main_branch_by_number (held : List Ptr) (num : ℕ) :
    Option (ForkItem B) :=
  match f.fetch_block_by_number num with
  | [] => none
  | [p] => f.item? p
  | _ =>
    match f.headItem with
    | none => none
    | some head => if num > head.num then none else f.walkMain held num (head.num + 1) head

/-! ## Items are never moved -/

theorem item?_of_heap {f f' : ForkDatabase B} (h : f'.heap = f.heap) (p : Ptr) :
    f'.item? p = f.item? p := by
  rw [item?, h]
  rfl

variable (f : ForkDatabase B) {b : B.Block} {p : Ptr}

@[simp] theorem set_max_size_heap (s : ℕ) : (f.set_max_size s).heap = f.heap := by
  unfold set_max_size
  split <;> rfl

@[simp] theorem set_max_size_head (s : ℕ) : (f.set_max_size s).head = f.head := by
  unfold set_max_size
  split <;> rfl

@[simp] theorem remove_heap (id : B.Id) : (f.remove id).heap = f.heap := rfl

@[simp] theorem set_head_heap (p : Ptr) : (f.set_head p).heap = f.heap := rfl

@[simp] theorem insertIndex_heap (p : Ptr) (id : B.Id) :
    (f.insertIndex p id).heap = f.heap := by
  unfold insertIndex
  split <;> rfl

@[simp] theorem insertIndex_head (p : Ptr) (id : B.Id) :
    (f.insertIndex p id).head = f.head := by
  unfold insertIndex
  split <;> rfl

/-- A pop moves the head to the predecessor, and nothing else. -/
theorem pop_block_ok {held : List Ptr} {f f' : ForkDatabase B} (h : f.pop_block held = .ok f') :
    ∃ item p prev, f.headItem = some item ∧ f.lock held item = some (p, prev) ∧
      f' = { f with head := some p } := by
  unfold pop_block at h
  cases hitem : f.headItem with
  | none => rw [hitem] at h; cases h
  | some item =>
    rw [hitem] at h
    dsimp only at h
    cases hlock : f.lock held item with
    | none => rw [hlock] at h; cases h
    | some q =>
      rw [hlock] at h
      obtain ⟨p, prev⟩ := q
      exact ⟨item, p, prev, rfl, hlock, (Except.ok.inj h).symm⟩

/-- A push adds the new item to the heap and to the index, and makes it the head if it is higher. -/
theorem push_block_ok {f f' : ForkDatabase B} (h : f.push_block b = .ok f') :
    ∃ prev, f.link b = .ok prev ∧
      f' = (if f.headItem.all fun head => decide (head.num < B.block_num b) then
        { insertIndex { f with heap := f.heap ++ [⟨b, prev, false⟩] } f.heap.length (B.id b) with
          head := some f.heap.length }
        else insertIndex { f with heap := f.heap ++ [⟨b, prev, false⟩] } f.heap.length (B.id b)) := by
  simp only [push_block] at h
  by_cases hold : (f.headItem.any fun head => decide (B.block_num b ≤ head.num - f.max_size)) = true
  · rw [if_pos hold] at h
    cases h
  · rw [if_neg hold] at h
    cases hlink : f.link b with
    | error e => rw [hlink] at h; cases h
    | ok prev =>
      rw [hlink] at h
      exact ⟨prev, rfl, (Except.ok.inj h).symm⟩

theorem push_block_heap {f f' : ForkDatabase B} (h : f.push_block b = .ok f') :
    ∃ prev, f'.heap = f.heap ++ [⟨b, prev, false⟩] := by
  obtain ⟨prev, -, rfl⟩ := push_block_ok h
  refine ⟨prev, ?_⟩
  split <;> simp

theorem push_block_item {f f' : ForkDatabase B} (h : f.push_block b = .ok f') {item : ForkItem B}
    (hp : f.item? p = some item) : f'.item? p = some item := by
  obtain ⟨prev, hheap⟩ := push_block_heap h
  unfold item? at hp ⊢
  rw [hheap, List.getElem?_append_left (List.getElem?_eq_some_iff.1 hp).1]
  exact hp

/-- After a push the head is the new item, or the old head if that is not lower. -/
theorem push_block_head {f f' : ForkDatabase B} (h : f.push_block b = .ok f') :
    ((∀ item, f.headItem = some item → item.num < B.block_num b) ∧
      ∃ prev, f'.head = some f.heap.length ∧ f'.item? f.heap.length = some ⟨b, prev, false⟩) ∨
    ∃ item, f.headItem = some item ∧ B.block_num b ≤ item.num ∧ f'.head = f.head := by
  obtain ⟨prev, -, hf'⟩ := push_block_ok h
  cases hhead : f.headItem with
  | none =>
    rw [hhead] at hf'
    simp only [Option.all_none, if_true] at hf'
    refine Or.inl ⟨nofun, prev, by rw [hf'], ?_⟩
    simp [hf', item?]
  | some item =>
    rw [hhead] at hf'
    by_cases hlt : item.num < B.block_num b
    · simp only [Option.all_some, hlt, decide_true, if_true] at hf'
      refine Or.inl ⟨?_, prev, by rw [hf'], by simp [hf', item?]⟩
      rintro item' ⟨⟩
      exact hlt
    · simp only [Option.all_some, hlt, decide_false, Bool.false_eq_true, if_false] at hf'
      exact Or.inr ⟨item, rfl, Nat.not_lt.1 hlt, by rw [hf', insertIndex_head]⟩

theorem fetch_block_spec {f : ForkDatabase B} {id : B.Id} (h : f.fetch_block id = some p) :
    p ∈ f.index ∧ ∃ item, f.item? p = some item ∧ item.id = id := by
  refine ⟨List.mem_of_find?_eq_some h, ?_⟩
  have hp := List.find?_some h
  cases hitem : f.item? p with
  | none => rw [hitem] at hp; cases hp
  | some item =>
    rw [hitem] at hp
    exact ⟨item, rfl, of_decide_eq_true hp⟩

/-- The link of a new item is to an item of the index with the id of the previous block. -/
theorem link_spec {f : ForkDatabase B} (h : f.link b = .ok (some p)) :
    f.fetch_block (B.previous b) = some p := by
  unfold link at h
  split at h
  · cases hfetch : f.fetch_block (B.previous b) with
    | none => rw [hfetch] at h; cases h
    | some q =>
      rw [hfetch] at h
      dsimp only at h
      split at h
      · cases h
      · rw [Option.some.inj (Except.ok.inj h)]
  · cases h

/-- The blocks of the heap satisfy `Ok`, and an item links to an item with the id of its previous
block. -/
structure HeapOk (Ok : B.Block → Prop) (heap : List (ForkItem B)) : Prop where
  blocks : ∀ item ∈ heap, Ok item.data
  links : ∀ item ∈ heap, ∀ p, item.prev = some p →
    ∃ prev, heap[p]? = some prev ∧ prev.id = item.previous_id

theorem HeapOk.nil (Ok : B.Block → Prop) : HeapOk Ok ([] : List (ForkItem B)) := ⟨nofun, nofun⟩

theorem HeapOk.push {Ok : B.Block → Prop} {f f' : ForkDatabase B} (h : HeapOk Ok f.heap) (hb : Ok b)
    (hf : f.push_block b = .ok f') : HeapOk Ok f'.heap := by
  obtain ⟨prev, hlink, hf'⟩ := push_block_ok hf
  have hheap : f'.heap = f.heap ++ [⟨b, prev, false⟩] := by
    rw [hf']
    split <;> simp
  have hold : ∀ {p : Ptr} {item : ForkItem B}, f.heap[p]? = some item →
      (f.heap ++ [⟨b, prev, false⟩])[p]? = some item :=
    fun hp => hheap ▸ push_block_item hf hp
  rw [hheap]
  refine ⟨?_, ?_⟩
  · exact List.forall_mem_append.2 ⟨h.blocks, List.forall_mem_singleton.2 hb⟩
  · intro item hitem p hp
    rcases List.mem_append.1 hitem with hitem | hitem
    · obtain ⟨q, hq, hid⟩ := h.links item hitem p hp
      exact ⟨q, hold hq, hid⟩
    · obtain rfl := List.mem_singleton.1 hitem
      obtain rfl : prev = some p := hp
      obtain ⟨-, q, hq, hid⟩ := fetch_block_spec (link_spec hlink)
      exact ⟨q, hold hq, hid⟩

/-! ## The index after a push -/

/-- The index has an item of the block `y`. -/
def Known (f : ForkDatabase B) (y : B.Id) : Prop :=
  ∃ p ∈ f.index, ∃ item, f.item? p = some item ∧ item.id = y

section Pushed

variable {f f' : ForkDatabase B} {b : B.Block} {p : Ptr} {item : ForkItem B} {y : B.Id}

theorem known_of_fetch (h : f.fetch_block y = some p) : f.Known y :=
  ⟨p, fetch_block_spec h⟩

variable (h : f.push_block b = .ok f')

include h

theorem push_block_items (hitem : f'.item? p = some item) :
    f.item? p = some item ∨
      p = f.heap.length ∧ ∃ prev, f.link b = .ok prev ∧ item = ⟨b, prev, false⟩ := by
  obtain ⟨prev, hlink, hf'⟩ := push_block_ok h
  have hheap : f'.heap = f.heap ++ [⟨b, prev, false⟩] := by
    rw [hf']
    split <;> simp
  simp only [item?, hheap] at hitem
  rcases lt_or_ge p f.heap.length with hlt | hge
  · rw [List.getElem?_append_left hlt] at hitem
    exact Or.inl hitem
  · rw [List.getElem?_append_right hge] at hitem
    have hlen := (List.getElem?_eq_some_iff.1 hitem).1
    rw [List.length_singleton] at hlen
    have hmem := List.mem_of_getElem? hitem
    rw [List.mem_singleton] at hmem
    have hle := Nat.sub_eq_zero_iff_le.1 (Nat.lt_one_iff.1 hlen)
    exact Or.inr ⟨le_antisymm hle hge, prev, hlink, hmem⟩

theorem push_block_index (hp : p ∈ f'.index) (hitem : f'.item? p = some item) :
    (p ∈ f.index ∧ f.item? p = some item) ∨
      p = f.heap.length ∧ ∃ prev, f.link b = .ok prev ∧ item = ⟨b, prev, false⟩ := by
  rcases push_block_items h hitem with hold | hnew
  · refine Or.inl ⟨?_, hold⟩
    have hlt := (List.getElem?_eq_some_iff.1 hold).1
    obtain ⟨prev, -, hf'⟩ := push_block_ok h
    have hcases : f'.index = f.index ∨ f'.index = f.index ++ [f.heap.length] := by
      rw [hf']
      unfold insertIndex
      split <;> split <;> simp
    rcases hcases with heq | heq
    · exact heq ▸ hp
    · rw [heq, List.mem_append, List.mem_singleton] at hp
      exact hp.resolve_right hlt.ne
  · exact Or.inr hnew

theorem push_block_index_subset (hp : p ∈ f.index) : p ∈ f'.index := by
  obtain ⟨prev, -, rfl⟩ := push_block_ok h
  unfold insertIndex
  split <;> split <;> simp [hp]

theorem Known.push (hy : f.Known y) : f'.Known y := by
  obtain ⟨p, hp, item, hitem, hid⟩ := hy
  exact ⟨p, push_block_index_subset h hp, item, push_block_item h hitem, hid⟩

theorem push_block_known : f'.Known (B.id b) := by
  obtain ⟨prev, -, hf'⟩ := push_block_ok h
  have hnew : (f.heap ++ [⟨b, prev, false⟩])[f.heap.length]? = some ⟨b, prev, false⟩ := by simp
  rw [hf']
  unfold insertIndex
  by_cases hsome : (fetch_block { f with heap := f.heap ++ [⟨b, prev, false⟩] } (B.id b)).isSome
  · obtain ⟨p, hp⟩ := Option.isSome_iff_exists.1 hsome
    rw [if_pos hsome]
    split <;> exact known_of_fetch (f := { f with heap := f.heap ++ [⟨b, prev, false⟩] }) hp
  · rw [if_neg hsome]
    split <;> exact ⟨f.heap.length, by simp, ⟨b, prev, false⟩, hnew, rfl⟩

theorem push_block_fetch (hnew : f.fetch_block (B.id b) = none) :
    f'.fetch_block (B.id b) = some f.heap.length := by
  obtain ⟨p, hp, item, hitem, hid⟩ := push_block_known h
  have hsome : (f'.fetch_block (B.id b)).isSome = true := by
    refine List.find?_isSome.2 ⟨p, hp, ?_⟩
    rw [hitem]
    exact decide_eq_true hid
  obtain ⟨q, hq⟩ := Option.isSome_iff_exists.1 hsome
  obtain ⟨hmem, item', hitem', hid'⟩ := fetch_block_spec hq
  rcases push_block_index h hmem hitem' with ⟨hmem0, hitem0⟩ | ⟨rfl, -⟩
  · have hno := List.find?_eq_none.1 hnew q hmem0
    rw [hitem0] at hno
    exact absurd (decide_eq_true hid') hno
  · exact hq

end Pushed

end ForkDatabase

end Calibrd.Chain
