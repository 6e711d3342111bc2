import Calibrd.Lib.OrdMap
import Calibrd.Lib.ChangeSet

/-!
# `chainbase::generic_index`

One table of the object database: a multi-index container of objects keyed by id, with any number
of further unique keys, and a deque of undo states. The container keeps the contract of
`boost::multi_index_container`: an emplace that meets a taken unique key inserts nothing, and a
modify that meets one erases the modified element and reports failure.

Values do not carry their id; the id is the key of the row, as `generic_index` assigns it and no
modifier changes it. The back of the C++ deque is the head of the list `stack`.
-/

namespace Calibrd.Chainbase

open Calibrd.Lib

/-- A unique index of a container besides the one on the id: the key of an object. -/
structure UniqueKey (V : Type) where
  Key : Type
  dec : DecidableEq Key
  key : ℕ → V → Key

instance {V : Type} (k : UniqueKey V) : DecidableEq k.Key := k.dec

/-- The exceptions of `generic_index`. `end_iterator` stands for the use of an iterator or a
reference to an object that is not in the container, which the C++ leaves undefined. -/
inductive IndexError where
  | insert_failed
  | modify_failed
  | restore_failed
  | end_iterator
  | revision_with_stack
deriving DecidableEq, Repr

/-! ## The container -/

section Container

variable {V : Type} (ks : List (UniqueKey V))

/-- Two objects agree on one of the unique keys. -/
def sameKey (i : ℕ) (v : V) (j : ℕ) (w : V) : Bool :=
  ks.any fun k => decide (k.key i v = k.key j w)

/-- Some other object of the container holds a unique key of `v`. -/
def taken (m : OrdMap ℕ V) (i : ℕ) (v : V) : Bool :=
  m.rows.any fun r => decide (r.1 ≠ i) && sameKey ks i v r.1 r.2

/-- `multi_index_container::emplace`. -/
def containerEmplace (m : OrdMap ℕ V) (i : ℕ) (v : V) : Option (OrdMap ℕ V) :=
  if m.contains i || taken ks m i v then none else some (m.insert i v)

/-- `multi_index_container::modify` of the object `i` to `v`, with the flag it returns. -/
def containerModify (m : OrdMap ℕ V) (i : ℕ) (v : V) : OrdMap ℕ V × Bool :=
  if taken ks m i v then (m.erase i, false) else (m.insert i v, true)

/-- The unique keys are unique. -/
def KeysUnique (m : OrdMap ℕ V) : Prop :=
  ∀ i v j w, m.find? i = some v → m.find? j = some w → i ≠ j → sameKey ks i v j w = false

end Container

/-! ## The index -/

structure UndoState (V : Type) where
  old_values : OrdMap ℕ V
  removed_values : OrdMap ℕ V
  new_ids : OrdMap ℕ Unit
  old_next_id : ℕ
  revision : ℤ
deriving DecidableEq

structure GenericIndex (V : Type) where
  stack : List (UndoState V)
  revision : ℤ
  next_id : ℕ
  indices : OrdMap ℕ V
deriving DecidableEq

namespace GenericIndex

variable {V : Type}

def init : GenericIndex V := ⟨[], 0, 0, .empty⟩

section Hooks

/-- `map::emplace` keeps the value that is already there. -/
def emplaceMap (m : OrdMap ℕ V) (i : ℕ) (v : V) : OrdMap ℕ V :=
  if m.contains i then m else m.insert i v

/-- The body of `on_modify` on the top undo state. -/
def recordModify (head : UndoState V) (i : ℕ) (v : V) : UndoState V :=
  if head.new_ids.contains i then head
  else if head.old_values.contains i then head
  else { head with old_values := head.old_values.insert i v }

/-- The body of `on_remove` on the top undo state. -/
def recordRemove (head : UndoState V) (i : ℕ) (v : V) : UndoState V :=
  if head.new_ids.contains i then { head with new_ids := head.new_ids.erase i }
  else match head.old_values.find? i with
    | some was =>
      { head with
        removed_values := emplaceMap head.removed_values i was
        old_values := head.old_values.erase i }
    | none =>
      if head.removed_values.contains i then head
      else { head with removed_values := emplaceMap head.removed_values i v }

/-- The body of `on_create` on the top undo state. -/
def recordCreate (head : UndoState V) (i : ℕ) : UndoState V :=
  { head with new_ids := head.new_ids.insert i () }

/-- The hooks do nothing while no session is open. -/
def onTop (f : UndoState V → UndoState V) : List (UndoState V) → List (UndoState V)
  | [] => []
  | head :: rest => f head :: rest

end Hooks

variable (ks : List (UniqueKey V))

variable (g : GenericIndex V)

def emplace (v : V) : Except IndexError (GenericIndex V) :=
  match containerEmplace ks g.indices g.next_id v with
  | none => .error .insert_failed
  | some m => .ok { g with
      indices := m
      next_id := g.next_id + 1
      stack := onTop (recordCreate · g.next_id) g.stack }

def modify (i : ℕ) (f : V → V) : Except IndexError (GenericIndex V) :=
  match g.indices.find? i with
  | none => .error .end_iterator
  | some v =>
    match containerModify ks g.indices i (f v) with
    | (_, false) => .error .modify_failed
    | (m, true) => .ok { g with indices := m, stack := onTop (recordModify · i v) g.stack }

def remove (i : ℕ) : Except IndexError (GenericIndex V) :=
  match g.indices.find? i with
  | none => .error .end_iterator
  | some v => .ok { g with
      indices := g.indices.erase i
      stack := onTop (recordRemove · i v) g.stack }

/-- `start_undo_session( true )`. -/
def start_undo_session : GenericIndex V :=
  { g with
    stack := ⟨.empty, .empty, .empty, g.next_id, g.revision + 1⟩ :: g.stack
    revision := g.revision + 1 }

/-- The first loop of `undo`: the old values are written back in id order. -/
def restoreOld : List (ℕ × V) → OrdMap ℕ V → Except IndexError (OrdMap ℕ V)
  | [], m => .ok m
  | (i, was) :: rest, m =>
    match m.find? i with
    | none => .error .end_iterator
    | some _ =>
      match containerModify ks m i was with
      | (_, false) => .error .modify_failed
      | (m', true) => restoreOld rest m'

/-- The second loop of `undo`: the created objects are erased. -/
def eraseNew : List ℕ → OrdMap ℕ V → Except IndexError (OrdMap ℕ V)
  | [], m => .ok m
  | i :: rest, m =>
    match m.find? i with
    | none => .error .end_iterator
    | some _ => eraseNew rest (m.erase i)

/-- The third loop of `undo`: the removed objects are put back. -/
def restoreRemoved : List (ℕ × V) → OrdMap ℕ V → Except IndexError (OrdMap ℕ V)
  | [], m => .ok m
  | (i, was) :: rest, m =>
    match containerEmplace ks m i was with
    | none => .error .restore_failed
    | some m' => restoreRemoved rest m'

def undo : Except IndexError (GenericIndex V) :=
  match g.stack with
  | [] => .ok g
  | head :: rest => do
    let m1 ← restoreOld ks head.old_values.rows g.indices
    let m2 ← eraseNew head.new_ids.keys m1
    let m3 ← restoreRemoved ks head.removed_values.rows m2
    return {
      stack := rest
      revision := g.revision - 1
      next_id := head.old_next_id
      indices := m3 }

/-- One round of the first loop of `squash`. -/
def mergeOld (prev : UndoState V) (item : ℕ × V) : UndoState V :=
  if prev.new_ids.contains item.1 then prev
  else if prev.old_values.contains item.1 then prev
  else { prev with old_values := prev.old_values.insert item.1 item.2 }

/-- One round of the second loop of `squash`. -/
def mergeNew (prev : UndoState V) (i : ℕ) : UndoState V :=
  { prev with new_ids := prev.new_ids.insert i () }

/-- One round of the third loop of `squash`. -/
def mergeRemoved (prev : UndoState V) (obj : ℕ × V) : UndoState V :=
  if prev.new_ids.contains obj.1 then { prev with new_ids := prev.new_ids.erase obj.1 }
  else match prev.old_values.find? obj.1 with
    | some was =>
      { prev with
        removed_values := emplaceMap prev.removed_values obj.1 was
        old_values := prev.old_values.erase obj.1 }
    | none => { prev with removed_values := emplaceMap prev.removed_values obj.1 obj.2 }

/-- The merge of `state` into `prev_state`. The asserts of the source only fire on the entries its
table marks N/A and are compiled out of release builds. -/
def mergeState (prev state : UndoState V) : UndoState V :=
  let prev1 := state.old_values.rows.foldl mergeOld prev
  let prev2 := state.new_ids.keys.foldl mergeNew prev1
  state.removed_values.rows.foldl mergeRemoved prev2

/-- `squash`: on a stack of one state it drops the state and leaves the revision as it is. -/
def squash : GenericIndex V :=
  match g.stack with
  | [] => g
  | [_] => { g with stack := [] }
  | state :: prev :: rest =>
    { g with stack := mergeState prev state :: rest, revision := g.revision - 1 }

/-- `commit`: the states at the front of the deque with a revision up to `revision` go. -/
def commit (revision : ℤ) : GenericIndex V :=
  { g with stack := g.stack.rdropWhile fun u => decide (u.revision ≤ revision) }

/-- `undo_all`: one undo for each state on the stack. -/
def undo_all : Except IndexError (GenericIndex V) :=
  g.stack.foldlM (fun g _ => undo ks g) g

def set_revision (revision : ℤ) : Except IndexError (GenericIndex V) :=
  match g.stack with
  | [] => .ok { g with revision := revision }
  | _ :: _ => .error .revision_with_stack

/-- A call that changes the table. -/
inductive Call (V : Type) where
  | emplace (v : V)
  | modify (i : ℕ) (f : V → V)
  | remove (i : ℕ)

def call : Call V → Except IndexError (GenericIndex V)
  | .emplace v => emplace ks g v
  | .modify i f => modify ks g i f
  | .remove i => remove g i

/-- A sequence of calls, all of which succeed. -/
def calls (cs : List (Call V)) : Except IndexError (GenericIndex V) :=
  cs.foldlM (call ks) g

end GenericIndex

end Calibrd.Chainbase
