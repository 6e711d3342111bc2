import Calibrd.Chain.Branches
import Calibrd.Chain.HeaderChain
import Calibrd.Lib.Runs

/-!
# Fork databases that pushes build

Pushes add items and links, and nothing else changes a fork database that only pushes have built, so
what `Branches` says of `fetch_branch_from` holds in each of them.
-/

namespace Calibrd.Chain

open Calibrd.Lib

variable {B : BlockSpec}

namespace ForkDatabase

/-- A fork database after some pushes, which starts empty or with the head block of the node. -/
def built (start : Option B.Block) (pushes : List B.Block) : ForkDatabase B :=
  runCalls ForkDatabase.push_block (start.elim init init.start_block) pushes

theorem built_heapOk (start : Option B.Block) (pushes : List B.Block) :
    HeapOk (fun _ => True) (built start pushes).heap := by
  refine runCalls_rule_all (P := fun f : ForkDatabase B => HeapOk (fun _ => True) f.heap)
    (fun hf hpush => hf.push trivial hpush) ?_ pushes
  cases start with
  | none => exact .nil _
  | some b =>
    have hheap : (init.start_block b : ForkDatabase B).heap = [⟨b, none, false⟩] := by
      simp only [start_block, insertIndex_heap]
      rfl
    dsimp only [Option.elim]
    rw [hheap]
    refine ⟨fun _ _ => trivial, fun item hitem p hp => ?_⟩
    cases List.mem_singleton.1 hitem
    cases hp

end ForkDatabase

namespace HeaderChain

/-- The first block, two blocks on it, and a block on the second of these. -/
def root : Header := ⟨.zero, 1, 0⟩

def left : Header := ⟨blocks.id root, 2, 0⟩

def right : Header := ⟨blocks.id root, 2, 1⟩

def tip : Header := ⟨blocks.id right, 3, 0⟩

def forked : ForkDatabase blocks := .built none [root, left, right, tip]

end HeaderChain

end Calibrd.Chain
