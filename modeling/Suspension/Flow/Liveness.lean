import Std.Data.ExtTreeSet
import Suspension.Flow.Graph

/-!
# Live slots

A slot is live on entry to a block if some path from there reads it before a store of the path defines
it.  The sets are the least solution of the usual backward equations: along an exception edge nothing
that the block stores counts as defined, since the exception may come before the store.

## Main definitions
* `Block.uses`, `Block.defs`: what a block reads before it defines it, and what it defines.
* `Liveness`, `Liveness.sweep`, `Liveness.compute`.
-/

namespace Suspension

/-- Sets of slots in ascending order. -/
abbrev SlotSet := Std.ExtTreeSet Slot

/-- The slots that a store defines: a value of two words also takes the slot above. -/
def definedSlots (slot : Slot) (tag : Option Tag) : List Slot :=
  if (tag.map Tag.isWide).getD false then [slot, if slot = 65535 then slot else slot + 1] else [slot]

/-- What a block reads before it defines it, and what it defines. -/
structure Accesses where
  uses : SlotSet := ∅
  defs : SlotSet := ∅
  deriving DecidableEq

namespace Accesses

/-- Adds a read. -/
def read (a : Accesses) (slot : Slot) : Accesses :=
  if slot ∈ a.defs then a else { a with uses := a.uses.insert slot }

/-- Adds what one operation reads or defines. -/
def step (a : Accesses) (op : SymOp) : Accesses :=
  match op with
  | .get slot _ => a.read slot
  | .inc slot => a.read slot
  | .read slot => a.read slot
  | .set slot tag => { a with defs := a.defs.insertMany (definedSlots slot tag) }
  | _ => a

end Accesses

/-- The accesses of a block. -/
def Block.accesses (b : Block) : Accesses := b.steps.foldl (fun a s => a.step s.op) {}

/-- The slots live on entry to each block, by place. -/
abbrev Liveness := List SlotSet

namespace Liveness

/-- The slots live on entry to the block at a place. -/
def liveIn (live : Liveness) (place : Nat) : SlotSet := live[place]?.getD ∅

/-- The slots live at the targets of the edges of one sort. -/
def liveAtTargets (live : Liveness) (edges : List Edge) : SlotSet :=
  edges.foldl (fun s e => s ∪ live.liveIn e.target) ∅

/-- The slots live on entry to a block, from those live on entry to the others. -/
def transfer (live : Liveness) (b : Block) : SlotSet :=
  let a := b.accesses
  let (thrown, out) := b.edges.partition (·.kind = .exception)
  (live.liveAtTargets out \ a.defs) ∪ a.uses ∪ live.liveAtTargets thrown

/-- One application of the equations to every block. -/
def sweep (g : Graph) (live : Liveness) : Liveness := g.blocks.map live.transfer

/-- Sweeps until nothing changes, at most the given number of times. -/
def iterate (g : Graph) : Nat → Liveness → Liveness
  | 0, live => live
  | n + 1, live =>
    let next := sweep g live
    if next = live then live else iterate g n next

/-- More sweeps than can change anything: each adds a slot that some block reads to some block. -/
def sweepBound (g : Graph) : Nat :=
  g.blocks.length * total (fun b => b.accesses.uses.size) g.blocks + 1

/-- The slots live on entry to each block of a graph. -/
def compute (g : Graph) : Liveness := iterate g (sweepBound g) (g.blocks.map fun _ => ∅)

end Liveness

end Suspension
