import Suspension.Flow.Liveness
import Suspension.Analysis.Metrics

/-!
# Shapes

The shape of a method is what is known of its slots and its stack at every suspension site and at every
label.  It is found by visiting each reachable block once, from the frame of the first predecessor that
leads to it, and checking every other edge afterwards.  Where an edge brings another class into a
reference that the block was entered with, the class is forgotten at the entry of the block, and all
blocks are visited again, until no edge asks for more.

## Main definitions
* `Visit`: what interpreting one block yields.
* `Pass`, `Pass.traverse`: one visit of every reachable block.
* `Widening`, `Pass.check`: the check of the edges that did not enter a block first.
* `Shape`, `Shape.ofMethod`: the result.
-/

namespace Suspension

/-- What is known at a label; a handler may have been retyped by its first store. -/
structure LabelSnapshot where
  handler : Bool
  types : SymFrame
  deriving DecidableEq

/-- What is known at the suspension sites (nothing, if they cannot be reached) and at the labels that
can be reached, and which stores retyped a handler. -/
structure Shape where
  sites : List (Option SymFrame) := []
  labels : Std.ExtTreeMap Label LabelSnapshot := ∅
  retypeAt : Std.ExtTreeMap Nat Label := ∅
  deriving DecidableEq

namespace Shape

/-- What is known at a suspension site. -/
def site? (s : Shape) (site : Nat) : Option SymFrame := s.sites[site]?.join

end Shape

/-! ## Interpreting one block -/

/-- What the operations of a block leave behind: a frame, the snapshots taken, and the first store with
its place, its slot and the tag it recorded. -/
structure Trail where
  frame : SymFrame
  snapshots : List (Nat × SymFrame) := []
  firstStore : Option (Nat × Slot × Tag) := none
  deriving DecidableEq

namespace Trail

/-- Follows one step. -/
def follow (t : Trail) (s : Step) : Except AnalysisError Trail :=
  match s.op.apply t.frame with
  | .error f _ => .error (f.locate s.place)
  | .ok _ frame =>
    .ok {
      frame
      snapshots := match s.op with
        | .suspend site => t.snapshots ++ [(site, t.frame)]
        | _ => t.snapshots
      firstStore := match t.firstStore, s.op with
        | none, .set slot _ => (frame.locals[slot]?).map fun tag => (s.place, slot, tag)
        | first, _ => first }

end Trail

/-- The interpretation of one block: the frame it starts from and what its operations leave. -/
structure Visit where
  opening : SymFrame
  trail : Trail
  deriving DecidableEq

namespace Block

/-- The frame that a block is interpreted from: a handler finds the exception alone on the stack. -/
def opening (b : Block) (metrics : Metrics) (entry : SymFrame) : SymFrame :=
  if b.handler then
    { entry with stack := [.ref ((b.label.bind metrics.caughtBy).getD throwableClass)] }
  else entry

/-- The announcement of a visit. -/
def visiting (b : Block) (number : Nat) (opening : SymFrame) : Event :=
  ⟨.trace, "interpreting node",
    [("node", .count number), ("start", .count b.start), ("locals", .count opening.locals.size),
      ("stack", .count opening.stack.length)]⟩

/-- Interprets the operations of a block from a frame. -/
def interpret (b : Block) (opening : SymFrame) : Except AnalysisError Visit := do
  return ⟨opening, ← b.steps.foldlM Trail.follow { frame := opening }⟩

/-- What is known at the label of a visited block: for a handler, the frame with its first store. -/
def snapshot (b : Block) (v : Visit) : LabelSnapshot :=
  match b.handler, v.trail.firstStore with
  | true, some (_, slot, tag) => ⟨true, v.opening.setLocal slot tag⟩
  | handler, _ => ⟨handler, v.opening⟩

end Block

/-! ## Visiting every block -/

/-- A place in an entry frame where the class of a reference is forgotten; stack entries are counted
from the bottom. -/
inductive Widening where
  | slot (s : Slot)
  | stack (index : Nat)
  deriving DecidableEq, Repr

/-- Widenings by the place of the block. -/
abbrev Widenings := List (Nat × Widening)

/-- Forgets one class. -/
def Widening.apply (f : SymFrame) : Widening → SymFrame
  | .slot s => f.widenLocal s
  | .stack index => f.widenStack index

/-- The frame that an edge delivers, from the frame at the end of its block. -/
def EdgeKind.deliver (exit : SymFrame) : EdgeKind → SymFrame
  | .branch | .fallthrough => exit
  | .subroutine => { exit with stack := .address :: exit.stack }
  | .exception => exit.clearStack

/-- How a block was entered: its frame, and the edge that came first (none for the entry). -/
structure Entry where
  frame : SymFrame
  via : Option (Nat × EdgeKind)
  deriving DecidableEq

/-- A traversal under way: the blocks entered, those visited, and those still to be visited, the next
one first. -/
structure Pass where
  entries : Std.ExtTreeMap Nat Entry := ∅
  visits : Std.ExtTreeMap Nat Visit := ∅
  pending : List Nat := []
  deriving DecidableEq

namespace Pass

/-- Enters a block that was not entered before. -/
def enter (p : Pass) (widened : Widenings) (place : Nat) (frame : SymFrame)
    (via : Option (Nat × EdgeKind)) : Pass :=
  let frame := (widened.filter (·.1 = place)).foldl (fun f w => w.2.apply f) frame
  { p with entries := p.entries.insert place ⟨frame, via⟩, pending := place :: p.pending }

/-- Follows the edges out of the block at `place`; blocks entered before are left alone. -/
def spread (p : Pass) (widened : Widenings) (place : Nat) (exit : SymFrame) (edges : List Edge) :
    Pass :=
  edges.foldl (fun p e =>
    if e.target ∈ p.entries then p
    else p.enter widened e.target (e.kind.deliver exit) (some (place, e.kind))) p

/-- Visits pending blocks, the one entered last first, and at most the given number of them. -/
def traverse (g : Graph) (metrics : Metrics) (widened : Widenings) :
    Nat → Pass → Reported AnalysisError Pass
  | 0, p => return p
  | n + 1, p =>
    match p.pending with
    | [] => return p
    | place :: pending =>
      match g.block? place, p.entries[place]? with
      | some b, some entry => do
        let opening := b.opening metrics entry.frame
        Reported.report (b.visiting (g.number place) opening)
        let visit ← Reported.ofExcept (b.interpret opening)
        let visited := { p with visits := p.visits.insert place visit, pending }
        traverse g metrics widened n (visited.spread widened place visit.trail.frame b.edges)
      | _, _ => traverse g metrics widened n { p with pending }

/-- Visits every block that can be reached from the entry, which starts from `root`. -/
def ofGraph (g : Graph) (metrics : Metrics) (widened : Widenings) (root : SymFrame) :
    Reported AnalysisError Pass :=
  traverse g metrics widened (g.blocks.length + 1) (({} : Pass).enter widened 0 root none)

/-- The shape that a traversal found. -/
def shape (p : Pass) (g : Graph) : Shape :=
  let visits := p.visits.toList
  let snapshots := visits.flatMap fun v => v.2.trail.snapshots
  let labelled := visits.filterMap fun v => do
    let b ← g.block? v.1
    let l ← b.label
    return (b, l, v.2)
  { sites := (List.range g.sites.length).map fun site => snapshots.lookup site
    labels := labelled.foldl (fun m (b, l, v) => m.insert l (b.snapshot v)) ∅
    retypeAt := labelled.foldl (fun m (b, l, v) =>
      match b.handler, v.trail.firstStore with
      | true, some (place, _, _) => m.insert place l
      | _, _ => m) ∅ }

/-! ## Checking the other edges -/

/-- The announcement of a live slot on which two edges disagree. -/
def divergent (place : Nat) (slot : Slot) (expected found : Option Tag) : Event :=
  ⟨.warn, "divergent local at join, keeping the first predecessor's type",
    [("at", .count place), ("slot", .count slot.toNat),
      ("expected", .text (optionDiagnostic (expected.map Tag.diagnostic))),
      ("found", .text (optionDiagnostic (found.map Tag.diagnostic)))]⟩

/-- The slots whose class an edge asks to be forgotten. -/
def slotWidenings (entry incoming : SymFrame) : List Widening :=
  entry.locals.toList.filterMap fun (slot, expected) =>
    match incoming.locals[slot]? with
    | some found => if needsWidening expected found then some (.slot slot) else none
    | none => none

/-- The stack entries whose class an edge asks to be forgotten. -/
def stackWidenings (entry incoming : SymFrame) : List Widening :=
  (entry.stack.reverse.zip incoming.stack.reverse).zipIdx.filterMap fun ((expected, found), index) =>
    if needsWidening expected found then some (.stack index) else none

/-- Whether two stacks hold values of the same kinds. -/
def sameKinds (a b : List Tag) : Bool := a.map Tag.kind = b.map Tag.kind

/-- Whether two views of one slot may meet. -/
def agree : Option Tag → Option Tag → Bool
  | some a, some b => a.kind = b.kind
  | none, none => true
  | _, _ => false

/-- Checks the live slots at a join whose block starts at `place`. -/
def checkSlots (policy : JoinPolicy) (place : Nat) (entry incoming : SymFrame) :
    List Slot → Reported AnalysisError Unit
  | [] => return ()
  | slot :: rest => do
    let expected := entry.locals[slot]?
    let found := incoming.locals[slot]?
    unless agree expected found do
      match policy with
      | .reject => Reported.fail (.divergentLocal place slot expected found)
      | .firstPredecessor => Reported.report (divergent place slot expected found)
    checkSlots policy place entry incoming rest

/-- Checks one edge out of the block at `place`, which ends in `exit`, and collects the widenings that
it asks for.  The edge by which its target was entered is left out, an exception edge is checked for
classes only, and the stack is not compared where the target is a handler. -/
def checkEdge (p : Pass) (g : Graph) (live : Liveness) (policy : JoinPolicy) (place : Nat)
    (exit : SymFrame) (e : Edge) : Reported AnalysisError Widenings :=
  match p.entries[e.target]?, g.block? e.target with
  | some entry, some target =>
    if entry.via = some (place, e.kind) then return []
    else
      let incoming := e.kind.deliver exit
      let slots := (slotWidenings entry.frame incoming).map (e.target, ·)
      if e.kind = .exception then return slots
      else do
        if !target.handler && !sameKinds entry.frame.stack incoming.stack then
          Reported.fail (.divergentStack target.start entry.frame.stack.reverse
            incoming.stack.reverse)
        let stack := if target.handler then [] else stackWidenings entry.frame incoming
        checkSlots policy target.start entry.frame incoming (live.liveIn e.target).toList
        return slots ++ stack.map (e.target, ·)
  | _, _ => return []

/-- Checks the edges out of one block. -/
def checkEdges (p : Pass) (g : Graph) (live : Liveness) (policy : JoinPolicy) (place : Nat)
    (exit : SymFrame) : List Edge → Reported AnalysisError Widenings
  | [] => return []
  | e :: rest => do
    let first ← p.checkEdge g live policy place exit e
    return first ++ (← checkEdges p g live policy place exit rest)

/-- Checks the edges out of the visited blocks among those at the given places. -/
def check (p : Pass) (g : Graph) (live : Liveness) (policy : JoinPolicy) :
    List Nat → Reported AnalysisError Widenings
  | [] => return []
  | place :: rest => do
    let first ← match p.visits[place]?, g.block? place with
      | some visit, some b => p.checkEdges g live policy place visit.trail.frame b.edges
      | _, _ => pure []
    return first ++ (← check p g live policy rest)

end Pass

/-! ## Until nothing more is forgotten -/

namespace Widenings

/-- Adds widenings that are not there yet. -/
def add (ws : Widenings) (more : Widenings) : Widenings :=
  more.foldl (fun ws w => if w ∈ ws then ws else ws ++ [w]) ws

end Widenings

namespace Shape

/-- The announcement of another round. -/
def again (method : Method) : Event :=
  ⟨.trace, "reference join widened, interpreting again", [("method", .text method.name)]⟩

/-- The announcement of the shape of a method. -/
def finished (method : Method) (s : Shape) (widened : Widenings) : Event :=
  ⟨.trace, "shape analysis finished",
    [("method", .text method.name), ("labels", .count s.labels.size),
      ("retyped", .count s.retypeAt.size), ("widened", .count widened.length)]⟩

/-- Rounds of visits and checks until a round asks for no new widening, at most the given number. -/
def rounds (g : Graph) (live : Liveness) (method : Method) (metrics : Metrics) (policy : JoinPolicy)
    (root : SymFrame) : Nat → Widenings → Reported AnalysisError Shape
  | n, widened => do
    let p ← Pass.ofGraph g metrics widened root
    let asked ← p.check g live policy (List.range g.blocks.length)
    let more := widened.add asked
    match n with
    | n + 1 =>
      if more = widened then
        Reported.report (finished method (p.shape g) widened)
        return p.shape g
      else
        Reported.report (again method)
        rounds g live method metrics policy root n more
    | 0 => return p.shape g

/-- At most this many entries are added to a stack by a visit: an operation pushes no more than two. -/
def visitBound (g : Graph) : Nat := 2 * total (·.steps.length) g.blocks + 2

/-- More entries than a stack can hold, since no block is visited twice. -/
def stackBound (g : Graph) : Nat := (g.blocks.length + 1) * visitBound g

/-- More rounds than can be needed: each asks for a place of some block that no round before it asked
for. -/
def roundBound (g : Graph) : Nat := g.blocks.length * (65536 + stackBound g) + 1

/-- The shape of a method of class `className`, given its metrics. -/
def ofMethod (className : String) (method : Method) (config : Config) (metrics : Metrics) :
    Reported AnalysisError Shape := do
  let g ← Graph.ofMethod className method config
  if g.sites.length ≠ metrics.siteCount then
    Reported.fail (.siteCountMismatch metrics.siteCount g.sites.length)
  let root ← Reported.ofExcept (SymFrame.root className method)
  rounds g (Liveness.compute g) method metrics config.joinPolicy root (roundBound g) []

end Shape

end Suspension
