import Suspension.Flow.SymOp
import Suspension.Reported

/-!
# Control-flow graphs

The stream of a method is cut into blocks: one starts at every label, and one after every instruction
that ends a block.  A block is known by its place in the stream order.  Edges lead from a block to the
targets of its last instruction, to the block after it, and to every handler whose region covers its
start.

## Main definitions
* `Stretch`, `Stretch.split`: the blocks before they are connected.
* `Edge`, `Block`, `Graph`, `Graph.build`.
* `Graph.number`: the number under which a block is announced.
-/

namespace Suspension

/-- A stretch of instructions entered only at its start; a label in front is not part of the body. -/
structure Stretch where
  label : Option Label
  start : Nat
  body : List (Nat × Instr)
  deriving DecidableEq, Repr

namespace Stretch

/-- Puts an instruction in front of a stream that is already cut: it joins the first stretch unless
that one starts with a label of its own. -/
def prepend (place : Nat) (i : Instr) : List Stretch → List Stretch
  | ⟨none, _, body⟩ :: rest => ⟨none, place, (place, i) :: body⟩ :: rest
  | rest => ⟨none, place, [(place, i)]⟩ :: rest

/-- Puts a label in front of a stream that is already cut. -/
def prependLabel (place : Nat) (l : Label) : List Stretch → List Stretch
  | ⟨none, _, body⟩ :: rest => ⟨some l, place, body⟩ :: rest
  | rest => ⟨some l, place, []⟩ :: rest

/-- The stretches of a stream whose first instruction is at `place`. -/
def split : Nat → List Instr → List Stretch
  | _, [] => []
  | place, i :: rest =>
    match i with
    | .label l => prependLabel place l (split (place + 1) rest)
    | i =>
      if i.endsBlock then ⟨none, place, [(place, i)]⟩ :: split (place + 1) rest
      else prepend place i (split (place + 1) rest)

/-- Whether control may run out of the end of a stretch into the next one. -/
def fallsThrough (s : Stretch) : Bool :=
  match s.body.getLast? with
  | some (_, i) => i.fallsThrough
  | none => true

end Stretch

/-- How control takes an edge. -/
inductive EdgeKind where
  | branch
  | fallthrough
  | subroutine
  | exception
  deriving DecidableEq, Repr

/-- An edge to the block at a place. -/
structure Edge where
  target : Nat
  kind : EdgeKind
  deriving DecidableEq, Repr

/-- An operation with the place of the instruction that it comes from. -/
structure Step where
  place : Nat
  op : SymOp
  deriving DecidableEq, Repr

/-- A block: where it starts, whether it handles exceptions, what it does, and where control goes from
it: by a jump or an exception, or by running on. -/
structure Block where
  label : Option Label
  start : Nat
  handler : Bool
  steps : List Step
  jumps : List Edge
  next : Option Nat
  deriving DecidableEq, Repr

/-- All edges out of a block, the one to the block after it last. -/
def Block.edges (b : Block) : List Edge :=
  b.jumps ++ (b.next.map (⟨·, .fallthrough⟩)).toList

/-- The blocks of a method in stream order, the entry first, and its suspension sites in order. -/
structure Graph where
  blocks : List Block
  sites : List SiteKind
  deriving DecidableEq, Repr

namespace Graph

/-- The place of the block that a label starts. -/
def place? (blocks : List Stretch) (l : Label) : Option Nat :=
  blocks.findIdx? fun b => b.label = some l

/-- The place of the block that a label starts, which has to be there. -/
def resolve (blocks : List Stretch) (l : Label) : Except AnalysisError Nat :=
  match place? blocks l with
  | some place => .ok place
  | none => .error (.unknownLabel l)

/-- The first label that was defined before. -/
def firstRepeat? (seen : List Label) : List Label → Option Label
  | [] => none
  | l :: rest => if l ∈ seen then some l else firstRepeat? (l :: seen) rest

/-- The edges that the last instruction of a block takes by jumping. -/
def jumpEdges (blocks : List Stretch) (i : Instr) : Except AnalysisError (List Edge) :=
  let kind : EdgeKind := match i with | .jump .jsr _ => .subroutine | _ => .branch
  i.targets.mapM fun l => do return ⟨← resolve blocks l, kind⟩

/-- A body as far as it is lowered: its steps, its jumps, and its suspension sites. -/
structure Lowered where
  steps : List Step
  jumps : List Edge
  sites : List SiteKind

/-- Lowers a body whose first suspension site gets the number `site`. -/
def lower (className : String) (config : Config) (blocks : List Stretch) :
    (site : Nat) → List (Nat × Instr) → Except AnalysisError Lowered
  | _, [] => return ⟨[], [], []⟩
  | site, (place, i) :: rest => do
    let effect ← AnalysisError.ofDescriptor (i.effect className config site)
    let jumps ← jumpEdges blocks i
    let more ← lower className config blocks (site + effect.site?.toList.length) rest
    return ⟨effect.ops.map (⟨place, ·⟩) ++ more.steps, jumps ++ more.jumps,
      effect.site?.toList ++ more.sites⟩

/-- Lowers the stretches from `place` on, whose first suspension site gets the number `site`. -/
def lowerAll (className : String) (config : Config) (blocks : List Stretch) :
    (place site : Nat) → List Stretch → Except AnalysisError (List Block × List SiteKind)
  | _, _, [] => return ([], [])
  | place, site, s :: rest => do
    let lowered ← lower className config blocks site s.body
    let next := if s.fallsThrough && !rest.isEmpty then some (place + 1) else none
    let more ← lowerAll className config blocks (place + 1) (site + lowered.sites.length) rest
    return (⟨s.label, s.start, false, lowered.steps, lowered.jumps, next⟩ :: more.1,
      lowered.sites ++ more.2)

/-- A protected region by the places of instructions and of its handler block. -/
structure Span where
  start : Nat
  stop : Nat
  handler : Nat
  deriving DecidableEq, Repr

/-- Resolves the labels of a region. -/
def span (blocks : List Stretch) (r : Region) : Except AnalysisError Span := do
  let start ← resolve blocks r.start
  let stop ← resolve blocks r.stop
  let handler ← resolve blocks r.handler
  let startOf (place : Nat) : Nat := (blocks[place]?.map (·.start)).getD 0
  return ⟨startOf start, startOf stop, handler⟩

/-- Adds the edges to the handlers of the regions that cover the start of a block, and marks the
handlers. -/
def protect (spans : List Span) (place : Nat) (b : Block) : Block :=
  { b with
    handler := spans.any (·.handler = place)
    jumps := b.jumps ++
      (spans.filter fun s => s.start ≤ b.start && b.start < s.stop).map (⟨·.handler, .exception⟩) }

/-- The graph of a method, without announcing it.  A method without instructions has one empty
block. -/
def build (className : String) (method : Method) (config : Config) :
    Except AnalysisError Graph := do
  let stretches := Stretch.split 0 method.code.instrs
  if let some l := firstRepeat? [] (stretches.filterMap (·.label)) then
    throw (.duplicateLabel l)
  let (blocks, sites) ← lowerAll className config stretches 0 0 stretches
  let spans ← method.code.regions.mapM (span stretches)
  let blocks := if blocks.isEmpty then [⟨none, 0, false, [], [], none⟩] else blocks
  return ⟨blocks.mapIdx (protect spans), sites⟩

/-- The announcement of a graph. -/
def built (g : Graph) : Event :=
  ⟨.trace, "built control-flow graph",
    [("nodes", .count g.blocks.length), ("suspensions", .count g.sites.length)]⟩

/-- The graph of a method. -/
def ofMethod (className : String) (method : Method) (config : Config) :
    Reported AnalysisError Graph := do
  let g ← Reported.ofExcept (build className method config)
  Reported.report g.built
  return g

/-- The block at a place. -/
def block? (g : Graph) (place : Nat) : Option Block := g.blocks[place]?

/-- The place of the block that a label starts. -/
def find (g : Graph) (l : Label) : Except AnalysisError Nat :=
  match g.blocks.findIdx? fun b => b.label = some l with
  | some place => .ok place
  | none => .error (.unknownLabel l)

/-- The number under which the block at a place is announced: blocks with a label come first. -/
def number (g : Graph) (place : Nat) : Nat :=
  let before := g.blocks.take place
  match g.block? place with
  | some ⟨some _, _, _, _, _, _⟩ => before.countP (·.label.isSome)
  | _ => g.blocks.countP (·.label.isSome) + before.countP (·.label.isNone)

end Graph

end Suspension
