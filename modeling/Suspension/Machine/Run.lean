import Suspension.Machine.Step

/-!
# Runs

A run is a frame with the frames that wait for it, in one world.  It goes on one instruction at a time
until it has completed or failed.

## Main definitions
* `Run`, `Caller`: a run under way.
* `Progress`: a run that goes on, has completed, or has failed.
* `Run.advance`: one instruction, with all that follows from it.
* `World.execute`: a whole run of one method.
-/

namespace Suspension

/-- How a method was left. -/
inductive Completion where
  | returned (v : Option Value)
  | threw (exc : ObjectId)
  deriving DecidableEq, Repr

/-- A frame that waits for a call, and the type of the result that it waits for. -/
structure Caller where
  frame : Frame
  result : Option Tag
  deriving DecidableEq

/-- A run under way, with the frames that wait, the innermost first. -/
structure Run (σ : Type) where
  frame : Frame
  callers : List Caller := []
  world : World σ

/-- What became of a run. -/
inductive Progress (σ : Type) where
  | running (r : Run σ)
  | completed (c : Completion) (world : World σ)
  | failed (e : ExecError) (world : World σ)

variable {σ : Type}

/-- Whether a region of the method of a frame covers a place. -/
def Frame.covers (f : Frame) (r : Region) (place : Nat) : Except ExecError Bool := do
  if (← f.target r.start) ≤ place then return place < (← f.target r.stop) else return false

/-- Whether a region catches an exception. -/
def Region.catches (r : Region) (host : Host σ) (world : World σ) (exc : ObjectId) :
    Except ExecError Bool :=
  match r.catchType with
  | none => .ok true
  | some c => world.instanceOf host exc c

/-- The place of the handler for an exception raised at a place: the first region that covers the place
and catches the exception decides. -/
def Frame.handlerFor (f : Frame) (host : Host σ) (world : World σ) (place : Nat) (exc : ObjectId) :
    List Region → Except ExecError (Option Nat)
  | [] => return none
  | r :: rest => do
    if ← f.covers r place then
      if ← r.catches host world exc then
        return some (← f.target r.handler)
    handlerFor f host world place exc rest

namespace Run

/-- Takes an exception to the innermost handler for it, and drops the frames that have none.  The
instruction that raised it, or the call through which it arrives, is the one before `pc`. -/
def unwind (host : Host σ) (world : World σ) (exc : ObjectId) : Frame → List Caller → Progress σ
  | frame, callers =>
    match frame.handlerFor host world (frame.pc - 1) exc frame.method.code.regions, callers with
    | .error e, _ => .failed e world
    | .ok (some pc), callers => .running ⟨frame.catching exc pc, callers, world⟩
    | .ok none, [] => .completed (.threw exc) world
    | .ok none, c :: callers => unwind host world exc c.frame callers

/-- Leaves a method. -/
def leave (world : World σ) (v : Option Value) : List Caller → Progress σ
  | [] => .completed (.returned v) world
  | c :: callers => .running ⟨c.frame.receive c.result v, callers, world⟩

/-- Goes where an instruction leads. -/
def go (host : Host σ) (r : Run σ) : Flow → Progress σ
  | .next => .running r
  | .jump l =>
    match r.frame.target l with
    | .ok pc => .running { r with frame := { r.frame with pc } }
    | .error e => .failed e r.world
  | .goTo pc => .running { r with frame := { r.frame with pc } }
  | .leave v => leave r.world v r.callers
  | .raise exc => unwind host r.world exc r.frame r.callers
  | .enter callee args result =>
    match Frame.enter callee args with
    | .ok frame => .running ⟨frame, ⟨r.frame, result⟩ :: r.callers, r.world⟩
    | .error e => .failed e r.world

/-- The next instruction. -/
def fetch (f : Frame) : Except ExecError Instr :=
  match f.method.code.instrs[f.pc]? with
  | some i => .ok i
  | none => .error .fellOffEnd

/-- Pays for an instruction, fetches it, and carries it out. -/
def step (cls : Class) (host : Host σ) : StepM σ Flow := do
  inWorld World.burn
  let i ← fetch (← get).frame
  modify fun s => { s with frame := { s.frame with pc := s.frame.pc + 1 } }
  i.step cls host

/-- One instruction, with all that follows from it. -/
def advance (cls : Class) (host : Host σ) (r : Run σ) : Progress σ :=
  match step cls host ⟨r.frame, r.world⟩ with
  | .ok flow s => go host ⟨s.frame, r.callers, s.world⟩ flow
  | .error e s => .failed e s.world

/-- At most the given number of instructions. -/
def follow (cls : Class) (host : Host σ) : Nat → Run σ → Progress σ
  | 0, r => .running r
  | n + 1, r =>
    match r.advance cls host with
    | .running r => follow cls host n r
    | finished => finished

end Run

namespace World

/-- Runs a method of a class to its end, with its arguments in the first slots.  A run with a budget has
ended before the budget is overdrawn, and any other is given up after `patience` instructions. -/
def execute (cls : Class) (host : Host σ) (patience : Nat) (method : Method) (args : List Value) :
    WorldM σ Completion := fun world =>
  match Frame.enter method args with
  | .error e => .error e world
  | .ok frame =>
    match ({ frame, world } : Run σ).follow cls host (world.fuel.getD patience + 1) with
    | .completed c world => .ok c world
    | .failed e world => .error e world
    | .running r => .error .impatience r.world

end World

end Suspension
