import Suspension.Machine.Run

/-!
# Driving a suspendable object

A runner enters the configured method of one object again and again: first from the top, then from the
contexts that earlier runs were suspended in.  The signals by which a run is suspended do not get out of
it; each is read as an outcome.

## Main definitions
* `Outcome`: how a run of the entry method ended.
* `Runner`, `Runner.create`: the object, its class, and the world that it starts in.
* `Runner.start`, `Runner.resume`, `Runner.answer`: the runs.
* `Runner.drive`: one run after the other.
-/

namespace Suspension

/-- How a run of the entry method ended: it is complete, or a flow was captured in a context at one of the
four sorts of sites, or some other exception left the method. -/
inductive Outcome where
  | completed (v : Option Value)
  | paused (context : ContextId)
  | steppedBack (context : ContextId) (previous : Option ContextId)
  | called (context : ContextId) (target : Value)
  | answered (context : ContextId) (v : Value)
  | threw (exc : ObjectId)
  deriving DecidableEq, Repr

namespace Outcome

/-- The context in which a flow was captured. -/
def context? : Outcome → Option ContextId
  | .completed _ | .threw _ => none
  | .paused c | .steppedBack c _ | .called c _ | .answered c _ => some c

/-- An outcome in diagnostics. -/
def diagnostic : Outcome → String
  | .completed v => "Completed(" ++ optionDiagnostic (v.map Value.diagnostic) ++ ")"
  | .paused c => "Paused(" ++ c.diagnostic ++ ")"
  | .steppedBack c previous =>
    captured "SteppedBack" c "previous" (optionDiagnostic (previous.map ContextId.diagnostic))
  | .called c target => captured "Called" c "target" target.diagnostic
  | .answered c v => captured "Answered" c "value" v.diagnostic
  | .threw exc => "Threw(" ++ exc.diagnostic ++ ")"
where
  captured (name : String) (c : ContextId) (detail text : String) : String :=
    name ++ " \x7b context: " ++ c.diagnostic ++ ", " ++ detail ++ ": " ++ text ++ " \x7d"

end Outcome

/-- An object with its class and its entry method.  A run without a budget is given up after `patience`
instructions. -/
structure Runner where
  cls : Class
  entryName : String
  entryDescriptor : String
  receiver : ObjectId
  patience : Nat
  deriving DecidableEq

namespace Runner

variable {σ : Type}

/-- A runner for a new object of a class, and the world in which that object is the only one. -/
def create (cls : Class) (config : Config) (patience : Nat) (outside : σ) : Runner × World σ :=
  let (receiver, heap) := Heap.alloc {} (.new cls.name)
  (⟨cls, config.entryName, config.entryDescriptor, receiver, patience⟩, { heap, outside })

/-- The entry method. -/
def entry (r : Runner) : Except ExecError Method :=
  match r.cls.method? r.entryName r.entryDescriptor with
  | some m => .ok m
  | none => .error (noSuchMethod ⟨r.cls.name, r.entryName, r.entryDescriptor⟩)

/-- The context that a signal carries. -/
def signalContext (heap : Heap) (exc : ObjectId) : Except ExecError ContextId :=
  match heap.field? exc Service.contextField with
  | some (.ref (some r)) => do
    match ← heap.get r with
    | .handle .context id => return id
    | _ => throw (.typeMismatch .context (.object r))
  | other => .error (.typeMismatch .context (other.getD .null))

/-- Reads an exception that left the entry method. -/
def decode (w : World σ) (exc : ObjectId) : Except ExecError Outcome := do
  match Service.siteOfSignal? (← w.heap.classOf exc) with
  | none => return .threw exc
  | some kind =>
    let context ← signalContext w.heap exc
    let payload := (w.heap.field? exc Service.payloadField).getD .null
    match kind with
    | .pause => return .paused context
    | .stepBack => return .steppedBack context (← w.contexts.get context).parent
    | .call => return .called context payload
    | .answer => return .answered context payload

/-- The announcement of the end of a run. -/
def finished (r : Runner) (o : Outcome) : Event :=
  ⟨.debug, "run finished", [("class", .text r.cls.name), ("outcome", .text o.diagnostic)]⟩

/-- Runs the entry method with the given parameters. -/
def run (r : Runner) (host : Host σ) (params : List Value) : WorldM σ Outcome := do
  let method ← r.entry
  let receiver : List Value := if method.isStatic then [] else [.object r.receiver]
  let outcome ← match ← World.execute r.cls host r.patience method (receiver ++ params) with
    | .returned v => pure (.completed v)
    | .threw exc => do decode (← get) exc
  World.report (r.finished outcome)
  return outcome

/-- Runs the entry method from the top, on a fresh context. -/
def start (r : Runner) (host : Host σ) (params : List Value) : WorldM σ Outcome := do
  World.resetContexts
  r.run host params

/-- Continues a flow from a copy of the context that it was captured in. -/
def resume (r : Runner) (host : Host σ) (context : ContextId) : WorldM σ Outcome := do
  let _ ← World.resume context
  r.run host []

/-- Continues a flow that waits for an answer. -/
def answer (r : Runner) (host : Host σ) (context : ContextId) (v : Value) : WorldM σ Outcome := do
  let _ ← World.answer context v
  r.run host []

/-- Continues a flow again and again as long as it pauses, at most the given number of times.  Every end of
a run is listed, and the last of them may be a failure. -/
def drive (r : Runner) (host : Host σ) :
    Nat → ContextId → World σ → List (Except ExecError Outcome) × World σ
  | 0, _, w => ([], w)
  | n + 1, context, w =>
    match r.resume host context w with
    | .error e w => ([.error e], w)
    | .ok (.paused next) w =>
      let (more, w) := drive r host n next w
      (.ok (.paused next) :: more, w)
    | .ok o w => ([.ok o], w)

end Runner

end Suspension
