import Suspension.Arena
import Suspension.Reported
import Suspension.Machine.Store

/-!
# Captured contexts

A context holds what is needed to continue a flow.  A captured context is never continued itself: a
copy of it is queued, and the next run takes the copy, so the flow can be continued from the captured
one again.

## Main definitions
* `Context`, `Contexts`.
* `Contexts.createOrReset`, `Contexts.resume`, `Contexts.answer`, `Contexts.deactivate`.
-/

namespace Suspension

/-- The label of a context that continues nowhere. -/
def noLabel : Int32 := -1

/-- What is needed to continue a flow: the context it is a copy of, the site, the two stores, the answer
that was handed over, and whether the flow is complete. -/
structure Context where
  parent : Option ContextId := none
  label : Int32 := noLabel
  vars : Store := {}
  stack : Store := {}
  callAnswer : Option Value := none
  registered : Bool := false
  deriving DecidableEq

/-- All live contexts, the queued copy, and the context handed out last. -/
structure Contexts where
  table : Arena Context := {}
  pending : Option ContextId := none
  current : Option ContextId := none
  deriving DecidableEq

namespace Contexts

/-- The live context of an id. -/
def get? (cs : Contexts) (id : ContextId) : Option Context := cs.table.get? id.index

/-- The live context of an id, which has to be there. -/
def get (cs : Contexts) (id : ContextId) : Except ExecError Context :=
  match cs.get? id with
  | some c => .ok c
  | none => .error (.unknownContext id)

/-- Whether an id is live. -/
def contains (cs : Contexts) (id : ContextId) : Bool := cs.table.contains id.index

/-- Replaces a live context. -/
def set (cs : Contexts) (id : ContextId) (c : Context) : Contexts :=
  { cs with table := cs.table.set id.index c }

/-- Changes a live context, which has to be there. -/
def modify (cs : Contexts) (id : ContextId) (f : Context → Context) : Except ExecError Contexts := do
  return cs.set id (f (← cs.get id))

/-- Adds a context under a new id. -/
def add (cs : Contexts) (c : Context) : ContextId × Contexts :=
  (⟨cs.table.nextId⟩, { cs with table := cs.table.push c })

/-- Hands out the queued copy if it is still live, or else a fresh context. -/
def createOrReset (cs : Contexts) : ContextId × Contexts :=
  match cs.pending.filter cs.contains with
  | some id => (id, { cs with pending := none, current := some id })
  | none =>
    let (id, cs) := cs.add {}
    (id, { cs with pending := none, current := some id })

/-- Copies a context and queues the copy. -/
def resume (cs : Contexts) (id : ContextId) : Except ExecError (ContextId × Contexts) := do
  let c ← cs.get id
  let (copy, cs) := cs.add { c with parent := some id, registered := false }
  return (copy, { cs with pending := some copy })

/-- Copies a context, queues the copy, and hands it a value. -/
def answer (cs : Contexts) (id : ContextId) (v : Value) :
    Except ExecError (ContextId × Contexts) := do
  let (copy, cs) ← cs.resume id
  let cs ← cs.modify copy fun c => { c with callAnswer := some v }
  return (copy, cs)

/-- Forgets the queued copy. -/
def reset (cs : Contexts) : Contexts := { cs with pending := none, current := none }

/-- Marks a context as complete. -/
def register (cs : Contexts) (id : ContextId) : Except ExecError Contexts :=
  cs.modify id fun c => { c with registered := true }

/-- Drops a context. -/
def deactivate (cs : Contexts) (id : ContextId) : Contexts :=
  { cs with table := cs.table.remove id.index }

/-- The announcement of a copy. -/
def resumed (id copy : ContextId) : Event :=
  ⟨.debug, "resuming context", [("from", .count id.index), ("to", .count copy.index)]⟩

/-- The announcement of a context that is dropped. -/
def deactivated (id : ContextId) : Event :=
  ⟨.debug, "deactivating context", [("context", .count id.index)]⟩

end Contexts

end Suspension
