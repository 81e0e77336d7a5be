import Suspension.Machine.World

/-!
# Calls of services

What the two service classes do when suspendable code calls them.  A method of theirs is known by its
name alone, but for the one that hands out a context, which has no receiver to tell it by.

## Main definitions
* `StoreService.apply`: the methods of a store.
* `ContextService.apply`: the methods of a context.
* `World.callService`: a call of either.
-/

namespace Suspension

/-- The methods of a store. -/
inductive StoreService where
  | store (k : Storage)
  | get (k : Storage)
  | push (k : Storage)
  | pop (k : Storage)
  | increment
  deriving DecidableEq, Repr

/-- The methods of a context. -/
inductive ContextService where
  | getLabel
  | setLabel
  | clearLabel
  | getLocalVars
  | getLocalStack
  | register
  | deactivate
  | getCallAnswer
  deriving DecidableEq, Repr

/-- An argument of a call, which has to be there. -/
def argument (args : List Value) (i : Nat) : Except ExecError Value :=
  match args[i]? with
  | some v => .ok v
  | none => .error .stackUnderflow

namespace StoreService

/-- The method as it is called. -/
def ref : StoreService → MemberRef
  | .store k => Service.store k
  | .get k => Service.get k
  | .push k => Service.push k
  | .pop k => Service.pop k
  | .increment => Service.incrementInt

/-- All methods of a store. -/
def all : List StoreService :=
  increment :: Storage.all.flatMap fun k => [store k, get k, push k, pop k]

/-- The method of a name. -/
def ofName? (name : String) : Option StoreService := all.find? (·.ref.name == name)

/-- What a method answers, and the store after it. -/
def apply (args : List Value) (s : Store) :
    StoreService → Except ExecError (Option Value × Store)
  | .store k => do
    let index ← (← argument args 0).asInt
    let v ← (← argument args 1).movedBy k
    return (none, s.put index v)
  | .get k => do
    let index ← (← argument args 0).asInt
    return (some (if k = .reference then s.getReferenceLike index else s.get k index), s)
  | .push k => do
    let v ← (← argument args 0).movedBy k
    return (none, s.push v)
  | .pop k => return (some (s.top k), s.pop)
  | .increment => do
    let index ← (← argument args 0).asInt
    let amount ← (← argument args 1).asInt
    return (none, s.increment index amount)

end StoreService

namespace ContextService

/-- The method as it is called. -/
def ref : ContextService → MemberRef
  | .getLabel => Service.getLabel
  | .setLabel => Service.setLabel
  | .clearLabel => Service.clearLabel
  | .getLocalVars => Service.getLocalVars
  | .getLocalStack => Service.getLocalStack
  | .register => Service.registerContext
  | .deactivate => Service.deactivate
  | .getCallAnswer => Service.getCallAnswer

/-- All methods of a context. -/
def all : List ContextService :=
  [.getLabel, .setLabel, .clearLabel, .getLocalVars, .getLocalStack, .register, .deactivate,
    .getCallAnswer]

/-- The method of a name. -/
def ofName? (name : String) : Option ContextService := all.find? (·.ref.name == name)

variable {σ : Type}

/-- What a method of a context does.  All but the one that drops it need the context to be live. -/
def apply (args : List Value) (id : ContextId) : ContextService → WorldM σ (Option Value)
  | .getLabel => return some (.int (← World.context id).label)
  | .setLabel => do
    let label ← (← argument args 0).asInt
    World.changeContext id fun c => { c with label }
    return none
  | .clearLabel => do
    World.changeContext id fun c => { c with label := noLabel }
    return none
  | .getLocalVars => do
    let _ ← World.context id
    return some (.object (← World.handle id .localVars))
  | .getLocalStack => do
    let _ ← World.context id
    return some (.object (← World.handle id .localStack))
  | .register => do
    World.changeContexts fun cs => (cs.register id).map ((), ·)
    return none
  | .deactivate => do
    World.deactivate id
    return none
  | .getCallAnswer => do
    let c ← World.context id
    World.changeContext id fun c => { c with callAnswer := none }
    return some (c.callAnswer.getD .null)

end ContextService

namespace World

variable {σ : Type}

/-- Calls a method of the store that a handle gives access to. -/
def callStore (m : MemberRef) (args : List Value) (store : Store) :
    Except ExecError (Option Value × Store) :=
  match StoreService.ofName? m.name with
  | some s => s.apply args store
  | none => .error (noSuchMethod m)

/-- Calls a method of the object that a handle stands for. -/
def callHandle (m : MemberRef) (args : List Value) (id : ContextId) :
    ContextFace → WorldM σ (Option Value)
  | .context =>
    match ContextService.ofName? m.name with
    | some s => s.apply args id
    | none => throw (noSuchMethod m)
  | .localVars => do
    let c ← context id
    let (result, vars) ← callStore m args c.vars
    changeContext id fun c => { c with vars }
    return result
  | .localStack => do
    let c ← context id
    let (result, stack) ← callStore m args c.stack
    changeContext id fun c => { c with stack }
    return result

/-- Calls a method of one of the service classes. -/
def callService (m : MemberRef) (receiver : Option Value) (args : List Value) :
    WorldM σ (Option Value) := do
  if m = Service.createOrResetContext then
    let id ← changeContexts fun cs => .ok cs.createOrReset
    return some (.object (← handle id .context))
  else
    match receiver with
    | none => throw (noSuchMethod m)
    | some v =>
      match ← v.asRef with
      | none => throw (.typeMismatch (.storage .reference) v)
      | some r =>
        match ← object r with
        | .handle face id => callHandle m args id face
        | _ => throw (.typeMismatch .context (.object r))

end World

end Suspension
