import Suspension.Weave.Parts

/-!
# Suspendable methods

A suspendable method starts by obtaining its context and going to the site at which that context was
captured, or to its first instruction.  In between, every change of a local slot is repeated in the
store of the context.

```text
        context := createOrResetContext(receiver or null)
        switch on the label of the context: resumption 0, …, resumption n - 1, else start
start:  copy the parameters into the store of the local slots
        the code of the method, in which
          a store is followed by its copy,
          a site is replaced by saving, throwing, and, behind its resumption label, fetching back,
          a return is preceded by dropping the context,
          the label of a handler is followed by letting signals through
rethrow: throw again
```

## Main definitions
* `Plan.prologue`, `Plan.instr`, `Plan.body`, `Plan.epilogue`.
* `Method.weave`: the suspendable form of a method.
-/

namespace Suspension

namespace Plan

variable (p : Plan)

/-- Copies the parameters from a slot on into the store of the local slots. -/
def recordParams : Nat → List Tag → List Instr
  | _, [] => []
  | slot, t :: ts =>
    (match t.kind.storage? with
      | some k => p.recordSlot k (UInt16.ofNat slot)
      | none => []) ++ recordParams (slot + t.words) ts

/-- The dispatch on the label of the context; a method without suspension site has none. -/
def dispatch : List Instr :=
  if p.resumptions.isEmpty then []
  else
    [p.loadContext, callService Service.getLabel,
      .tableSwitch 0 (Int32.ofNat p.resumptions.length - 1) p.start p.resumptions]

/-- What comes in front of the code of the method. -/
def prologue : Except WeaveError (List Instr) := do
  let s ← p.method.signature.mapError .descriptor
  if 65536 ≤ p.method.receiverSlots + s.slots then throw .tooManyParameters
  let receiver : Instr := if p.method.isStatic then .plain .aconstNull else .load .reference 0
  return [receiver, .invoke .static Service.createOrResetContext,
      .store .reference p.slots.context]
    ++ p.dispatch ++ [.label p.start]
    ++ p.recordParams p.method.receiverSlots s.params

/-- Whether a label starts a handler. -/
def isHandler (l : Label) : Bool := p.method.code.regions.any (·.handler = l)

/-- Fetches the slots of a handler back behind its first store. -/
def retype (place site : Nat) : Except WeaveError (List Instr) :=
  match p.shape.retypeAt[place]? with
  | some handler =>
    match p.shape.labels[handler]? with
    | some snapshot => p.restoreLocals site snapshot.types.locals
    | none => return []
  | none => return []

/-- What an instruction of the method becomes, where `site` is the number of the next suspension site;
the flag tells whether it was that site. -/
def instr (place site : Nat) (i : Instr) : Except WeaveError (List Instr × Bool) :=
  match i with
  | .label l => do
    if p.isHandler l then return (i :: (← p.signalCheck), false) else return ([i], false)
  | i =>
    if i.isReturn then return (p.deregister ++ [i], false)
    else
      match p.config.site? p.className i with
      | some (kind, .answer, m) => return (← p.answer kind m, false)
      | some (kind, sort, _) => return (← p.suspend site kind sort, true)
      | none => return (i :: p.record i ++ (← p.retype place site), false)

/-- What the instructions from `place` on become, where `site` is the number of the next suspension
site. -/
def body : (place site : Nat) → List Instr → Except WeaveError (List Instr)
  | _, _, [] => return []
  | place, site, i :: rest => do
    let (code, isSite) ← p.instr place site i
    return code ++ (← body (place + 1) (if isSite then site + 1 else site) rest)

/-- The common rethrow, if some handler goes there. -/
def epilogue : List Instr :=
  if p.method.code.instrs.any fun i => (i.defined?.map p.isHandler).getD false then
    match p.rethrow with
    | .ok l => [.label l, .plain .athrow]
    | .error _ => []
  else []

/-- The whole stream. -/
def stream : Except WeaveError (List Instr) := do
  let front ← p.prologue
  let code ← p.body 0 0 p.method.code.instrs
  return front ++ code ++ p.epilogue

end Plan

namespace Method

/-- The suspendable form of a method, without announcing it. -/
def woven (className : String) (method : Method) (config : Config) (metrics : Metrics)
    (shape : Shape) : Except WeaveError Method := do
  let p ← Plan.make className method config metrics shape
  let instrs ← p.stream
  return { method with
    maxLocals := p.slots.maxLocals
    code := { method.code with instrs } }

/-- The announcement of a suspendable method. -/
def wovenEvent (className : String) (method result : Method) : Event :=
  ⟨.debug, "rewrote method",
    [("class", .text className), ("method", .text method.name),
      ("before", .count method.code.instrs.length), ("after", .count result.code.instrs.length)]⟩

/-- The suspendable form of a method, from the results of both analyses. -/
def weave (className : String) (method : Method) (config : Config) (metrics : Metrics)
    (shape : Shape) : Reported WeaveError Method := do
  let result ← Reported.ofExcept (method.woven className config metrics shape)
  Reported.report (method.wovenEvent className result)
  return result

end Method

end Suspension
