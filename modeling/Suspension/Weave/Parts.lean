import Suspension.Symbolic.Shape
import Suspension.Service

/-!
# Parts of suspendable code

The pieces of code that are put into a method to make it suspendable, and what can keep them from being
built.

## Main definitions
* `ReservedSlots`: the slots that the inserted code keeps for itself.
* `WeaveError`: why a method cannot be made suspendable.
* `pushInt`: the shortest instruction for an int.
* `Plan`: everything that is settled before the first instruction is emitted, and the pieces of code
  that depend on it.
-/

namespace Suspension

/-- Why a method cannot be made suspendable. -/
inductive WeaveError where
  | uncapturable (site : Nat) (tag : Tag)
  | snapshotCountMismatch (expected found : Nat)
  | primitiveAnswer (tag : Tag)
  | unsupportedCall (call : String)
  | tooManyLocals (base : UInt16)
  | descriptor (e : MalformedDescriptor)
  | labelsExhausted
  | tooManyParameters
  | missingResumption (site : Nat)
  deriving DecidableEq, Repr

/-- The diagnostic for an error. -/
def WeaveError.message : WeaveError → String
  | .uncapturable site tag =>
    "value of type " ++ tag.text ++ " at suspension site " ++ toString site
      ++ " cannot be captured"
  | .snapshotCountMismatch expected found =>
    "metrics counted " ++ toString expected ++ " suspension sites but the shape analysis has "
      ++ toString found ++ " snapshots"
  | .primitiveAnswer tag =>
    "call answers must be references, the configured call returns " ++ tag.text
  | .unsupportedCall call =>
    "call sites take exactly one reference target, the configured call is " ++ call
  | .tooManyLocals base =>
    "no room for the context slots above local " ++ toString base.toNat
  | .descriptor e => e.message
  | .labelsExhausted => "no label is left for the inserted code"
  | .tooManyParameters => "the parameters occupy more than 65535 slots"
  | .missingResumption site => "no resumption label for site " ++ toString site

/-- The slots above those of the method that the inserted code keeps for itself; the last one is two
words wide and holds one stack entry while it is saved. -/
structure ReservedSlots where
  context : Slot
  callTarget : Slot
  answer : Slot
  temp : Slot
  deriving DecidableEq, Repr

namespace ReservedSlots

/-- The five slots from `base` on. -/
def above (base : UInt16) : Except WeaveError ReservedSlots :=
  if base.toNat + 5 < 65536 then .ok ⟨base, base + 1, base + 2, base + 3⟩
  else .error (.tooManyLocals base)

/-- One more than the highest reserved slot. -/
def maxLocals (s : ReservedSlots) : UInt16 := s.temp + 2

end ReservedSlots

/-- The shortest instruction that pushes an int. -/
def pushInt (v : Int32) : Instr :=
  if -1 ≤ v ∧ v ≤ 5 then .iconst v
  else if -128 ≤ v ∧ v ≤ 127 then .bipush v.toInt8
  else if -32768 ≤ v ∧ v ≤ 32767 then .sipush v.toInt16
  else .ldc (.int v)

/-- The instruction that pushes the number of a slot. -/
def pushSlot (s : Slot) : Instr := pushInt (Int32.ofNat s.toNat)

/-- The call of a service on an object. -/
def callService (m : MemberRef) : Instr := .invoke .virtual m

/-- The cast to what is known of a reference. -/
def castTo (t : Tag) : List Instr := (t.castTarget.map (.typed .checkCast ·)).toList

/-- Everything that is settled before the first instruction is emitted. -/
structure Plan where
  className : String
  method : Method
  config : Config
  shape : Shape
  slots : ReservedSlots
  start : Label
  resumptions : List Label
  rethrow : Except WeaveError Label

namespace Plan

/-- The label `offset` places after the highest one of the method, if it can still be numbered and
another one after it, too. -/
def freshLabel (method : Method) (offset : Nat) : Except WeaveError Label :=
  let first : Nat := match method.code.maxLabel with
    | some l => l.toNat + 1
    | none => 0
  if first + offset + 1 < 4294967296 then .ok (UInt32.ofNat (first + offset)) else .error .labelsExhausted

/-- Settles the plan of a method: the labels of the inserted code follow those of the method, first the
start of the method, then one resumption for each site, and then the common rethrow. -/
def make (className : String) (method : Method) (config : Config) (metrics : Metrics)
    (shape : Shape) : Except WeaveError Plan := do
  if shape.sites.length ≠ metrics.siteCount then
    throw (.snapshotCountMismatch metrics.siteCount shape.sites.length)
  let slots ← ReservedSlots.above (max method.maxLocals metrics.maxLocals)
  let start ← freshLabel method 0
  let resumptions ← (List.range metrics.siteCount).mapM fun k => freshLabel method (k + 1)
  return {
    className, method, config, shape, slots, start, resumptions
    rethrow := freshLabel method (metrics.siteCount + 1) }

variable (p : Plan)

/-- The instruction that pushes the context. -/
def loadContext : Instr := .load .reference p.slots.context

/-- Pushes the store of the local slots. -/
def localVars : List Instr := [p.loadContext, callService Service.getLocalVars]

/-- Pushes the store of the operand stack. -/
def localStack : List Instr := [p.loadContext, callService Service.getLocalStack]

/-- Copies a slot into the store of the local slots. -/
def recordSlot (k : Storage) (s : Slot) : List Instr :=
  p.localVars ++ [pushSlot s, .load k s, callService (Service.store k)]

/-- Copies what an instruction did to a slot into the store of the local slots. -/
def record : Instr → List Instr
  | .iinc s amount =>
    p.localVars ++ [pushSlot s, pushInt amount.toInt32, callService Service.incrementInt]
  | .slot (.store k) s => p.recordSlot k s
  | _ => []

/-- The storage in which a value at a site is saved. -/
def storageFor (site : Nat) (t : Tag) : Except WeaveError Storage :=
  match t.kind.storage? with
  | some k => .ok k
  | none => .error (.uncapturable site t)

/-- Moves the topmost entry of the stack into the store of the operand stack. -/
def saveEntry (site : Nat) (t : Tag) : Except WeaveError (List Instr) := do
  let k ← storageFor site t
  return [.store k p.slots.temp] ++ p.localStack ++ [.load k p.slots.temp, callService (Service.push k)]

/-- Moves the operand stack into its store, top first. -/
def saveStack (site : Nat) (stack : List Tag) : Except WeaveError (List Instr) := do
  return (← stack.mapM (p.saveEntry site)).flatten

/-- Fetches one entry of the stack back. -/
def restoreEntry (site : Nat) (t : Tag) : Except WeaveError (List Instr) := do
  let k ← storageFor site t
  return p.localStack ++ [callService (Service.pop k)] ++ castTo t

/-- Fetches the operand stack back, bottom first. -/
def restoreStack (site : Nat) (stack : List Tag) : Except WeaveError (List Instr) := do
  return (← stack.reverse.mapM (p.restoreEntry site)).flatten

/-- Fetches one slot back. -/
def restoreLocal (site : Nat) (slot : Slot) (t : Tag) : Except WeaveError (List Instr) := do
  let k ← storageFor site t
  return p.localVars ++ [pushSlot slot, callService (Service.get k)] ++ castTo t ++ [.store k slot]

/-- The slots that are fetched back, those of one word first; the receiver is not among them. -/
def restoredSlots (locals : Locals) : List (Slot × Tag) :=
  let visited := locals.toList.filter fun e => p.method.isStatic || e.1 ≠ 0
  visited.filter (·.2.width = .one) ++ visited.filter (·.2.width = .two)

/-- Fetches all recorded slots back. -/
def restoreLocals (site : Nat) (locals : Locals) : Except WeaveError (List Instr) := do
  return (← (p.restoredSlots locals).mapM fun e => p.restoreLocal site e.1 e.2).flatten

/-- Throws the signal of a site, with the value of a slot if it carries one. -/
def throwSignal (kind : SiteKind) (payload : Option Slot) : List Instr :=
  [.typed .new kind.signalClass, .plain (.shuffle .dup), p.loadContext]
    ++ (payload.map (.load .reference ·)).toList
    ++ [.invoke .special
          ⟨kind.signalClass, Service.constructorName, kind.constructorDescriptor⟩,
        .plain .athrow]

/-- The type of the answer to a call, refused unless the configured call takes one reference and yields
a reference or nothing. -/
def answerType : Except WeaveError (Option Tag) := do
  let s ← p.config.callSignature.mapError .descriptor
  match s.params with
  | [target] =>
    if target.kind ≠ .reference then throw (.unsupportedCall p.config.callDescriptor)
  | _ => throw (.unsupportedCall p.config.callDescriptor)
  match s.result with
  | some t => if t.kind ≠ .reference then throw (.primitiveAnswer t) else return some t
  | none => return none

/-- Drops the receiver of a call, if it has one. -/
def dropReceiver (kind : InvokeKind) : List Instr :=
  if kind.hasReceiver then [.plain (.shuffle .pop)] else []

/-- The code of a suspension site: the flow is saved and the signal thrown; at the resumption label the
flow is fetched back. -/
def suspend (site : Nat) (kind : InvokeKind) (sort : SiteKind) :
    Except WeaveError (List Instr) := do
  let snapshot := (p.shape.site? site).getD {}
  let isCall := sort = .call
  let answer ← if isCall then p.answerType else pure none
  let saved ← p.saveStack site snapshot.stack
  let resumption ← match p.resumptions[site]? with
    | some l => pure l
    | none => throw (.missingResumption site)
  let locals ← p.restoreLocals site snapshot.locals
  let stack ← p.restoreStack site snapshot.stack
  let parked : List Instr := if isCall then [.store .reference p.slots.callTarget] else []
  let fetched : List Instr := match answer with
    | some t => [p.loadContext, callService Service.getCallAnswer] ++ castTo t
    | none => []
  return parked ++ dropReceiver kind ++ saved
    ++ [p.loadContext, pushInt (Int32.ofNat site), callService Service.setLabel]
    ++ p.throwSignal sort (if isCall then some p.slots.callTarget else none)
    ++ [.label resumption, p.loadContext, callService Service.clearLabel]
    ++ locals ++ stack ++ fetched

/-- The code of an answer site, which hands over a value or null. -/
def answer (kind : InvokeKind) (m : MemberRef) : Except WeaveError (List Instr) := do
  let s ← (Signature.parse m.descriptor).mapError .descriptor
  return (if s.params.isEmpty then [.plain .aconstNull] else [])
    ++ [.store .reference p.slots.answer] ++ dropReceiver kind
    ++ p.throwSignal .answer (some p.slots.answer)

/-- Drops the context in front of a return. -/
def deregister : List Instr :=
  [p.loadContext, callService Service.registerContext, p.loadContext, callService Service.deactivate]

/-- Lets signals through at the start of a handler. -/
def signalCheck : Except WeaveError (List Instr) := do
  let l ← p.rethrow
  return [.plain (.shuffle .dup), .typed .instanceOf Service.signalClass, .jump (.ifZero .ne) l]

end Plan

end Suspension
