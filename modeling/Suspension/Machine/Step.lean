import Suspension.Machine.Arithmetic
import Suspension.Machine.Frame
import Suspension.Machine.ServiceCall

/-!
# One step of the machine

What an instruction does to the frame and to the world, and where control goes next.  A call of a method
of the class that is run is not carried out here: the step asks for a new frame, see `Flow.enter`.

## Main definitions
* `Flow`: where control goes after an instruction.
* `Situation`, `StepM`: a frame in its world, and operations on both that may fail.
* `PlainOp.step`, `SlotOp.step`, `JumpOp.step`, `FieldOp.step`, `ClassOp.step`, `MemberRef.call`: the
  families of instructions.
* `Instr.step`.
-/

namespace Suspension

/-- Where control goes after an instruction: on, to a label, to a place, out of the method, to a handler,
or into another method of which the result is awaited. -/
inductive Flow where
  | next
  | jump (l : Label)
  | goTo (pc : Nat)
  | leave (v : Option Value)
  | raise (exc : ObjectId)
  | enter (callee : Method) (args : List Value) (result : Option Tag)
  deriving DecidableEq

/-- A frame in its world. -/
structure Situation (σ : Type) where
  frame : Frame
  world : World σ

/-- Operations on a frame and its world that may fail. -/
abbrev StepM (σ : Type) := EStateM ExecError (Situation σ)

variable {σ : Type}

instance : MonadLift FrameM (StepM σ) where
  monadLift x := fun s =>
    match x s.frame with
    | .ok a frame => .ok a { s with frame }
    | .error e frame => .error e { s with frame }

/-- An operation on the world alone. -/
def inWorld {α : Type} (x : WorldM σ α) : StepM σ α := fun s =>
  match x s.world with
  | .ok a world => .ok a { s with world }
  | .error e world => .error e { s with world }

open Suspension.Frame (push pop popOf popInt popLong popFloat popDouble popRef popMany)

/-- Throws a new exception. -/
def raiseNew (e : BuiltinException) : StepM σ Flow :=
  return .raise (← inWorld (World.alloc (.new e.className)))

/-- Goes to a label if a condition holds. -/
def Flow.branch (condition : Bool) (l : Label) : Flow := if condition then .jump l else .next

/-! ## Numbers -/

/-- Arithmetic. -/
def ArithOp.step (op : ArithOp) : NumKind → StepM σ Flow
  | .int => do
    let b ← popInt
    let a ← popInt
    match op.onInts a b with
    | some v => push (.int v); return .next
    | none => raiseNew .arithmetic
  | .long => do
    let b ← popLong
    let a ← popLong
    match op.onLongs a b with
    | some v => push (.long v); return .next
    | none => raiseNew .arithmetic
  | .float => do
    let b ← popFloat
    let a ← popFloat
    push (.float (op.onFloats a b))
    return .next
  | .double => do
    let b ← popDouble
    let a ← popDouble
    push (.double (op.onDoubles a b))
    return .next

/-- Shifts and bitwise operations. -/
def BitOp.step (op : BitOp) : WholeKind → FrameM Unit
  | .int => do
    let b ← popInt
    let a ← popInt
    push (.int (op.onInts a b))
  | .long => do
    if op.isShift then
      let b ← popInt
      let a ← popLong
      push (.long (op.shiftLongs a b))
    else
      let b ← popLong
      let a ← popLong
      push (.long (op.onLongs a b))

/-- Comparisons. -/
def Comparison.step : Comparison → FrameM Unit
  | .long => do
    let b ← popLong
    let a ← popLong
    push (.int (compareLongs a b))
  | .floatLow => floats (-1)
  | .floatHigh => floats 1
  | .doubleLow => doubles (-1)
  | .doubleHigh => doubles 1
where
  floats (unordered : Int32) : FrameM Unit := do
    let b ← popFloat
    let a ← popFloat
    push (.int (compareFloats a b unordered))
  doubles (unordered : Int32) : FrameM Unit := do
    let b ← popDouble
    let a ← popDouble
    push (.int (compareDoubles a b unordered))

/-! ## Arrays -/

/-- The index as a place in an array; a negative one is out of range. -/
def arrayIndex? (index : Int32) : Option Nat := if 0 ≤ index then some index.toNatClampNeg else none

/-- What an array of a descriptor keeps of a value that is stored into it. -/
def ElemKind.narrow (descriptor : String) (v : Value) : ElemKind → Except ExecError Value
  | .int | .reference => return v
  | .long => v.ofStorage .long
  | .float => v.ofStorage .float
  | .double => v.ofStorage .double
  | .byte => do
    let v ← v.asInt
    return .int (if descriptor = PrimArray.boolean.descriptor then v &&& 1 else toByte v)
  | .char => return .int (toChar (← v.asInt))
  | .short => return .int (toShort (← v.asInt))

/-- Fetches an element of an array. -/
def loadElement : StepM σ Flow := do
  let index ← popInt
  match ← popRef with
  | none => raiseNew .nullPointer
  | some r =>
    match ← inWorld (World.object r) with
    | .array _ elems =>
      match (arrayIndex? index).bind (elems[·]?) with
      | some v => push v; return .next
      | none => raiseNew .arrayIndex
    | _ => throw (.typeMismatch .array (.object r))

/-- Stores an element of an array. -/
def storeElement (k : ElemKind) : StepM σ Flow := do
  let v ← pop
  let index ← popInt
  match ← popRef with
  | none => raiseNew .nullPointer
  | some r =>
    match ← inWorld (World.object r) with
    | .array descriptor _ =>
      let v ← k.narrow descriptor v
      match arrayIndex? index with
      | some i =>
        if ← inWorld (World.changeHeap fun h => h.setElement r i v) then return .next
        else raiseNew .arrayIndex
      | none => raiseNew .arrayIndex
    | _ => throw (.typeMismatch .array (.object r))

/-- Adds an array of arrays, of which the first count is that of the outermost one.  The inner arrays are
added before the outer ones. -/
def Heap.allocArray (h : Heap) (descriptor : String) (count : Nat) :
    List Nat → Except ExecError (ObjectId × Heap)
  | [] => do
    let t ← (Tag.ofDescriptor (← element)).mapError .descriptor
    return h.alloc (.array descriptor (Array.replicate count t.zero))
  | inner :: more => do
    let element ← element
    let (elems, h) ← (List.range count).foldlM (fun (elems, h) _ => do
      let (r, h) ← allocArray h element inner more
      return (elems.push (.object r), h)) ((#[] : Array Value), h)
    return h.alloc (.array descriptor elems)
where
  element : Except ExecError String :=
    match descriptor.toList with
    | '[' :: rest => .ok (String.ofList rest)
    | _ => .error (.descriptor ⟨descriptor⟩)

/-- Pops the counts of an array and adds it. -/
def newArray (descriptor : String) (dims : Nat) : StepM σ Flow := do
  let counts ← (← popMany dims).mapM fun v => (v.asInt : StepM σ Int32)
  match counts with
  | [] => raiseNew .negativeArraySize
  | count :: more =>
    if counts.any (· < 0) then raiseNew .negativeArraySize
    else
      let r ← inWorld (World.changeHeap fun h =>
        h.allocArray descriptor count.toNatClampNeg (more.map Int32.toNatClampNeg))
      push (.object r)
      return .next

/-- The length of an array. -/
def measureArray : StepM σ Flow := do
  match ← popRef with
  | none => raiseNew .nullPointer
  | some r =>
    match ← inWorld (World.object r) with
    | .array _ elems => push (.int (Int32.ofNat elems.size)); return .next
    | _ => throw (.typeMismatch .array (.object r))

/-! ## Instructions without operand -/

/-- A lock is never contended; only null cannot be locked. -/
def lock : StepM σ Flow := do
  match ← popRef with
  | none => raiseNew .nullPointer
  | some _ => return .next

/-- The instructions without operand. -/
def PlainOp.step : PlainOp → StepM σ Flow
  | .nop => return .next
  | .aconstNull => do push .null; return .next
  | .arrayLoad _ => loadElement
  | .arrayStore k => storeElement k
  | .shuffle s => do Frame.shuffle s; return .next
  | .arith op k => op.step k
  | .neg k => do push (← popOf k.storage).negated; return .next
  | .bits op k => do op.step k; return .next
  | .convert c => do push (← c.apply (← pop)); return .next
  | .compare c => do c.step; return .next
  | .leave none => return .leave none
  | .leave (some k) => return .leave (some (← popOf k))
  | .arrayLength => measureArray
  | .athrow => do
    match ← popRef with
    | some exc => return .raise exc
    | none => raiseNew .nullPointer
  | .monitorEnter | .monitorExit => lock

/-! ## Instructions with an operand -/

/-- The instructions on a slot. -/
def SlotOp.step (slot : Slot) : SlotOp → StepM σ Flow
  | .load k => do Frame.load k slot; return .next
  | .store k => do Frame.store k slot; return .next
  | .ret => do
    match ← Frame.getLocal slot with
    | .address pc => return .goTo pc
    | v => throw (.typeMismatch .returnAddress v)

/-- The jumps. -/
def JumpOp.step (l : Label) : JumpOp → StepM σ Flow
  | .ifZero t => return .branch (t.holds (← popInt) 0) l
  | .ifInts t => do
    let b ← popInt
    let a ← popInt
    return .branch (t.holds a b) l
  | .ifRefs equal => do
    let b ← popRef
    let a ← popRef
    return .branch ((a == b) == equal) l
  | .ifNull null => return .branch ((← popRef).isNone == null) l
  | .goto => return .jump l
  | .jsr => do
    push (.address (← get).frame.pc)
    return .jump l

/-- The target of a switch over consecutive keys. -/
def tableTarget (low high : Int32) (default : Label) (targets : List Label) (key : Int32) : Label :=
  if low ≤ key ∧ key ≤ high then (targets[(key.toInt - low.toInt).toNat]?).getD default else default

/-- The value of a field that was not set is the zero of its type. -/
def fieldZero (f : MemberRef) : Except ExecError Value :=
  match Tag.ofDescriptor f.descriptor with
  | .ok t => .ok t.zero
  | .error e => .error (.descriptor e)

/-- The accesses to fields. -/
def FieldOp.step (f : MemberRef) : FieldOp → StepM σ Flow
  | .getStatic => do
    match (← get).world.static? f.owner f.name with
    | some v => push v
    | none => push (← fieldZero f)
    return .next
  | .putStatic => do
    let v ← pop
    inWorld (World.setStatic f.owner f.name v)
    return .next
  | .getField => do
    match ← popRef with
    | none => raiseNew .nullPointer
    | some r =>
      match (← get).world.heap.field? r f.name with
      | some v => push v
      | none => push (← fieldZero f)
      return .next
  | .putField => do
    let v ← pop
    match ← popRef with
    | none => raiseNew .nullPointer
    | some r =>
      inWorld (World.setField r f.name v)
      return .next

/-- The instructions on a class. -/
def ClassOp.step (host : Host σ) (className : String) : ClassOp → StepM σ Flow
  | .new => do
    push (.object (← inWorld (World.alloc (.new className))))
    return .next
  | .newArray => Suspension.newArray (arrayOf className) 1
  | .checkCast => do
    match ← popRef with
    | none => push .null; return .next
    | some r =>
      if ← inWorld (World.isOf host r className) then push (.object r); return .next
      else raiseNew .classCast
  | .instanceOf => do
    match ← popRef with
    | none => push (.int 0)
    | some r => push (.int (if ← inWorld (World.isOf host r className) then 1 else 0))
    return .next

/-- Pushes a constant. -/
def Constant.step : Constant → StepM σ Unit
  | .int v => push (.int v)
  | .float bits => push (.float bits)
  | .long v => push (.long v)
  | .double bits => push (.double bits)
  | .string s => do push (.object (← inWorld (World.intern s)))
  | .classRef name => do push (.object (← inWorld (World.alloc (.classRef name))))

/-! ## Calls -/

/-- The signature of a call. -/
def callSignature (descriptor : String) : Except ExecError Signature :=
  (Signature.parse descriptor).mapError .descriptor

/-- Asks the host. -/
def askHost (host : Host σ) (kind : InvokeKind) (m : MemberRef) (receiver : Option Value)
    (args : List Value) : WorldM σ (Option Value) := fun w =>
  match host.invoke kind m receiver args (w.heap, w.outside) with
  | .ok v (heap, outside) => .ok v { w with heap, outside }
  | .error e (heap, outside) => .error e { w with heap, outside }

/-- A constructor of a foreign class only notes what a signal carries. -/
def construct (m : MemberRef) (receiver : Option Value) (args : List Value) : WorldM σ Unit := do
  match receiver, Service.siteOfSignal? m.owner with
  | some (.ref (some r)), some _ =>
    World.setField r Service.contextField (← argument args 0)
    match args[1]? with
    | some payload => World.setField r Service.payloadField payload
    | none => return ()
  | _, _ => return ()

/-- The method of the class that is run that a call means, if it has code. -/
def Class.callee? (cls : Class) (m : MemberRef) : Option Method :=
  if m.owner = cls.name then (cls.method? m.name m.descriptor).filter (!·.code.instrs.isEmpty) else none

/-- Calls a method: a service, one of the class itself, a foreign constructor, or one of the host. -/
def MemberRef.call (cls : Class) (host : Host σ) (kind : InvokeKind) (m : MemberRef) :
    StepM σ Flow := do
  let s ← callSignature m.descriptor
  let args ← popMany s.params.length
  let receiver ← if kind.hasReceiver then (do return some (← pop)) else pure none
  if receiver = some .null then raiseNew .nullPointer
  else if m.owner = Service.contextClass ∨ m.owner = Service.storeClass then
    finish s.result (← inWorld (World.callService m receiver args))
  else
    match cls.callee? m with
    | some callee => return .enter callee (receiver.toList ++ args) s.result
    | none =>
      if m.name = Service.constructorName then
        inWorld (construct m receiver args)
        finish s.result none
      else finish s.result (← inWorld (askHost host kind m receiver args))
where
  finish (result : Option Tag) (v : Option Value) : StepM σ Flow := do
    modify fun s => { s with frame := s.frame.receive result v }
    return .next

/-! ## Every instruction -/

/-- One step of code of a class, whose frame already points at the instruction after it. -/
def Instr.step (cls : Class) (host : Host σ) : Instr → StepM σ Flow
  | .plain op => op.step
  | .iconst v => do push (.int v); return .next
  | .lconst v => do push (.long v); return .next
  | .fconst bits => do push (.float bits); return .next
  | .dconst bits => do push (.double bits); return .next
  | .bipush v => do push (.int v.toInt32); return .next
  | .sipush v => do push (.int v.toInt32); return .next
  | .ldc c => do c.step; return .next
  | .slot op s => op.step s
  | .iinc s amount => do Frame.increment s amount.toInt32; return .next
  | .jump op l => op.step l
  | .tableSwitch low high default targets => do
    return .jump (tableTarget low high default targets (← popInt))
  | .lookupSwitch default pairs => do
    return .jump ((pairs.lookup (← popInt)).getD default)
  | .field op f => op.step f
  | .invoke kind m => m.call cls host kind
  | .invokeDynamic name descriptor => do
    let s ← callSignature descriptor
    let args ← popMany s.params.length
    let v ← inWorld (askHost host .static ⟨"", name, descriptor⟩ none args)
    modify fun st => { st with frame := st.frame.receive s.result v }
    return .next
  | .typed op className => op.step host className
  | .newArray k => Suspension.newArray k.descriptor 1
  | .multiNewArray descriptor dims => Suspension.newArray descriptor dims.toNat
  | .label _ => return .next

end Suspension
