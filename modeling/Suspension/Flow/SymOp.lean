import Suspension.Symbolic.Frame
import Suspension.Config

/-!
# Symbolic effect of instructions

Every instruction is lowered to a few operations on symbolic frames.  A call that is a suspension site
also marks where its snapshot is taken: after its operands are gone and before its result is there.

## Main definitions
* `SymOp`, `SymOp.apply`: an operation and what it does to a frame.
* `Instr.effect`: the operations of an instruction.
-/

namespace Suspension

/-- An operation on symbolic frames.  A tag given to `set` replaces that of the value stored, one given
to `get` replaces the recorded one. -/
inductive SymOp where
  | push (t : Tag)
  | pop
  | popWords (n : Nat)
  | set (slot : Slot) (tag : Option Tag)
  | get (slot : Slot) (tag : Option Tag)
  | inc (slot : Slot)
  | read (slot : Slot)
  | aaload
  | dup (words under : Nat)
  | swap
  | suspend (site : Nat)
  deriving DecidableEq, Repr

/-- The tag of the elements of an array, as far as it is known. -/
def Tag.element : Tag → Tag
  | .null => .null
  | t => t.component.getD .object

namespace SymOp

/-- What an operation does to a frame. -/
def apply : SymOp → SymM Unit
  | .push t => SymFrame.push t
  | .pop => do let _ ← SymFrame.pop
  | .popWords n => do let _ ← SymFrame.popWords n
  | .set slot tag => do
    let popped ← SymFrame.pop
    modify (·.setLocal slot (tag.getD popped))
  | .get slot tag => do
    let recorded ← SymFrame.getLocal slot
    SymFrame.push (tag.getD recorded)
  | .inc slot => do let _ ← SymFrame.getLocal slot
  | .read slot => do let _ ← SymFrame.getLocal slot
  | .aaload => do
    let _ ← SymFrame.pop
    let array ← SymFrame.pop
    SymFrame.push array.element
  | .dup words under => SymFrame.dup words under
  | .swap => SymFrame.swap
  | .suspend _ => pure ()

end SymOp

/-- The tag of a constant. -/
def Constant.tag : Constant → Tag
  | .int _ => .int
  | .float _ => .float
  | .long _ => .long
  | .double _ => .double
  | .string _ => .ref stringClass
  | .classRef _ => .ref classClass

/-- The tag of the result of arithmetic. -/
def NumKind.tag : NumKind → Tag
  | .int => .int
  | .long => .long
  | .float => .float
  | .double => .double

/-- The tag of the result of bitwise operations. -/
def WholeKind.tag : WholeKind → Tag
  | .int => .int
  | .long => .long

/-- The kind of number that a conversion yields. -/
def Conversion.target : Conversion → NumKind
  | .l2i | .f2i | .d2i | .i2b | .i2c | .i2s => .int
  | .i2l | .f2l | .d2l => .long
  | .i2f | .l2f | .d2f => .float
  | .i2d | .l2d | .f2d => .double

/-- The tag that a typed load or store gives to the value it moves; references keep theirs. -/
def Storage.tag? : Storage → Option Tag
  | .int => some .int
  | .long => some .long
  | .float => some .float
  | .double => some .double
  | .reference => none

/-- The operation of a shuffle. -/
def Shuffle.symOp : Shuffle → SymOp
  | .pop => .popWords 1
  | .pop2 => .popWords 2
  | .dup => .dup 1 0
  | .dupX1 => .dup 1 1
  | .dupX2 => .dup 1 2
  | .dup2 => .dup 2 0
  | .dup2X1 => .dup 2 1
  | .dup2X2 => .dup 2 2
  | .swap => .swap

/-- The operations of an array load. -/
def ElemKind.loadOps : ElemKind → List SymOp
  | .int | .byte => [.pop, .pop, .push .int]
  | .long => [.pop, .pop, .push .long]
  | .float => [.pop, .pop, .push .float]
  | .double => [.pop, .pop, .push .double]
  | .char => [.pop, .pop, .push .char]
  | .short => [.pop, .pop, .push .short]
  | .reference => [.aaload]

/-- The operations of an instruction without operand. -/
def PlainOp.symOps : PlainOp → List SymOp
  | .nop => []
  | .aconstNull => [.push .null]
  | .arrayLoad k => k.loadOps
  | .arrayStore _ => [.pop, .pop, .pop]
  | .shuffle s => [s.symOp]
  | .arith _ k => [.pop, .pop, .push k.tag]
  | .neg k => [.pop, .push k.tag]
  | .bits _ k => [.pop, .pop, .push k.tag]
  | .convert c => [.pop, .push c.target.tag]
  | .compare _ => [.pop, .pop, .push .int]
  | .leave (some _) => [.pop]
  | .leave none => []
  | .arrayLength => [.pop, .push .int]
  | .athrow | .monitorEnter | .monitorExit => [.pop]

/-- The operations of a jump, as far as they do not depend on the edge taken. -/
def JumpOp.symOps : JumpOp → List SymOp
  | .ifZero _ | .ifNull _ => [.pop]
  | .ifInts _ | .ifRefs _ => [.pop, .pop]
  | .goto | .jsr => []

/-- The operations that take the operands of a call off the stack. -/
def operandOps (receiver : Bool) (s : Signature) : List SymOp :=
  List.replicate (s.params.length + receiver.toNat) .pop

/-- The operation that puts the result of a call onto the stack. -/
def resultOps (s : Signature) : List SymOp := (s.result.map .push).toList

/-- The operations of an instruction, and the sort of the suspension site that it is, if it is one. -/
structure Effect where
  ops : List SymOp
  site? : Option SiteKind := none

/-- The operations of a call made by code of class `className`; a suspension site gets the number
`site`. -/
def callEffect (className : String) (config : Config) (site : Nat) (kind : InvokeKind)
    (m : MemberRef) : Except MalformedDescriptor Effect := do
  let s ← Signature.parse m.descriptor
  match config.classify className m with
  | some sort =>
    if sort.suspends then
      return ⟨operandOps kind.hasReceiver s ++ [.suspend site] ++ resultOps s, some sort⟩
    else return ⟨operandOps kind.hasReceiver s ++ resultOps s, none⟩
  | none => return ⟨operandOps kind.hasReceiver s ++ resultOps s, none⟩

/-- The effect of an instruction in code of class `className`, in which the next suspension site gets
the number `site`. -/
def Instr.effect (className : String) (config : Config) (site : Nat) :
    Instr → Except MalformedDescriptor Effect
  | .plain op => return ⟨op.symOps, none⟩
  | .iconst _ => return ⟨[.push .int], none⟩
  | .lconst _ => return ⟨[.push .long], none⟩
  | .fconst _ => return ⟨[.push .float], none⟩
  | .dconst _ => return ⟨[.push .double], none⟩
  | .bipush _ => return ⟨[.push .byte], none⟩
  | .sipush _ => return ⟨[.push .short], none⟩
  | .ldc c => return ⟨[.push c.tag], none⟩
  | .slot (.load k) s => return ⟨[.get s k.tag?], none⟩
  | .slot (.store k) s => return ⟨[.set s k.tag?], none⟩
  | .slot .ret s => return ⟨[.read s], none⟩
  | .iinc s _ => return ⟨[.inc s], none⟩
  | .jump op _ => return ⟨op.symOps, none⟩
  | .tableSwitch .. => return ⟨[.pop], none⟩
  | .lookupSwitch .. => return ⟨[.pop], none⟩
  | .field .getStatic f => return ⟨[.push (← Tag.ofDescriptor f.descriptor)], none⟩
  | .field .putStatic _ => return ⟨[.pop], none⟩
  | .field .getField f => return ⟨[.pop, .push (← Tag.ofDescriptor f.descriptor)], none⟩
  | .field .putField _ => return ⟨[.pop, .pop], none⟩
  | .invoke kind m => callEffect className config site kind m
  | .invokeDynamic _ descriptor => do
    let s ← Signature.parse descriptor
    return ⟨operandOps false s ++ resultOps s, none⟩
  | .typed .new c => return ⟨[.push (.ref c)], none⟩
  | .typed .newArray c => return ⟨[.pop, .push (.ref (arrayOf c))], none⟩
  | .typed .checkCast c => return ⟨[.pop, .push (.ref c)], none⟩
  | .typed .instanceOf _ => return ⟨[.pop, .push .int], none⟩
  | .newArray k => return ⟨[.pop, .push (.ref k.descriptor)], none⟩
  | .multiNewArray descriptor dims =>
    return ⟨List.replicate dims.toNat .pop ++ [.push (.ref descriptor)], none⟩
  | .label _ => return ⟨[], none⟩

end Suspension
