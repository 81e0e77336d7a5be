import Suspension.Bytecode.Tag

/-!
# Instructions

The instruction set of the JVM, grouped by shape: instructions without operand (`PlainOp`), and one
family for each sort of operand.  Jump targets are symbolic labels, defined by a pseudo instruction
in the same stream.

## Main definitions
* `PlainOp`, `SlotOp`, `JumpOp`, `FieldOp`, `InvokeKind`, `ClassOp`: the families.
* `Instr`: one instruction.
* `Instr.targets`, `Instr.fallsThrough`, `Instr.endsBlock`: where control may go next.
* `Instr.slotAccess?`, `Instr.storedSlot?`, `Instr.invocation?`: what an instruction touches.
-/

namespace Suspension

/-- A symbolic jump target. -/
abbrev Label := UInt32

/-- A field or method, by its owner, its name and its descriptor. -/
structure MemberRef where
  owner : String
  name : String
  descriptor : String
  deriving DecidableEq, Repr

/-- A constant of `ldc`; floating-point numbers are kept as their bits. -/
inductive Constant where
  | int (v : Int32)
  | float (bits : UInt32)
  | long (v : Int64)
  | double (bits : UInt64)
  | string (s : String)
  | classRef (name : String)
  deriving DecidableEq, Repr

/-- The kinds of numbers that arithmetic works on. -/
inductive NumKind where
  | int
  | long
  | float
  | double
  deriving DecidableEq, Repr

/-- The kinds of whole numbers. -/
inductive WholeKind where
  | int
  | long
  deriving DecidableEq, Repr

/-- Element kinds of array accesses. -/
inductive ElemKind where
  | int
  | long
  | float
  | double
  | reference
  | byte
  | char
  | short
  deriving DecidableEq, Repr

/-- Rearrangements of the operand stack. -/
inductive Shuffle where
  | pop
  | pop2
  | dup
  | dupX1
  | dupX2
  | dup2
  | dup2X1
  | dup2X2
  | swap
  deriving DecidableEq, Repr

/-- Arithmetic on every kind of number. -/
inductive ArithOp where
  | add
  | sub
  | mul
  | div
  | rem
  deriving DecidableEq, Repr

/-- Shifts and bitwise operations on whole numbers. -/
inductive BitOp where
  | shl
  | shr
  | ushr
  | and
  | or
  | xor
  deriving DecidableEq, Repr

/-- Conversions between kinds of numbers, and of ints to a narrower range. -/
inductive Conversion where
  | i2l
  | i2f
  | i2d
  | l2i
  | l2f
  | l2d
  | f2i
  | f2l
  | f2d
  | d2i
  | d2l
  | d2f
  | i2b
  | i2c
  | i2s
  deriving DecidableEq, Repr

/-- Comparisons that yield an int.  The two floating-point forms differ in the answer to an
unordered pair: the low form answers -1 and the high form 1. -/
inductive Comparison where
  | long
  | floatLow
  | floatHigh
  | doubleLow
  | doubleHigh
  deriving DecidableEq, Repr

/-- Instructions without operand. -/
inductive PlainOp where
  | nop
  | aconstNull
  | arrayLoad (k : ElemKind)
  | arrayStore (k : ElemKind)
  | shuffle (s : Shuffle)
  | arith (op : ArithOp) (k : NumKind)
  | neg (k : NumKind)
  | bits (op : BitOp) (k : WholeKind)
  | convert (c : Conversion)
  | compare (c : Comparison)
  | leave (k : Option Storage)
  | arrayLength
  | athrow
  | monitorEnter
  | monitorExit
  deriving DecidableEq, Repr

/-- Instructions whose operand is a local slot. -/
inductive SlotOp where
  | load (k : Storage)
  | store (k : Storage)
  | ret
  deriving DecidableEq, Repr

/-- Conditions on ints: against zero, or between two of them. -/
inductive Test where
  | eq
  | ne
  | lt
  | ge
  | gt
  | le
  deriving DecidableEq, Repr

/-- Instructions whose operand is one label. -/
inductive JumpOp where
  | ifZero (t : Test)
  | ifInts (t : Test)
  | ifRefs (equal : Bool)
  | ifNull (null : Bool)
  | goto
  | jsr
  deriving DecidableEq, Repr

/-- Accesses to fields. -/
inductive FieldOp where
  | getStatic
  | putStatic
  | getField
  | putField
  deriving DecidableEq, Repr

/-- Ways of calling a method. -/
inductive InvokeKind where
  | virtual
  | special
  | static
  | interface
  deriving DecidableEq, Repr

/-- Whether a call of this kind takes a receiver off the stack. -/
def InvokeKind.hasReceiver (k : InvokeKind) : Bool := k ≠ .static

/-- Instructions whose operand is a class name. -/
inductive ClassOp where
  | new
  | newArray
  | checkCast
  | instanceOf
  deriving DecidableEq, Repr

/-- One instruction. -/
inductive Instr where
  | plain (op : PlainOp)
  | iconst (v : Int32)
  | lconst (v : Int64)
  | fconst (bits : UInt32)
  | dconst (bits : UInt64)
  | bipush (v : Int8)
  | sipush (v : Int16)
  | ldc (c : Constant)
  | slot (op : SlotOp) (slot : Slot)
  | iinc (slot : Slot) (amount : Int16)
  | jump (op : JumpOp) (target : Label)
  | tableSwitch (low high : Int32) (default : Label) (targets : List Label)
  | lookupSwitch (default : Label) (pairs : List (Int32 × Label))
  | field (op : FieldOp) (ref : MemberRef)
  | invoke (kind : InvokeKind) (ref : MemberRef)
  | invokeDynamic (name descriptor : String)
  | typed (op : ClassOp) (name : String)
  | newArray (k : PrimArray)
  | multiNewArray (descriptor : String) (dims : UInt8)
  | label (l : Label)
  deriving DecidableEq, Repr

namespace Instr

/-- A load of the given storage. -/
@[match_pattern] abbrev load (k : Storage) (s : Slot) : Instr := .slot (.load k) s

/-- A store of the given storage. -/
@[match_pattern] abbrev store (k : Storage) (s : Slot) : Instr := .slot (.store k) s

/-- Every label control may go to, the next instruction excepted; of a switch the default comes
last. -/
def targets : Instr → List Label
  | .jump _ l => [l]
  | .tableSwitch _ _ default targets => targets ++ [default]
  | .lookupSwitch default pairs => pairs.map (·.2) ++ [default]
  | _ => []

/-- Whether control may go on to the next instruction of the stream. -/
def fallsThrough : Instr → Bool
  | .jump .goto _ => false
  | .slot .ret _ => false
  | .tableSwitch .. => false
  | .lookupSwitch .. => false
  | .plain .athrow => false
  | .plain (.leave _) => false
  | _ => true

/-- Whether this instruction is the last of its block. -/
def endsBlock (i : Instr) : Bool := !i.fallsThrough || !i.targets.isEmpty

/-- Whether this instruction leaves the method with or without a value. -/
def isReturn : Instr → Bool
  | .plain (.leave _) => true
  | _ => false

/-- The slot and the storage that a local store writes. -/
def storedSlot? : Instr → Option (Slot × Storage)
  | .slot (.store k) s => some (s, k)
  | _ => none

/-- The slot that an instruction reads or writes, with the width of the access. -/
def slotAccess? : Instr → Option (Slot × Width)
  | .slot (.load k) s => some (s, k.width)
  | .slot (.store k) s => some (s, k.width)
  | .slot .ret s => some (s, .one)
  | .iinc s _ => some (s, .one)
  | _ => none

/-- The method called, and how. -/
def invocation? : Instr → Option (InvokeKind × MemberRef)
  | .invoke kind ref => some (kind, ref)
  | _ => none

/-- The label that a label definition defines. -/
def defined? : Instr → Option Label
  | .label l => some l
  | _ => none

@[simp] theorem endsBlock_label (l : Label) : (label l).endsBlock = false := rfl

end Instr

end Suspension
