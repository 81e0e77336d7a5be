import Suspension.Bytecode.Mnemonic

/-!
# Opcodes

The byte that stands for an instruction, with the numbers of the JVM.  Instructions with one operand
of a common sort have their opcode in a table shared by both directions: the opcode of each member is
a function, and an opcode is read by looking the members through.  The rest have opcodes of their own,
among them four for constants in full width.

## Main definitions
* `PlainOp.opcode`, `SlotOp.opcode`, … and `PlainOp.ofOpcode?`, `SlotOp.ofOpcode?`, …
* `Opcode`: the opcodes outside the table, and the tags of constants.
-/

namespace Suspension

/-- Place of a storage in a group of opcodes. -/
def Storage.place : Storage → UInt8
  | .int => 0
  | .long => 1
  | .float => 2
  | .double => 3
  | .reference => 4

/-- Place of a kind of number in a group of opcodes. -/
def NumKind.place : NumKind → UInt8
  | .int => 0
  | .long => 1
  | .float => 2
  | .double => 3

/-- Place of a kind of whole number in a group of opcodes. -/
def WholeKind.place : WholeKind → UInt8
  | .int => 0
  | .long => 1

/-- Place of an element kind in a group of opcodes. -/
def ElemKind.place : ElemKind → UInt8
  | .int => 0
  | .long => 1
  | .float => 2
  | .double => 3
  | .reference => 4
  | .byte => 5
  | .char => 6
  | .short => 7

/-- The opcode of a shuffle. -/
def Shuffle.opcode : Shuffle → UInt8
  | .pop => 0x57
  | .pop2 => 0x58
  | .dup => 0x59
  | .dupX1 => 0x5A
  | .dupX2 => 0x5B
  | .dup2 => 0x5C
  | .dup2X1 => 0x5D
  | .dup2X2 => 0x5E
  | .swap => 0x5F

/-- The first opcode of an arithmetic operation. -/
def ArithOp.opcode : ArithOp → UInt8
  | .add => 0x60
  | .sub => 0x64
  | .mul => 0x68
  | .div => 0x6C
  | .rem => 0x70

/-- The first opcode of a bitwise operation. -/
def BitOp.opcode : BitOp → UInt8
  | .shl => 0x78
  | .shr => 0x7A
  | .ushr => 0x7C
  | .and => 0x7E
  | .or => 0x80
  | .xor => 0x82

/-- The opcode of a conversion. -/
def Conversion.opcode : Conversion → UInt8
  | .i2l => 0x85
  | .i2f => 0x86
  | .i2d => 0x87
  | .l2i => 0x88
  | .l2f => 0x89
  | .l2d => 0x8A
  | .f2i => 0x8B
  | .f2l => 0x8C
  | .f2d => 0x8D
  | .d2i => 0x8E
  | .d2l => 0x8F
  | .d2f => 0x90
  | .i2b => 0x91
  | .i2c => 0x92
  | .i2s => 0x93

/-- The opcode of a comparison. -/
def Comparison.opcode : Comparison → UInt8
  | .long => 0x94
  | .floatLow => 0x95
  | .floatHigh => 0x96
  | .doubleLow => 0x97
  | .doubleHigh => 0x98

/-- Place of a condition in a group of opcodes. -/
def Test.place : Test → UInt8
  | .eq => 0
  | .ne => 1
  | .lt => 2
  | .ge => 3
  | .gt => 4
  | .le => 5

namespace PlainOp

/-- The opcode of an instruction without operand. -/
def opcode : PlainOp → UInt8
  | .nop => 0x00
  | .aconstNull => 0x01
  | .arrayLoad k => 0x2E + k.place
  | .arrayStore k => 0x4F + k.place
  | .shuffle s => s.opcode
  | .arith op k => op.opcode + k.place
  | .neg k => 0x74 + k.place
  | .bits op k => op.opcode + k.place
  | .convert c => c.opcode
  | .compare c => c.opcode
  | .leave (some k) => 0xAC + k.place
  | .leave none => 0xB1
  | .arrayLength => 0xBE
  | .athrow => 0xBF
  | .monitorEnter => 0xC2
  | .monitorExit => 0xC3

/-- The instruction without operand of an opcode. -/
def ofOpcode? (b : UInt8) : Option PlainOp := all.find? (·.opcode == b)

end PlainOp

namespace SlotOp

/-- The opcode of an instruction on a slot. -/
def opcode : SlotOp → UInt8
  | .load k => 0x15 + k.place
  | .store k => 0x36 + k.place
  | .ret => 0xA9

/-- The instruction on a slot of an opcode. -/
def ofOpcode? (b : UInt8) : Option SlotOp := all.find? (·.opcode == b)

end SlotOp

namespace JumpOp

/-- The opcode of a jump. -/
def opcode : JumpOp → UInt8
  | .ifZero t => 0x99 + t.place
  | .ifInts t => 0x9F + t.place
  | .ifRefs true => 0xA5
  | .ifRefs false => 0xA6
  | .goto => 0xA7
  | .jsr => 0xA8
  | .ifNull true => 0xC6
  | .ifNull false => 0xC7

/-- The jump of an opcode. -/
def ofOpcode? (b : UInt8) : Option JumpOp := all.find? (·.opcode == b)

end JumpOp

namespace FieldOp

/-- The opcode of an access to a field. -/
def opcode : FieldOp → UInt8
  | .getStatic => 0xB2
  | .putStatic => 0xB3
  | .getField => 0xB4
  | .putField => 0xB5

/-- The access to a field of an opcode. -/
def ofOpcode? (b : UInt8) : Option FieldOp := all.find? (·.opcode == b)

end FieldOp

namespace InvokeKind

/-- The opcode of a call. -/
def opcode : InvokeKind → UInt8
  | .virtual => 0xB6
  | .special => 0xB7
  | .static => 0xB8
  | .interface => 0xB9

/-- The call of an opcode. -/
def ofOpcode? (b : UInt8) : Option InvokeKind := all.find? (·.opcode == b)

end InvokeKind

namespace ClassOp

/-- The opcode of an instruction on a class. -/
def opcode : ClassOp → UInt8
  | .new => 0xBB
  | .newArray => 0xBD
  | .checkCast => 0xC0
  | .instanceOf => 0xC1

/-- The instruction on a class of an opcode. -/
def ofOpcode? (b : UInt8) : Option ClassOp := all.find? (·.opcode == b)

end ClassOp

namespace Opcode

/-- The int zero; the constants from -1 to 5 lie around it. -/
def iconst0 : UInt8 := 0x03

@[inherit_doc iconst0]
def lconst0 : UInt8 := 0x09

@[inherit_doc iconst0]
def lconst1 : UInt8 := 0x0A

/-- The floats 0, 1 and 2. -/
def fconst0 : UInt8 := 0x0B

@[inherit_doc fconst0]
def fconst1 : UInt8 := 0x0C

@[inherit_doc fconst0]
def fconst2 : UInt8 := 0x0D

/-- The doubles 0 and 1. -/
def dconst0 : UInt8 := 0x0E

@[inherit_doc dconst0]
def dconst1 : UInt8 := 0x0F

/-- An int of one byte. -/
def bipush : UInt8 := 0x10

/-- An int of two bytes. -/
def sipush : UInt8 := 0x11

/-- A tagged constant. -/
def ldc : UInt8 := 0x12

/-- An addition to a slot. -/
def iinc : UInt8 := 0x84

/-- A switch over a range. -/
def tableSwitch : UInt8 := 0xAA

/-- A switch over listed keys. -/
def lookupSwitch : UInt8 := 0xAB

/-- A call that is bound when it is made. -/
def invokeDynamic : UInt8 := 0xBA

/-- An array of numbers. -/
def newArray : UInt8 := 0xBC

/-- An array of several dimensions. -/
def multiNewArray : UInt8 := 0xC5

/-- Any int. -/
def iconstWide : UInt8 := 0xCB

/-- Any long. -/
def lconstWide : UInt8 := 0xCC

/-- Any float. -/
def fconstWide : UInt8 := 0xCD

/-- Any double. -/
def dconstWide : UInt8 := 0xCE

/-- The definition of a label. -/
def label : UInt8 := 0xFE

/-- Tag of an int constant. -/
def tagInt : UInt8 := 3

/-- Tag of a float constant. -/
def tagFloat : UInt8 := 4

/-- Tag of a long constant. -/
def tagLong : UInt8 := 5

/-- Tag of a double constant. -/
def tagDouble : UInt8 := 6

/-- Tag of a class constant. -/
def tagClass : UInt8 := 7

/-- Tag of a string constant. -/
def tagString : UInt8 := 8

/-- The bits of the float 1. -/
def floatOne : UInt32 := 0x3F800000

/-- The bits of the float 2. -/
def floatTwo : UInt32 := 0x40000000

/-- The bits of the double 1. -/
def doubleOne : UInt64 := 0x3FF0000000000000

end Opcode

end Suspension
