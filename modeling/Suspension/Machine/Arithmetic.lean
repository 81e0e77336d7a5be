import Suspension.Bytecode.Instr
import Suspension.Machine.Value

/-!
# Arithmetic

The numeric instructions as functions on numbers.  Whole numbers wrap around, and division by zero has
no result; floating-point numbers follow IEEE 754 and are given by their bits.

## Main definitions
* `ArithOp.onInts`, `ArithOp.onLongs`, `ArithOp.onFloats`, `ArithOp.onDoubles`.
* `BitOp.onInts`, `BitOp.onLongs`, `Conversion.apply`, `compareLongs`, `compareFloats`, `Test.holds`.
-/

namespace Suspension

namespace ArithOp

/-- Arithmetic on ints; there is no quotient and no remainder by zero. -/
def onInts (op : ArithOp) (a b : Int32) : Option Int32 :=
  match op with
  | .add => some (a + b)
  | .sub => some (a - b)
  | .mul => some (a * b)
  | .div => if b = 0 then none else some (a / b)
  | .rem => if b = 0 then none else some (a % b)

/-- Arithmetic on longs; there is no quotient and no remainder by zero. -/
def onLongs (op : ArithOp) (a b : Int64) : Option Int64 :=
  match op with
  | .add => some (a + b)
  | .sub => some (a - b)
  | .mul => some (a * b)
  | .div => if b = 0 then none else some (a / b)
  | .rem => if b = 0 then none else some (a % b)

/-- Arithmetic on floats. -/
def onFloats (op : ArithOp) (a b : UInt32) : UInt32 :=
  let x := Float32.ofBits a
  let y := Float32.ofBits b
  match op with
  | .add => (x + y).toBits
  | .sub => (x - y).toBits
  | .mul => (x * y).toBits
  | .div => (x / y).toBits
  | .rem => UInt32.ofNat (BinaryFormat.single.remainder a.toNat b.toNat)

/-- Arithmetic on doubles. -/
def onDoubles (op : ArithOp) (a b : UInt64) : UInt64 :=
  let x := Float.ofBits a
  let y := Float.ofBits b
  match op with
  | .add => (x + y).toBits
  | .sub => (x - y).toBits
  | .mul => (x * y).toBits
  | .div => (x / y).toBits
  | .rem => UInt64.ofNat (BinaryFormat.double.remainder a.toNat b.toNat)

end ArithOp

namespace BitOp

/-- Bitwise operations on ints; a shift goes by the lowest five bits of its amount. -/
def onInts (op : BitOp) (a b : Int32) : Int32 :=
  let amount := b.toUInt32 % 32
  match op with
  | .shl => (a.toUInt32 <<< amount).toInt32
  | .shr => a >>> amount.toInt32
  | .ushr => (a.toUInt32 >>> amount).toInt32
  | .and => a &&& b
  | .or => a ||| b
  | .xor => a ^^^ b

/-- Shifts of longs by an int; a shift goes by the lowest six bits of its amount. -/
def shiftLongs (op : BitOp) (a : Int64) (b : Int32) : Int64 :=
  let amount := (b.toUInt32 % 64).toUInt64
  match op with
  | .shl => (a.toUInt64 <<< amount).toInt64
  | .shr => a >>> amount.toInt64
  | _ => (a.toUInt64 >>> amount).toInt64

/-- Bitwise operations on longs. -/
def onLongs (op : BitOp) (a b : Int64) : Int64 :=
  match op with
  | .and => a &&& b
  | .or => a ||| b
  | _ => a ^^^ b

/-- Whether the operation is a shift, of which the second operand is an int in any case. -/
def isShift : BitOp → Bool
  | .shl | .shr | .ushr => true
  | .and | .or | .xor => false

end BitOp

/-- The number with the opposite sign.  Of a floating-point number only the sign bit is flipped, so what is not a
number keeps its payload. -/
def Value.negated : Value → Value
  | .int v => .int (-v)
  | .long v => .long (-v)
  | .float bits => .float (bits ^^^ 0x80000000)
  | .double bits => .double (bits ^^^ 0x8000000000000000)
  | v => v

/-- The storage that a kind of number is moved by. -/
def NumKind.storage : NumKind → Storage
  | .int => .int
  | .long => .long
  | .float => .float
  | .double => .double

/-- The storage that a kind of whole number is moved by. -/
def WholeKind.storage : WholeKind → Storage
  | .int => .int
  | .long => .long

/-- The lowest eight bits of an int, with their sign. -/
def toByte (v : Int32) : Int32 := v.toInt8.toInt32

/-- The lowest sixteen bits of an int, with their sign. -/
def toShort (v : Int32) : Int32 := v.toInt16.toInt32

/-- The lowest sixteen bits of an int, without a sign. -/
def toChar (v : Int32) : Int32 := (v.toUInt32 % 65536).toInt32

/-- The result of a conversion.  Whole numbers are rounded to the nearest floating-point number;
floating-point numbers are cut toward zero and clamped to the range, and what is no number becomes
zero. -/
def Conversion.apply (c : Conversion) (v : Value) : Except ExecError Value := do
  match c with
  | .i2l => return .long (← v.asInt).toInt64
  | .i2f => return .float (← v.asInt).toFloat32.toBits
  | .i2d => return .double (← v.asInt).toFloat.toBits
  | .l2i => return .int (← v.asLong).toInt32
  | .l2f => return .float (← v.asLong).toFloat32.toBits
  | .l2d => return .double (← v.asLong).toFloat.toBits
  | .f2i => return .int (Float32.ofBits (← v.asFloat)).toInt32
  | .f2l => return .long (Float32.ofBits (← v.asFloat)).toInt64
  | .f2d => return .double (Float32.ofBits (← v.asFloat)).toFloat.toBits
  | .d2i => return .int (Float.ofBits (← v.asDouble)).toInt32
  | .d2l => return .long (Float.ofBits (← v.asDouble)).toInt64
  | .d2f => return .float (Float.ofBits (← v.asDouble)).toFloat32.toBits
  | .i2b => return .int (toByte (← v.asInt))
  | .i2c => return .int (toChar (← v.asInt))
  | .i2s => return .int (toShort (← v.asInt))

/-- The answer to a comparison of floating-point numbers. -/
def ordering (greater equal less : Bool) (unordered : Int32) : Int32 :=
  if greater then 1 else if equal then 0 else if less then -1 else unordered

/-- Compares two longs. -/
def compareLongs (a b : Int64) : Int32 := ordering (b < a) (a == b) (a < b) 0

/-- Compares two floats. -/
def compareFloats (a b : UInt32) (unordered : Int32) : Int32 :=
  let x := Float32.ofBits a
  let y := Float32.ofBits b
  ordering (x > y) (x == y) (x < y) unordered

/-- Compares two doubles. -/
def compareDoubles (a b : UInt64) (unordered : Int32) : Int32 :=
  let x := Float.ofBits a
  let y := Float.ofBits b
  ordering (x > y) (x == y) (x < y) unordered

/-- Whether a condition holds between two ints. -/
def Test.holds (t : Test) (a b : Int32) : Bool :=
  match t with
  | .eq => a = b
  | .ne => a ≠ b
  | .lt => a < b
  | .ge => b ≤ a
  | .gt => b < a
  | .le => a ≤ b

end Suspension
