import Suspension.Bytecode.Instr

/-!
# Mnemonics

The names of the instructions in assembly text, one for each member of each family.  A family is
read back by looking its members through, so a name and its instruction are stated once.

## Main definitions
* `PlainOp.all`, `SlotOp.all`, … : the members of each family.
* `PlainOp.mnemonic`, `SlotOp.mnemonic`, … : their names.
-/

namespace Suspension

/-- The letter of a storage at the front of a mnemonic. -/
def Storage.letter : Storage → String
  | .int => "i"
  | .long => "l"
  | .float => "f"
  | .double => "d"
  | .reference => "a"

/-- The letter of a kind of number at the front of a mnemonic. -/
def NumKind.letter : NumKind → String
  | .int => "i"
  | .long => "l"
  | .float => "f"
  | .double => "d"

/-- All kinds of numbers. -/
def NumKind.all : List NumKind := [.int, .long, .float, .double]

theorem NumKind.mem_all (x : NumKind) : x ∈ all := by
  cases x <;> decide

/-- The letter of a kind of whole number at the front of a mnemonic. -/
def WholeKind.letter : WholeKind → String
  | .int => "i"
  | .long => "l"

/-- All kinds of whole numbers. -/
def WholeKind.all : List WholeKind := [.int, .long]

theorem WholeKind.mem_all (x : WholeKind) : x ∈ all := by
  cases x <;> decide

/-- The letter of an element kind at the front of a mnemonic. -/
def ElemKind.letter : ElemKind → String
  | .int => "i"
  | .long => "l"
  | .float => "f"
  | .double => "d"
  | .reference => "a"
  | .byte => "b"
  | .char => "c"
  | .short => "s"

/-- All element kinds. -/
def ElemKind.all : List ElemKind :=
  [.int, .long, .float, .double, .reference, .byte, .char, .short]

theorem ElemKind.mem_all (x : ElemKind) : x ∈ all := by
  cases x <;> decide

/-- The name of a shuffle. -/
def Shuffle.mnemonic : Shuffle → String
  | .pop => "pop"
  | .pop2 => "pop2"
  | .dup => "dup"
  | .dupX1 => "dup_x1"
  | .dupX2 => "dup_x2"
  | .dup2 => "dup2"
  | .dup2X1 => "dup2_x1"
  | .dup2X2 => "dup2_x2"
  | .swap => "swap"

/-- All shuffles. -/
def Shuffle.all : List Shuffle :=
  [.pop, .pop2, .dup, .dupX1, .dupX2, .dup2, .dup2X1, .dup2X2, .swap]

theorem Shuffle.mem_all (x : Shuffle) : x ∈ all := by
  cases x <;> decide

/-- The name of an arithmetic operation, without the letter of its kind. -/
def ArithOp.mnemonic : ArithOp → String
  | .add => "add"
  | .sub => "sub"
  | .mul => "mul"
  | .div => "div"
  | .rem => "rem"

/-- All arithmetic operations. -/
def ArithOp.all : List ArithOp := [.add, .sub, .mul, .div, .rem]

theorem ArithOp.mem_all (x : ArithOp) : x ∈ all := by
  cases x <;> decide

/-- The name of a bitwise operation, without the letter of its kind. -/
def BitOp.mnemonic : BitOp → String
  | .shl => "shl"
  | .shr => "shr"
  | .ushr => "ushr"
  | .and => "and"
  | .or => "or"
  | .xor => "xor"

/-- All shifts and bitwise operations. -/
def BitOp.all : List BitOp := [.shl, .shr, .ushr, .and, .or, .xor]

theorem BitOp.mem_all (x : BitOp) : x ∈ all := by
  cases x <;> decide

/-- The name of a conversion. -/
def Conversion.mnemonic : Conversion → String
  | .i2l => "i2l"
  | .i2f => "i2f"
  | .i2d => "i2d"
  | .l2i => "l2i"
  | .l2f => "l2f"
  | .l2d => "l2d"
  | .f2i => "f2i"
  | .f2l => "f2l"
  | .f2d => "f2d"
  | .d2i => "d2i"
  | .d2l => "d2l"
  | .d2f => "d2f"
  | .i2b => "i2b"
  | .i2c => "i2c"
  | .i2s => "i2s"

/-- All conversions. -/
def Conversion.all : List Conversion :=
  [.i2l, .i2f, .i2d, .l2i, .l2f, .l2d, .f2i, .f2l, .f2d, .d2i, .d2l, .d2f, .i2b, .i2c, .i2s]

theorem Conversion.mem_all (x : Conversion) : x ∈ all := by
  cases x <;> decide

/-- The name of a comparison. -/
def Comparison.mnemonic : Comparison → String
  | .long => "lcmp"
  | .floatLow => "fcmpl"
  | .floatHigh => "fcmpg"
  | .doubleLow => "dcmpl"
  | .doubleHigh => "dcmpg"

/-- All comparisons. -/
def Comparison.all : List Comparison := [.long, .floatLow, .floatHigh, .doubleLow, .doubleHigh]

theorem Comparison.mem_all (x : Comparison) : x ∈ all := by
  cases x <;> decide

namespace PlainOp

/-- All instructions without operand. -/
def all : List PlainOp :=
  List.flatten [
    [.nop, .aconstNull],
    ElemKind.all.map arrayLoad,
    ElemKind.all.map arrayStore,
    Shuffle.all.map shuffle,
    ArithOp.all.flatMap fun op => NumKind.all.map (arith op),
    NumKind.all.map neg,
    BitOp.all.flatMap fun op => WholeKind.all.map (bits op),
    Conversion.all.map convert,
    Comparison.all.map compare,
    Storage.all.map fun k => leave (some k),
    [.leave none, .arrayLength, .athrow, .monitorEnter, .monitorExit]]

/-- The name of an instruction without operand. -/
def mnemonic : PlainOp → String
  | .nop => "nop"
  | .aconstNull => "aconst_null"
  | .arrayLoad k => k.letter ++ "aload"
  | .arrayStore k => k.letter ++ "astore"
  | .shuffle s => s.mnemonic
  | .arith op k => k.letter ++ op.mnemonic
  | .neg k => k.letter ++ "neg"
  | .bits op k => k.letter ++ op.mnemonic
  | .convert c => c.mnemonic
  | .compare c => c.mnemonic
  | .leave (some k) => k.letter ++ "return"
  | .leave none => "return"
  | .arrayLength => "arraylength"
  | .athrow => "athrow"
  | .monitorEnter => "monitorenter"
  | .monitorExit => "monitorexit"

theorem mem_all (op : PlainOp) : op ∈ all := by
  cases op with
  | leave k => cases k <;> simp [all, Storage.mem_all]
  | _ =>
    simp [all, ElemKind.mem_all, Shuffle.mem_all, ArithOp.mem_all, NumKind.mem_all, BitOp.mem_all,
      WholeKind.mem_all, Conversion.mem_all, Comparison.mem_all]

end PlainOp

/-- All instructions on a slot. -/
def SlotOp.all : List SlotOp := Storage.all.map .load ++ Storage.all.map .store ++ [.ret]

theorem SlotOp.mem_all (op : SlotOp) : op ∈ all := by
  cases op <;> simp [all, Storage.mem_all]

/-- The name of an instruction on a slot. -/
def SlotOp.mnemonic : SlotOp → String
  | .load k => k.letter ++ "load"
  | .store k => k.letter ++ "store"
  | .ret => "ret"

/-- The name of a condition. -/
def Test.mnemonic : Test → String
  | .eq => "eq"
  | .ne => "ne"
  | .lt => "lt"
  | .ge => "ge"
  | .gt => "gt"
  | .le => "le"

/-- All conditions. -/
def Test.all : List Test := [.eq, .ne, .lt, .ge, .gt, .le]

theorem Test.mem_all (x : Test) : x ∈ all := by
  cases x <;> decide

/-- All jumps. -/
def JumpOp.all : List JumpOp :=
  List.flatten [
    Test.all.map ifZero,
    Test.all.map ifInts,
    [.ifRefs true, .ifRefs false, .ifNull true, .ifNull false, .goto, .jsr]]

theorem JumpOp.mem_all (op : JumpOp) : op ∈ all := by
  cases op with
  | ifRefs equal => cases equal <;> simp [all]
  | ifNull null => cases null <;> simp [all]
  | _ => simp [all, Test.mem_all]

/-- The name of a jump. -/
def JumpOp.mnemonic : JumpOp → String
  | .ifZero t => "if" ++ t.mnemonic
  | .ifInts t => "if_icmp" ++ t.mnemonic
  | .ifRefs true => "if_acmpeq"
  | .ifRefs false => "if_acmpne"
  | .ifNull true => "ifnull"
  | .ifNull false => "ifnonnull"
  | .goto => "goto"
  | .jsr => "jsr"

/-- All accesses to fields. -/
def FieldOp.all : List FieldOp := [.getStatic, .putStatic, .getField, .putField]

theorem FieldOp.mem_all (x : FieldOp) : x ∈ all := by
  cases x <;> decide

/-- The name of an access to a field. -/
def FieldOp.mnemonic : FieldOp → String
  | .getStatic => "getstatic"
  | .putStatic => "putstatic"
  | .getField => "getfield"
  | .putField => "putfield"

/-- All ways of calling a method. -/
def InvokeKind.all : List InvokeKind := [.virtual, .special, .static, .interface]

theorem InvokeKind.mem_all (x : InvokeKind) : x ∈ all := by
  cases x <;> decide

/-- The word for a way of calling a method. -/
def InvokeKind.word : InvokeKind → String
  | .virtual => "virtual"
  | .special => "special"
  | .static => "static"
  | .interface => "interface"

/-- The name of a call. -/
def InvokeKind.mnemonic (k : InvokeKind) : String := "invoke" ++ k.word

/-- All instructions on a class. -/
def ClassOp.all : List ClassOp := [.new, .newArray, .checkCast, .instanceOf]

theorem ClassOp.mem_all (x : ClassOp) : x ∈ all := by
  cases x <;> decide

/-- The name of an instruction on a class. -/
def ClassOp.mnemonic : ClassOp → String
  | .new => "new"
  | .newArray => "anewarray"
  | .checkCast => "checkcast"
  | .instanceOf => "instanceof"

end Suspension
