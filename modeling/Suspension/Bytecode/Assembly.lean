import Suspension.Bytecode.Mnemonic
import Suspension.Text.Hex

/-!
# Assembly

An instruction in assembly is a line: its mnemonic with its operands.  Numbers of 64 bits are written as
text, so that they survive readers that keep fewer bits, and floating-point numbers are written as the
hexadecimal digits of their bits, so that every one of them comes back as it was.

## Main definitions
* `Operand`, `Line`.
* `Instr.line`: an instruction as a line.
* `Line.instr?`: the instruction of a line.
-/

namespace Suspension

/-- What may follow a mnemonic. -/
inductive Operand where
  | number (n : Int)
  | text (s : String)
  | list (items : List Operand)

/-- A mnemonic with its operands. -/
structure Line where
  mnemonic : String
  operands : List Operand

namespace Operand

/-- A number in a range; it may also be written as text. -/
def int? (low high : Int) (o : Operand) : Option Int :=
  let n := match o with
    | .number n => some n
    | .text s => s.toInt?
    | .list _ => none
  n.filter fun n => low ≤ n && n ≤ high

/-- A number without a sign, of a number of bits. -/
def unsigned? (bits : Nat) (o : Operand) : Option Nat := (o.int? 0 ((1 <<< bits : Nat) - 1)).map Int.toNat

/-- A number with a sign, of a number of bits. -/
def signed? (bits : Nat) (o : Operand) : Option Int :=
  o.int? (-(1 <<< (bits - 1) : Nat)) ((1 <<< (bits - 1) : Nat) - 1)

/-- A slot. -/
def slot? (o : Operand) : Option Slot := (o.unsigned? 16).map UInt16.ofNat

/-- A label. -/
def label? (o : Operand) : Option Label := (o.unsigned? 32).map UInt32.ofNat

/-- An int. -/
def int32? (o : Operand) : Option Int32 := (o.signed? 32).map Int32.ofInt

/-- A text. -/
def text? : Operand → Option String
  | .text s => some s
  | _ => none

/-- A list of operands of one sort. -/
def list? {α : Type} (item? : Operand → Option α) : Operand → Option (List α)
  | .list items => items.mapM item?
  | _ => none

/-- A key of a switch with its target. -/
def case? : Operand → Option (Int32 × Label)
  | .list [k, l] => do return (← k.int32?, ← l.label?)
  | _ => none

/-- Bits, by their hexadecimal digits. -/
def bits? (digits : Nat) (o : Operand) : Option Nat := o.text?.bind (Text.ofHex? digits)

/-- A slot. -/
def slot (s : Slot) : Operand := .number s.toNat

/-- A label. -/
def label (l : Label) : Operand := .number l.toNat

/-- A long. -/
def long (v : Int64) : Operand := .text (toString v.toInt)

/-- The bits of a float. -/
def float (bits : UInt32) : Operand := .text (Text.hex 8 bits.toNat)

/-- The bits of a double. -/
def double (bits : UInt64) : Operand := .text (Text.hex 16 bits.toNat)

/-- A field or a method. -/
def member (m : MemberRef) : List Operand := [.text m.owner, .text m.name, .text m.descriptor]

end Operand

/-- The word for the sort of a constant, and the constant. -/
def Constant.operands : Constant → List Operand
  | .int v => [.text "int", .number v.toInt]
  | .float bits => [.text "float", .float bits]
  | .long v => [.text "long", .long v]
  | .double bits => [.text "double", .double bits]
  | .string s => [.text "string", .text s]
  | .classRef name => [.text "class", .text name]

/-- An instruction as a line. -/
def Instr.line : Instr → Line
  | .plain op => ⟨op.mnemonic, []⟩
  | .iconst v => ⟨"iconst", [.number v.toInt]⟩
  | .lconst v => ⟨"lconst", [.long v]⟩
  | .fconst bits => ⟨"fconst", [.float bits]⟩
  | .dconst bits => ⟨"dconst", [.double bits]⟩
  | .bipush v => ⟨"bipush", [.number v.toInt]⟩
  | .sipush v => ⟨"sipush", [.number v.toInt]⟩
  | .ldc c => ⟨"ldc", c.operands⟩
  | .slot op s => ⟨op.mnemonic, [.slot s]⟩
  | .iinc s v => ⟨"iinc", [.slot s, .number v.toInt]⟩
  | .jump op l => ⟨op.mnemonic, [.label l]⟩
  | .tableSwitch low high default targets =>
    ⟨"tableswitch", [.number low.toInt, .number high.toInt, .label default,
      .list (targets.map .label)]⟩
  | .lookupSwitch default pairs =>
    ⟨"lookupswitch", [.label default,
      .list (pairs.map fun (k, l) => .list [.number k.toInt, .label l])]⟩
  | .field op f => ⟨op.mnemonic, Operand.member f⟩
  | .invoke k m => ⟨k.mnemonic, Operand.member m⟩
  | .invokeDynamic name descriptor => ⟨"invokedynamic", [.text name, .text descriptor]⟩
  | .typed op name => ⟨op.mnemonic, [.text name]⟩
  | .newArray k => ⟨"newarray", [.number k.code.toNat]⟩
  | .multiNewArray descriptor dims =>
    ⟨"multianewarray", [.text descriptor, .number dims.toNat]⟩
  | .label l => ⟨"label", [.label l]⟩

/-- The constant behind the word for its sort. -/
def Constant.ofOperand? (sort : String) (o : Operand) : Option Constant :=
  match sort with
  | "int" => o.int32?.map .int
  | "float" => (o.bits? 8).map fun n => .float (UInt32.ofNat n)
  | "long" => (o.signed? 64).map fun n => .long (Int64.ofInt n)
  | "double" => (o.bits? 16).map fun n => .double (UInt64.ofNat n)
  | "string" => o.text?.map .string
  | "class" => o.text?.map .classRef
  | _ => none

namespace Line

/-- The member of a family that has a mnemonic. -/
def named? {α : Type} (all : List α) (name : α → String) (mnemonic : String) : Option α :=
  all.find? (name · == mnemonic)

/-- A line with the mnemonic of a family. -/
def inFamily? (l : Line) : Option Instr :=
  match l.operands with
  | [] => (named? PlainOp.all PlainOp.mnemonic l.mnemonic).map .plain
  | [o] =>
    match named? SlotOp.all SlotOp.mnemonic l.mnemonic, named? JumpOp.all JumpOp.mnemonic l.mnemonic,
      named? ClassOp.all ClassOp.mnemonic l.mnemonic with
    | some op, _, _ => o.slot?.map (.slot op)
    | _, some op, _ => o.label?.map (.jump op)
    | _, _, some op => o.text?.map (.typed op)
    | _, _, _ => none
  | [.text owner, .text name, .text descriptor] =>
    let m : MemberRef := ⟨owner, name, descriptor⟩
    ((named? FieldOp.all FieldOp.mnemonic l.mnemonic).map (.field · m)).or
      ((named? InvokeKind.all InvokeKind.mnemonic l.mnemonic).map (.invoke · m))
  | _ => none

/-- A line with a mnemonic of its own. -/
def alone? (l : Line) : Option Instr := do
  match l.mnemonic, l.operands with
  | "iconst", [v] => return .iconst (← v.int32?)
  | "lconst", [v] => return .lconst (Int64.ofInt (← v.signed? 64))
  | "fconst", [v] => return .fconst (UInt32.ofNat (← v.bits? 8))
  | "dconst", [v] => return .dconst (UInt64.ofNat (← v.bits? 16))
  | "bipush", [v] => return .bipush (Int8.ofInt (← v.signed? 8))
  | "sipush", [v] => return .sipush (Int16.ofInt (← v.signed? 16))
  | "ldc", [sort, v] => return .ldc (← Constant.ofOperand? (← sort.text?) v)
  | "iinc", [s, v] => return .iinc (← s.slot?) (Int16.ofInt (← v.signed? 16))
  | "tableswitch", [low, high, default, targets] =>
    return .tableSwitch (← low.int32?) (← high.int32?) (← default.label?)
      (← targets.list? Operand.label?)
  | "lookupswitch", [default, pairs] =>
    return .lookupSwitch (← default.label?) (← pairs.list? Operand.case?)
  | "invokedynamic", [name, descriptor] =>
    return .invokeDynamic (← name.text?) (← descriptor.text?)
  | "newarray", [code] =>
    return .newArray (← PrimArray.ofCode? (UInt8.ofNat (← code.unsigned? 8)))
  | "multianewarray", [descriptor, dims] =>
    return .multiNewArray (← descriptor.text?) (UInt8.ofNat (← dims.unsigned? 8))
  | "label", [o] => return .label (← o.label?)
  | _, _ => none

/-- The instruction of a line. -/
def instr? (l : Line) : Option Instr := l.alone?.or l.inFamily?

end Line

end Suspension
