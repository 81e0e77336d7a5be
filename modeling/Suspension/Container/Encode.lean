import Suspension.Container.Integer
import Suspension.Container.Opcode
import Suspension.Bytecode.Class

/-!
# Encoding of classes

The canonical form of a class: every integer in its shortest form, and the short opcode of a constant
wherever there is one.

## Main definitions
* `Encode.instr`, `Encode.code`, `Encode.method`: the parts.
* `encodeClass`: a whole class.
-/

namespace Suspension.Container

namespace Encode

/-- A count of things that follow, as a number of 32 bits. -/
def count (n : Nat) : List UInt8 := Integer.unsigned (n % 4294967296)

/-- A list behind its length. -/
def vec {α : Type} (item : α → List UInt8) (items : List α) : List UInt8 :=
  count items.length ++ items.flatMap item

/-- A text behind the number of its bytes. -/
def name (s : String) : List UInt8 :=
  count s.toUTF8.data.toList.length ++ s.toUTF8.data.toList

/-- A text that may be missing. -/
def optName : Option String → List UInt8
  | none => [0x00]
  | some s => 0x01 :: name s

/-- A label. -/
def label (l : Label) : List UInt8 := Integer.unsigned l.toNat

/-- A number of 16 bits. -/
def word (n : UInt16) : List UInt8 := Integer.unsigned n.toNat

/-- A field or method. -/
def member (m : MemberRef) : List UInt8 := name m.owner ++ name m.name ++ name m.descriptor

/-- Four bytes, the least significant first. -/
def bits32 (n : UInt32) : List UInt8 :=
  [n.toUInt8, (n >>> 8).toUInt8, (n >>> 16).toUInt8, (n >>> 24).toUInt8]

/-- Eight bytes, the least significant first. -/
def bits64 (n : UInt64) : List UInt8 := bits32 n.toUInt32 ++ bits32 (n >>> 32).toUInt32

/-- A tagged constant. -/
def constant : Constant → List UInt8
  | .int v => Opcode.tagInt :: Integer.signed v.toInt
  | .float bits => Opcode.tagFloat :: bits32 bits
  | .long v => Opcode.tagLong :: Integer.signed v.toInt
  | .double bits => Opcode.tagDouble :: bits64 bits
  | .string s => Opcode.tagString :: name s
  | .classRef c => Opcode.tagClass :: name c

/-- One instruction. -/
def instr : Instr → List UInt8
  | .plain op => [op.opcode]
  | .slot op s => op.opcode :: word s
  | .jump op l => op.opcode :: label l
  | .field op f => op.opcode :: member f
  | .invoke kind m => kind.opcode :: member m
  | .typed op c => op.opcode :: name c
  | .iconst v =>
    if -1 ≤ v ∧ v ≤ 5 then [UInt8.ofNat (Opcode.iconst0.toNat + v.toInt).toNat]
    else Opcode.iconstWide :: Integer.signed v.toInt
  | .lconst v =>
    if v = 0 then [Opcode.lconst0]
    else if v = 1 then [Opcode.lconst1]
    else Opcode.lconstWide :: Integer.signed v.toInt
  | .fconst bits =>
    if bits = 0 then [Opcode.fconst0]
    else if bits = Opcode.floatOne then [Opcode.fconst1]
    else if bits = Opcode.floatTwo then [Opcode.fconst2]
    else Opcode.fconstWide :: bits32 bits
  | .dconst bits =>
    if bits = 0 then [Opcode.dconst0]
    else if bits = Opcode.doubleOne then [Opcode.dconst1]
    else Opcode.dconstWide :: bits64 bits
  | .bipush v => [Opcode.bipush, v.toUInt8]
  | .sipush v => Opcode.sipush :: Integer.signed v.toInt
  | .ldc c => Opcode.ldc :: constant c
  | .iinc s amount => Opcode.iinc :: (word s ++ Integer.signed amount.toInt)
  | .newArray k => [Opcode.newArray, k.code]
  | .multiNewArray descriptor dims => Opcode.multiNewArray :: (name descriptor ++ [dims])
  | .tableSwitch low high default targets =>
    Opcode.tableSwitch ::
      (Integer.signed low.toInt ++ Integer.signed high.toInt ++ label default ++ vec label targets)
  | .lookupSwitch default pairs =>
    Opcode.lookupSwitch ::
      (label default ++ vec (fun p => Integer.signed p.1.toInt ++ label p.2) pairs)
  | .invokeDynamic n descriptor => Opcode.invokeDynamic :: (name n ++ name descriptor)
  | .label l => Opcode.label :: label l

/-- One protected region. -/
def region (r : Region) : List UInt8 :=
  label r.start ++ label r.stop ++ label r.handler ++ optName r.catchType

/-- The body of a method. -/
def code (c : Code) : List UInt8 := vec instr c.instrs ++ vec region c.regions

/-- One method; its body lies behind the number of its bytes. -/
def method (m : Method) : List UInt8 :=
  word m.access ++ name m.name ++ name m.descriptor ++ word m.maxLocals
    ++ count (code m.code).length ++ code m.code

/-- The bytes that every container begins with. -/
def magic : List UInt8 := [0x00, 0x72, 0x63, 0x66]

/-- The version of the container. -/
def version : List UInt8 := [0x01, 0x00, 0x00, 0x00]

end Encode

/-- The canonical form of a class. -/
def encodeClass (c : Class) : List UInt8 :=
  Encode.magic ++ Encode.version ++ Encode.word c.access ++ Encode.name c.name
    ++ Encode.optName c.superName ++ Encode.vec Encode.name c.interfaces
    ++ Encode.vec Encode.method c.methods

end Suspension.Container
