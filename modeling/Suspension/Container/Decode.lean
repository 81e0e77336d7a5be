import Suspension.Container.Encode

/-!
# Decoding of classes

Reads what `encodeClass` writes, and every longer form of its integers and constants.

## Main definitions
* `Parser.instr`, `Parser.code`, `Parser.method`: the parts.
* `decodeClass`: a whole class.
* `DecodeError`: where and why a container was refused.
-/

namespace Suspension.Container

namespace Parser

variable {α : Type}

/-- A number of 16 bits. -/
def word : Parser UInt16 := do return UInt16.ofNat (← unsigned 16)

/-- A number of 32 bits. -/
def count : Parser UInt32 := do return UInt32.ofNat (← unsigned 32)

/-- A signed number of 16 bits. -/
def short : Parser Int16 := do return Int16.ofInt (← signed 16)

/-- A signed number of 32 bits. -/
def int : Parser Int32 := do return Int32.ofInt (← signed 32)

/-- A signed number of 64 bits. -/
def long : Parser Int64 := do return Int64.ofInt (← signed 64)

/-- A label. -/
def label : Parser Label := count

/-- A list behind its length. -/
def vec (item : Parser α) : Parser (List α) := do
  let n ← count
  times item n.toNat

/-- The text of bytes that encode one. -/
def text? (bytes : List UInt8) : Option String := String.fromUTF8? ⟨bytes.toArray⟩

/-- A text behind the number of its bytes. -/
def name : Parser String :=
  filterMap (do take (← count).toNat) text? .invalidText

/-- Whether an optional text is there. -/
def flag : Parser Bool :=
  filterMap byte (fun b => if b = 0x00 then some false else if b = 0x01 then some true else none)
    .invalidTag

/-- A text that may be missing. -/
def optName : Parser (Option String) := do
  if ← flag then return some (← name) else return none

/-- A field or method. -/
def member : Parser MemberRef := do
  let owner ← name
  let n ← name
  let descriptor ← name
  return ⟨owner, n, descriptor⟩

/-- The number of bytes that have the least significant first. -/
def littleEndian (bytes : List UInt8) : Nat := bytes.foldr (fun b n => b.toNat + 256 * n) 0

/-- Four bytes, the least significant first. -/
def bits32 : Parser UInt32 := do return UInt32.ofNat (littleEndian (← take 4))

/-- Eight bytes, the least significant first. -/
def bits64 : Parser UInt64 := do return UInt64.ofNat (littleEndian (← take 8))

/-- What follows each tag of a constant. -/
def constantOfTag? (tag : UInt8) : Option (Parser Constant) :=
  if tag = Opcode.tagInt then some do return .int (← int)
  else if tag = Opcode.tagFloat then some do return .float (← bits32)
  else if tag = Opcode.tagLong then some do return .long (← long)
  else if tag = Opcode.tagDouble then some do return .double (← bits64)
  else if tag = Opcode.tagString then some do return .string (← name)
  else if tag = Opcode.tagClass then some do return .classRef (← name)
  else none

/-- A tagged constant. -/
def constant : Parser Constant := do
  let operand ← filterMap byte constantOfTag? .invalidTag
  operand

/-- A switch over a range, refused unless it has a target for each number of the range. -/
def tableSwitch : Parser Instr :=
  filterMap (do
      let low ← int
      let high ← int
      let default ← label
      let targets ← vec label
      return (low, high, default, targets))
    (fun (low, high, default, targets) =>
      if high.toInt - low.toInt + 1 = targets.length then
        some (.tableSwitch low high default targets)
      else none)
    .lengthMismatch

/-- A switch over listed keys. -/
def lookupSwitch : Parser Instr := do
  let default ← label
  let pairs ← vec do
    let key ← int
    let target ← label
    return (key, target)
  return .lookupSwitch default pairs

/-- What follows each opcode of the table. -/
def tabled? (b : UInt8) : Option (Parser Instr) :=
  match PlainOp.ofOpcode? b with
  | some op => some (pure (.plain op))
  | none =>
  match SlotOp.ofOpcode? b with
  | some op => some do return .slot op (← word)
  | none =>
  match JumpOp.ofOpcode? b with
  | some op => some do return .jump op (← label)
  | none =>
  match FieldOp.ofOpcode? b with
  | some op => some do return .field op (← member)
  | none =>
  match InvokeKind.ofOpcode? b with
  | some kind => some do return .invoke kind (← member)
  | none =>
  match ClassOp.ofOpcode? b with
  | some op => some do return .typed op (← name)
  | none => none

/-- What follows each opcode outside the table. -/
def untabled? (b : UInt8) : Option (Parser Instr) :=
  if 0x02 ≤ b ∧ b ≤ 0x08 then
    some (pure (.iconst (Int32.ofInt ((b.toNat : Int) - Opcode.iconst0.toNat))))
  else if b = Opcode.iconstWide then some do return .iconst (← int)
  else if b = Opcode.lconst0 then some (pure (.lconst 0))
  else if b = Opcode.lconst1 then some (pure (.lconst 1))
  else if b = Opcode.lconstWide then some do return .lconst (← long)
  else if b = Opcode.fconst0 then some (pure (.fconst 0))
  else if b = Opcode.fconst1 then some (pure (.fconst Opcode.floatOne))
  else if b = Opcode.fconst2 then some (pure (.fconst Opcode.floatTwo))
  else if b = Opcode.fconstWide then some do return .fconst (← bits32)
  else if b = Opcode.dconst0 then some (pure (.dconst 0))
  else if b = Opcode.dconst1 then some (pure (.dconst Opcode.doubleOne))
  else if b = Opcode.dconstWide then some do return .dconst (← bits64)
  else if b = Opcode.bipush then some do return .bipush (← byte).toInt8
  else if b = Opcode.sipush then some do return .sipush (← short)
  else if b = Opcode.ldc then some do return .ldc (← inside .constant constant)
  else if b = Opcode.iinc then some do
    let s ← word
    return .iinc s (← short)
  else if b = Opcode.newArray then
    some (filterMap byte (fun c => (PrimArray.ofCode? c).map .newArray) .invalidTag)
  else if b = Opcode.multiNewArray then some do
    let descriptor ← name
    return .multiNewArray descriptor (← byte)
  else if b = Opcode.tableSwitch then some (inside .tableSwitch tableSwitch)
  else if b = Opcode.lookupSwitch then some (inside .lookupSwitch lookupSwitch)
  else if b = Opcode.invokeDynamic then some do
    let n ← name
    return .invokeDynamic n (← name)
  else if b = Opcode.label then some do return .label (← label)
  else none

/-- What follows each opcode. -/
def operands? (b : UInt8) : Option (Parser Instr) := (tabled? b).or (untabled? b)

/-- One instruction. -/
def instr : Parser Instr := do
  let operands ← filterMap byte operands? .unknownOpcode
  operands

/-- One protected region. -/
def region : Parser Region := do
  let start ← label
  let stop ← label
  let handler ← label
  let catchType ← optName
  return ⟨start, stop, handler, catchType⟩

/-- The body of a method. -/
def code : Parser Code := do
  let instrs ← vec (inside .instruction instr)
  let regions ← vec (inside .region region)
  return ⟨instrs, regions⟩

/-- One method. -/
def method : Parser Method := do
  let access ← word
  let n ← inside .methodName name
  let descriptor ← inside .methodDescriptor name
  let maxLocals ← word
  let size ← count
  let body ← inside .code (take size.toNat)
  let c ← enclosed code body
  return ⟨access, n, descriptor, maxLocals, c⟩

/-- A whole container. -/
def container : Parser Class := do
  inside .magic (exactly Encode.magic)
  inside .version (exactly Encode.version)
  let access ← word
  let n ← inside .className name
  let superName ← optName
  let interfaces ← vec name
  let methods ← vec (inside .method method)
  return ⟨access, n, superName, interfaces, methods⟩

end Parser

/-- Where a container was refused, and why. -/
structure DecodeError where
  offset : Nat
  reason : Reason
  parts : List Part
  deriving DecidableEq, Repr

/-- The diagnostic for a refused container. -/
def DecodeError.message (e : DecodeError) : String :=
  "malformed class container at byte " ++ toString e.offset ++ ": " ++ e.reason.message

/-- The class that the whole of the bytes encodes. -/
def decodeClass (bytes : List UInt8) : Except DecodeError Class :=
  match Parser.whole Parser.container bytes with
  | .ok c => .ok c
  | .error e => .error ⟨bytes.length - e.remaining, e.reason, e.parts⟩

end Suspension.Container
