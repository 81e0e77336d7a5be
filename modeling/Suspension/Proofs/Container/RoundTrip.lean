import Suspension.Proofs.Container.Reading

/-!
# Decoding what was encoded

A class comes back from its encoding as it was, if every length in it can be written in 32 bits and every
switch over a range has a target for each number of its range.  Constants are kept as their bits, so
nothing is lost of floating-point numbers.

## Main definitions
* `Class.Encodable`, and the same for the parts of a class.

## Main results
* `Parser.operands?_plain`, …: no two instructions share an opcode.
* `Parser.reads_instr`, `Parser.reads_code`, `Parser.reads_method`: each part is read back.
* `decodeClass_encodeClass`: so is the class.
-/

namespace Suspension

/-- A text whose length can be written. -/
abbrev Short (s : String) : Prop := s.utf8ByteSize < 2 ^ 32

/-- A field or method that can be written. -/
structure MemberRef.Encodable (m : MemberRef) : Prop where
  owner : Short m.owner
  name : Short m.name
  descriptor : Short m.descriptor

/-- A constant that can be written. -/
def Constant.Encodable : Constant → Prop
  | .string s => Short s
  | .classRef name => Short name
  | .int _ | .float _ | .long _ | .double _ => True

/-- An instruction that can be written: the numbers of a switch over a range are as many as its targets. -/
def Instr.Encodable : Instr → Prop
  | .ldc c => c.Encodable
  | .field _ m => m.Encodable
  | .invoke _ m => m.Encodable
  | .invokeDynamic name descriptor => Short name ∧ Short descriptor
  | .typed _ name => Short name
  | .multiNewArray descriptor _ => Short descriptor
  | .tableSwitch low high _ targets =>
    targets.length < 2 ^ 32 ∧ high.toInt - low.toInt + 1 = targets.length
  | .lookupSwitch _ pairs => pairs.length < 2 ^ 32
  | .plain _ | .iconst _ | .lconst _ | .fconst _ | .dconst _ | .bipush _ | .sipush _ | .slot ..
  | .iinc .. | .jump .. | .newArray _ | .label _ => True

/-- Code that can be written. -/
structure Code.Encodable (c : Code) : Prop where
  instrs : c.instrs.length < 2 ^ 32
  each : ∀ i ∈ c.instrs, i.Encodable
  regions : c.regions.length < 2 ^ 32
  caught : ∀ r ∈ c.regions, ∀ name ∈ r.catchType, Short name

/-- A method that can be written. -/
structure Method.Encodable (m : Method) : Prop where
  name : Short m.name
  descriptor : Short m.descriptor
  body : (Container.Encode.code m.code).length < 2 ^ 32
  code : m.code.Encodable

/-- A class that can be written. -/
structure Class.Encodable (c : Class) : Prop where
  name : Short c.name
  superName : ∀ name ∈ c.superName, Short name
  interfaces : c.interfaces.length < 2 ^ 32
  interface : ∀ name ∈ c.interfaces, Short name
  methods : c.methods.length < 2 ^ 32
  method : ∀ m ∈ c.methods, m.Encodable

namespace Container.Parser

/-! ## Opcodes -/

theorem operands?_plain (op : PlainOp) : operands? op.opcode = some (pure (.plain op)) := by
  have own : ∀ op ∈ PlainOp.all, PlainOp.ofOpcode? op.opcode = some op := by
    decide +kernel
  simp [operands?, tabled?, own op (PlainOp.mem_all op)]

theorem operands?_slot (op : SlotOp) :
    operands? op.opcode = some (do return .slot op (← word)) := by
  have own : ∀ op ∈ SlotOp.all, PlainOp.ofOpcode? op.opcode = none ∧
      SlotOp.ofOpcode? op.opcode = some op := by
    decide +kernel
  simp [operands?, tabled?, own op (SlotOp.mem_all op)]

theorem operands?_jump (op : JumpOp) :
    operands? op.opcode = some (do return .jump op (← label)) := by
  have own : ∀ op ∈ JumpOp.all, PlainOp.ofOpcode? op.opcode = none ∧
      SlotOp.ofOpcode? op.opcode = none ∧ JumpOp.ofOpcode? op.opcode = some op := by
    decide +kernel
  simp [operands?, tabled?, own op (JumpOp.mem_all op)]

theorem operands?_field (op : FieldOp) :
    operands? op.opcode = some (do return .field op (← member)) := by
  have own : ∀ op ∈ FieldOp.all, PlainOp.ofOpcode? op.opcode = none ∧
      SlotOp.ofOpcode? op.opcode = none ∧ JumpOp.ofOpcode? op.opcode = none ∧
      FieldOp.ofOpcode? op.opcode = some op := by
    decide +kernel
  simp [operands?, tabled?, own op (FieldOp.mem_all op)]

theorem operands?_invoke (kind : InvokeKind) :
    operands? kind.opcode = some (do return .invoke kind (← member)) := by
  have own : ∀ kind ∈ InvokeKind.all, PlainOp.ofOpcode? kind.opcode = none ∧
      SlotOp.ofOpcode? kind.opcode = none ∧ JumpOp.ofOpcode? kind.opcode = none ∧
      FieldOp.ofOpcode? kind.opcode = none ∧ InvokeKind.ofOpcode? kind.opcode = some kind := by
    decide +kernel
  simp [operands?, tabled?, own kind (InvokeKind.mem_all kind)]

theorem operands?_typed (op : ClassOp) :
    operands? op.opcode = some (do return .typed op (← name)) := by
  have own : ∀ op ∈ ClassOp.all, PlainOp.ofOpcode? op.opcode = none ∧
      SlotOp.ofOpcode? op.opcode = none ∧ JumpOp.ofOpcode? op.opcode = none ∧
      FieldOp.ofOpcode? op.opcode = none ∧ InvokeKind.ofOpcode? op.opcode = none ∧
      ClassOp.ofOpcode? op.opcode = some op := by
    decide +kernel
  simp [operands?, tabled?, own op (ClassOp.mem_all op)]

/-! ## Parts of instructions -/

theorem reads_member {m : MemberRef} (h : m.Encodable) : member.Reads (Encode.member m) m := by
  have parts := (reads_name h.owner).bind (f := fun owner => do
      let n ← name
      let descriptor ← name
      return (⟨owner, n, descriptor⟩ : MemberRef))
    ((reads_name h.name).bind ((reads_name h.descriptor).map _))
  rwa [← List.append_assoc] at parts

theorem reads_constant {c : Constant} (h : c.Encodable) : constant.Reads (Encode.constant c) c := by
  cases c with
  | int v =>
    exact Reads.tagged Opcode.tagInt rfl ((reads_int v).map Constant.int) .invalidTag
  | float bits =>
    exact Reads.tagged Opcode.tagFloat rfl ((reads_bits32 bits).map Constant.float) .invalidTag
  | long v =>
    exact Reads.tagged Opcode.tagLong rfl ((reads_long v).map Constant.long) .invalidTag
  | double bits =>
    exact Reads.tagged Opcode.tagDouble rfl ((reads_bits64 bits).map Constant.double) .invalidTag
  | string s =>
    exact Reads.tagged Opcode.tagString rfl ((reads_name h).map Constant.string) .invalidTag
  | classRef n =>
    exact Reads.tagged Opcode.tagClass rfl ((reads_name h).map Constant.classRef) .invalidTag

theorem reads_tableSwitch {low high : Int32} {default : Label} {targets : List Label}
    (h : (Instr.tableSwitch low high default targets).Encodable) :
    tableSwitch.Reads
      (Integer.signed low.toInt ++ Integer.signed high.toInt ++ Encode.label default
        ++ Encode.vec Encode.label targets)
      (.tableSwitch low high default targets) := by
  have listed := reads_vec h.1 fun l _ => reads_label l
  have parts := (reads_int low).bind (f := fun low => do
      let high ← int
      let default ← label
      let targets ← vec label
      return (low, high, default, targets))
    ((reads_int high).bind ((reads_label default).bind (listed.map _)))
  rw [← List.append_assoc, ← List.append_assoc] at parts
  exact parts.filterMap (by simp [h.2]) .lengthMismatch

theorem reads_lookupSwitch {default : Label} {pairs : List (Int32 × Label)}
    (h : (Instr.lookupSwitch default pairs).Encodable) :
    lookupSwitch.Reads
      (Encode.label default ++ Encode.vec (fun p => Integer.signed p.1.toInt ++ Encode.label p.2) pairs)
      (.lookupSwitch default pairs) := by
  have pair (p : Int32 × Label) :
      Reads (do
        let key ← int
        let target ← label
        return (key, target)) (Integer.signed p.1.toInt ++ Encode.label p.2) p :=
    (reads_int p.1).bind ((reads_label p.2).map _)
  exact (reads_label default).bind ((reads_vec h fun p _ => pair p).map _)

/-! ## Instructions -/

/-- The ints from -1 to 5 have opcodes of their own. -/
theorem operands?_iconst {v : Int32} (low : -1 ≤ v) (high : v ≤ 5) :
    operands? (UInt8.ofNat (Opcode.iconst0.toNat + v.toInt).toNat) = some (pure (.iconst v)) := by
  have few : v = -1 ∨ v = 0 ∨ v = 1 ∨ v = 2 ∨ v = 3 ∨ v = 4 ∨ v = 5 := by
    simp only [Int32.le_iff_toInt_le] at low high
    simp only [← Int32.toInt_inj]
    simp at low high ⊢
    omega
  rcases few with rfl | rfl | rfl | rfl | rfl | rfl | rfl <;> rfl

/-- What follows an opcode reads the rest of the instruction. -/
theorem reads_opcode (opcode : UInt8) {p : Parser Instr} {bytes : List UInt8} {i : Instr}
    (found : operands? opcode = some p) (h : p.Reads bytes i) : instr.Reads (opcode :: bytes) i :=
  h.tagged opcode found .unknownOpcode

/-- Every instruction is read back.  Each family has its opcode and the reader of its operands; constants have
short forms for some of their values. -/
theorem reads_instr {i : Instr} (h : i.Encodable) : instr.Reads (Encode.instr i) i := by
  cases i with
  | plain op => exact reads_opcode _ (operands?_plain op) (reads_pure _)
  | slot op s => exact reads_opcode _ (operands?_slot op) ((reads_word s).map _)
  | jump op l => exact reads_opcode _ (operands?_jump op) ((reads_label l).map _)
  | field op m => exact reads_opcode _ (operands?_field op) ((reads_member h).map _)
  | invoke kind m => exact reads_opcode _ (operands?_invoke kind) ((reads_member h).map _)
  | typed op n => exact reads_opcode _ (operands?_typed op) ((reads_name h).map _)
  | iconst v =>
    rw [Encode.instr]
    split
    · next few => exact reads_opcode _ (operands?_iconst few.1 few.2) (reads_pure _)
    · exact reads_opcode Opcode.iconstWide rfl ((reads_int v).map _)
  | lconst v =>
    rw [Encode.instr]
    split
    · next zero => exact zero ▸ reads_opcode Opcode.lconst0 rfl (reads_pure _)
    · split
      · next one => exact one ▸ reads_opcode Opcode.lconst1 rfl (reads_pure _)
      · exact reads_opcode Opcode.lconstWide rfl ((reads_long v).map _)
  | fconst bits =>
    rw [Encode.instr]
    split
    · next zero => exact zero ▸ reads_opcode Opcode.fconst0 rfl (reads_pure _)
    · split
      · next one => exact one ▸ reads_opcode Opcode.fconst1 rfl (reads_pure _)
      · split
        · next two => exact two ▸ reads_opcode Opcode.fconst2 rfl (reads_pure _)
        · exact reads_opcode Opcode.fconstWide rfl ((reads_bits32 bits).map _)
  | dconst bits =>
    rw [Encode.instr]
    split
    · next zero => exact zero ▸ reads_opcode Opcode.dconst0 rfl (reads_pure _)
    · split
      · next one => exact one ▸ reads_opcode Opcode.dconst1 rfl (reads_pure _)
      · exact reads_opcode Opcode.dconstWide rfl ((reads_bits64 bits).map _)
  | bipush v =>
    have byte := (reads_byte v.toUInt8).map fun b => Instr.bipush b.toInt8
    rw [show v.toUInt8.toInt8 = v from rfl] at byte
    exact reads_opcode Opcode.bipush rfl byte
  | sipush v => exact reads_opcode Opcode.sipush rfl ((reads_short v).map _)
  | ldc c => exact reads_opcode Opcode.ldc rfl (((reads_constant h).inside .constant).map _)
  | iinc s amount =>
    exact reads_opcode Opcode.iinc rfl ((reads_word s).bind ((reads_short amount).map _))
  | newArray k =>
    refine reads_opcode Opcode.newArray rfl ((reads_byte k.code).filterMap ?_ .invalidTag)
    rw [PrimArray.ofCode?_code]
    rfl
  | multiNewArray descriptor dims =>
    exact reads_opcode Opcode.multiNewArray rfl
      ((reads_name h).bind ((reads_byte dims).map _))
  | tableSwitch low high default targets =>
    exact reads_opcode Opcode.tableSwitch rfl ((reads_tableSwitch h).inside .tableSwitch)
  | lookupSwitch default pairs =>
    exact reads_opcode Opcode.lookupSwitch rfl ((reads_lookupSwitch h).inside .lookupSwitch)
  | invokeDynamic n descriptor =>
    exact reads_opcode Opcode.invokeDynamic rfl
      ((reads_name h.1).bind ((reads_name h.2).map _))
  | label l => exact reads_opcode Opcode.label rfl ((reads_label l).map _)

/-! ## Methods and classes -/

theorem reads_region {r : Region} (h : ∀ n ∈ r.catchType, Short n) :
    region.Reads (Encode.region r) r := by
  have parts := (reads_label r.start).bind (f := fun start => do
      let stop ← label
      let handler ← label
      let catchType ← optName
      return (⟨start, stop, handler, catchType⟩ : Region))
    ((reads_label r.stop).bind ((reads_label r.handler).bind ((reads_optName h).map _)))
  rwa [← List.append_assoc, ← List.append_assoc] at parts

theorem reads_code {c : Code} (h : c.Encodable) : code.Reads (Encode.code c) c := by
  have instrs := reads_vec h.instrs fun i hi => (reads_instr (h.each i hi)).inside .instruction
  have regions := reads_vec h.regions fun r hr => (reads_region (h.caught r hr)).inside .region
  exact instrs.bind (regions.map _)

/-- The body comes behind its length, and is read by a reader of its own that may not look behind it. -/
theorem reads_method {m : Method} (h : m.Encodable) : method.Reads (Encode.method m) m := by
  have body : Reads (do
      let size ← count
      let body ← inside .code (take size.toNat)
      let c ← enclosed code body
      return (⟨m.access, m.name, m.descriptor, m.maxLocals, c⟩ : Method))
      (Encode.count (Encode.code m.code).length ++ Encode.code m.code) m := by
    refine (reads_count h.body).bind ?_
    rw [UInt32.toNat_ofNat_of_lt' h.body]
    have whole := ((reads_take (Encode.code m.code)).inside .code).bind (f := fun body => do
        let c ← enclosed code body
        return (⟨m.access, m.name, m.descriptor, m.maxLocals, c⟩ : Method))
      ((reads_code h.code).enclosed.map _)
    rwa [List.append_nil] at whole
  have parts := (reads_word m.access).bind (f := fun access => do
      let n ← inside .methodName name
      let descriptor ← inside .methodDescriptor name
      let maxLocals ← word
      let size ← count
      let body ← inside .code (take size.toNat)
      let c ← enclosed code body
      return (⟨access, n, descriptor, maxLocals, c⟩ : Method))
    (((reads_name h.name).inside .methodName).bind
      (((reads_name h.descriptor).inside .methodDescriptor).bind ((reads_word m.maxLocals).bind body)))
  rw [Encode.method]
  simp only [List.append_assoc]
  exact parts

theorem reads_container {c : Class} (h : c.Encodable) : container.Reads (encodeClass c) c := by
  have interfaces := reads_vec h.interfaces fun n hn => reads_name (h.interface n hn)
  have methods := reads_vec h.methods fun m hm => (reads_method (h.method m hm)).inside .method
  have parts := ((reads_exactly Encode.magic).inside .magic).bind (f := fun _ => do
      inside .version (exactly Encode.version)
      let access ← word
      let n ← inside .className name
      let superName ← optName
      let interfaces ← vec name
      let methods ← vec (inside .method method)
      return (⟨access, n, superName, interfaces, methods⟩ : Class))
    (((reads_exactly Encode.version).inside .version).bind ((reads_word c.access).bind
      (((reads_name h.name).inside .className).bind ((reads_optName h.superName).bind
        (interfaces.bind (methods.map _))))))
  rw [encodeClass]
  simp only [List.append_assoc]
  exact parts

end Container.Parser

namespace Container

/-- A class comes back from its encoding as it was. -/
theorem decodeClass_encodeClass (c : Class) (h : c.Encodable) : decodeClass (encodeClass c) = .ok c := by
  rw [decodeClass, (Parser.reads_container h).whole]

/-- A class whose constants are easily lost: quiet and signalling NaNs, negative zeros, and the numbers
just outside the short forms. -/
def fragileClass : Class where
  access := 0x0021
  name := "app/Numbers"
  superName := none
  interfaces := ["java/lang/Runnable"]
  methods := [{
    access := 0x0009
    name := "run"
    descriptor := "()V"
    maxLocals := 65535
    code := {
      instrs := [
        .label 0, .fconst 0x7FC00001, .fconst 0x80000000, .dconst 0x7FF0000000000001,
        .dconst 0x8000000000000000, .iconst (-2), .iconst 6, .lconst 2, .sipush (-65), .bipush (-128),
        .ldc (.string "π"), .ldc (.float 0xFF800000), .iinc 200 (-200),
        .tableSwitch (-2147483648) (-2147483647) 0 [0, 1], .label 1, .plain (.leave none)]
      regions := [⟨0, 1, 1, some "java/lang/Error"⟩, ⟨0, 1, 1, none⟩] } }]

theorem fragileClass_round_trip :
    fragileClass.Encodable ∧ decodeClass (encodeClass fragileClass) = .ok fragileClass := by
  have code : Code.Encodable (fragileClass.methods.get ⟨0, by decide⟩).code :=
    ⟨by decide, by simp [fragileClass, Instr.Encodable, Constant.Encodable]; decide, by decide, by
      simp [fragileClass]; decide⟩
  have h : fragileClass.Encodable := by
    refine ⟨by decide, by simp [fragileClass], by decide, by simp [fragileClass]; decide, by decide, ?_⟩
    intro m hm
    obtain rfl : m = fragileClass.methods.get ⟨0, by decide⟩ := by simpa [fragileClass] using hm
    exact ⟨by decide, by decide, by decide +kernel, code⟩
  exact ⟨h, decodeClass_encodeClass fragileClass h⟩

end Container

end Suspension
