import Suspension.Bytecode.Instr
import Suspension.Bytecode.Descriptor

/-!
# Classes

A class holds methods, a method a stream of instructions and a table of protected regions.

## Main definitions
* `Region`, `Code`, `Method`, `Class`.
* `Code.maxLabel`: the highest label that code mentions.
-/

namespace Suspension

/-- A protected range of a stream.  An exception of the caught class (of any class, if none is given)
raised from `start` on and before `stop` continues at `handler`. -/
structure Region where
  start : Label
  stop : Label
  handler : Label
  catchType : Option String
  deriving DecidableEq, Repr

/-- A stream of instructions and its protected regions, in the order in which they are tried. -/
structure Code where
  instrs : List Instr := []
  regions : List Region := []
  deriving DecidableEq, Repr

/-- The highest label that the code defines or refers to. -/
def Code.maxLabel (c : Code) : Option Label :=
  (c.instrs.flatMap (fun i => i.targets ++ i.defined?.toList)
    ++ c.regions.flatMap fun r => [r.start, r.stop, r.handler]).max?

/-- The bit of the access flags that marks a static method. -/
def staticFlag : UInt16 := 0x0008

/-- A method; `maxLocals` is one more than the highest slot its code may address. -/
structure Method where
  access : UInt16
  name : String
  descriptor : String
  maxLocals : UInt16
  code : Code
  deriving DecidableEq, Repr

namespace Method

/-- Whether the method has no receiver. -/
def isStatic (m : Method) : Bool := m.access &&& staticFlag ≠ 0

/-- The types of its parameters and its result. -/
def signature (m : Method) : Except MalformedDescriptor Signature := Signature.parse m.descriptor

/-- Slots that the receiver occupies. -/
def receiverSlots (m : Method) : Nat := if m.isStatic then 0 else 1

end Method

/-- A class with its methods in order. -/
structure Class where
  access : UInt16
  name : String
  superName : Option String
  interfaces : List String
  methods : List Method
  deriving DecidableEq, Repr

namespace Class

/-- Whether the class lists an interface, given in either form of its name. -/
def implements (c : Class) (interface : String) : Bool :=
  c.interfaces.contains (internalName interface)

/-- The first method of a name and a descriptor. -/
def method? (c : Class) (name descriptor : String) : Option Method :=
  c.methods.find? fun m => m.name == name && m.descriptor == descriptor

end Class

end Suspension
