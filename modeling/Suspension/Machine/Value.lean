import Suspension.Analysis.Error
import Suspension.Number.Shortest

/-!
# Values and errors of the machine

A value is one entry of an operand stack or one local slot, whatever its width.  Floating-point numbers
are kept as their bits.

## Main definitions
* `ObjectId`, `ContextId`: handles of heap objects and of captured contexts.
* `Value`, `Storage.zero`.
* `ExecError`: why a run was broken off.
* `Value.asInt`, `Value.asRef` and the like: a value of a given sort.
-/

namespace Suspension

/-- The handle of an object on the heap. -/
structure ObjectId where
  index : Nat
  deriving DecidableEq, Repr

/-- The handle of a captured context. -/
structure ContextId where
  index : Nat
  deriving DecidableEq, Repr

/-- An object in diagnostics. -/
def ObjectId.diagnostic (r : ObjectId) : String := "ObjRef(" ++ toString r.index ++ ")"

/-- A context in diagnostics. -/
def ContextId.diagnostic (c : ContextId) : String := "ContextId(" ++ toString c.index ++ ")"

/-- One entry of an operand stack, or one local slot. -/
inductive Value where
  | int (v : Int32)
  | long (v : Int64)
  | float (bits : UInt32)
  | double (bits : UInt64)
  | ref (r : Option ObjectId)
  | address (pc : Nat)
  deriving DecidableEq, Repr

namespace Value

/-- The null reference. -/
def null : Value := .ref none

/-- A reference to an object. -/
def object (r : ObjectId) : Value := .ref (some r)

/-- The storage class of a value. -/
def kind : Value → Kind
  | .int _ => .int
  | .long _ => .long
  | .float _ => .float
  | .double _ => .double
  | .ref _ => .reference
  | .address _ => .address

/-- The words that a value covers. -/
def width : Value → Width
  | .long _ | .double _ => .two
  | _ => .one

/-- Whether a value covers two words. -/
def isWide (v : Value) : Bool := v.width = .two

/-- The words that a value covers, as a number. -/
def words (v : Value) : Nat := v.width.words

/-- A value in diagnostics. -/
def diagnostic : Value → String
  | .int v => "Int(" ++ toString v ++ ")"
  | .long v => "Long(" ++ toString v ++ ")"
  | .float bits => "Float(" ++ BinaryFormat.single.text bits.toNat ++ ")"
  | .double bits => "Double(" ++ BinaryFormat.double.text bits.toNat ++ ")"
  | .ref r => "Ref(" ++ optionDiagnostic (r.map ObjectId.diagnostic) ++ ")"
  | .address pc => "ReturnAddress(" ++ toString pc ++ ")"

end Value

/-- The zero of a storage. -/
def Storage.zero : Storage → Value
  | .int => .int 0
  | .long => .long 0
  | .float => .float 0
  | .double => .double 0
  | .reference => .null

/-- The value of a field or an array element of a type before it is set. -/
def Tag.zero (t : Tag) : Value := t.kind.mover.zero

@[simp] theorem Storage.kind_zero (k : Storage) : k.zero.kind = k.kind := by
  cases k <;> rfl

/-- What was expected where another value was found. -/
inductive Expected where
  | storage (k : Storage)
  | array
  | context
  | plainObject
  | returnAddress
  | oneWord
  deriving DecidableEq, Repr

/-- What was expected, in words. -/
def Expected.text : Expected → String
  | .storage .int => "int"
  | .storage .long => "long"
  | .storage .float => "float"
  | .storage .double => "double"
  | .storage .reference => "reference"
  | .array => "array"
  | .context => "context"
  | .plainObject => "instance"
  | .returnAddress => "return address"
  | .oneWord => "category-1 value"

/-- Why a run was broken off.  The last two end what would go on for ever: a chain of superclasses without
an end, and a run without a limit that has taken longer than anyone cares to wait. -/
inductive ExecError where
  | stackUnderflow
  | typeMismatch (expected : Expected) (found : Value)
  | unsetLocal (slot : Slot)
  | unknownLabel (label : Label)
  | noSuchMethod (name : String)
  | danglingRef (r : ObjectId)
  | unknownContext (c : ContextId)
  | fellOffEnd
  | outOfFuel
  | descriptor (e : MalformedDescriptor)
  | tooManyArguments
  | endlessHierarchy
  | impatience
  deriving DecidableEq, Repr

/-- The diagnostic for an error. -/
def ExecError.message : ExecError → String
  | .stackUnderflow => "operand stack underflow"
  | .typeMismatch expected found =>
    "expected " ++ expected.text ++ ", found " ++ found.diagnostic
  | .unsetLocal slot => "local " ++ toString slot.toNat ++ " read before it was set"
  | .unknownLabel l => "jump to undefined label " ++ labelDiagnostic l
  | .noSuchMethod name => "no method " ++ name
  | .danglingRef r => "dangling reference " ++ r.diagnostic
  | .unknownContext c => "no context " ++ c.diagnostic
  | .fellOffEnd => "execution ran past the last instruction"
  | .outOfFuel => "instruction budget exhausted"
  | .descriptor e => e.message
  | .tooManyArguments => "the arguments occupy more than 65535 slots"
  | .endlessHierarchy => "a superclass chain does not end"
  | .impatience => "the run takes too long"

instance exceptLift {ε σ : Type} : MonadLift (Except ε) (EStateM ε σ) where
  monadLift
    | .ok a => pure a
    | .error e => throw e

namespace Value

/-- A value of a storage. -/
def ofStorage (k : Storage) (v : Value) : Except ExecError Value :=
  if v.kind = k.kind then .ok v else .error (.typeMismatch (.storage k) v)

/-- The number of an int. -/
def asInt : Value → Except ExecError Int32
  | .int v => .ok v
  | v => .error (.typeMismatch (.storage .int) v)

/-- The number of a long. -/
def asLong : Value → Except ExecError Int64
  | .long v => .ok v
  | v => .error (.typeMismatch (.storage .long) v)

/-- The bits of a float. -/
def asFloat : Value → Except ExecError UInt32
  | .float v => .ok v
  | v => .error (.typeMismatch (.storage .float) v)

/-- The bits of a double. -/
def asDouble : Value → Except ExecError UInt64
  | .double v => .ok v
  | v => .error (.typeMismatch (.storage .double) v)

/-- The object of a reference, or none for null. -/
def asRef : Value → Except ExecError (Option ObjectId)
  | .ref r => .ok r
  | v => .error (.typeMismatch (.storage .reference) v)

/-- A reference or a return address: both are moved by the same instructions. -/
def asReferenceLike : Value → Except ExecError Value
  | .ref r => .ok (.ref r)
  | .address pc => .ok (.address pc)
  | v => .error (.typeMismatch (.storage .reference) v)

/-- A value that a load or store of a storage moves. -/
def movedBy (k : Storage) (v : Value) : Except ExecError Value :=
  match k with
  | .reference => v.asReferenceLike
  | k => v.ofStorage k

end Value

end Suspension
