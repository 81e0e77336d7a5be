import Std.Data.ExtTreeMap
import Suspension.Machine.Value

/-!
# Frames

The activation of one method: its local slots, its operand stack, and the place of the instruction that
comes next.  A frame is changed by operations that may fail; a run does not survive a failure, so what a
failed operation leaves behind does not matter.

## Main definitions
* `LocalValues.store`: what a store does to the slots.
* `Frame`, `Frame.enter`: a frame, and the one that a call starts from.
* `FrameM`: operations on a frame, such as `Frame.pop`, `Frame.popMany`, `Frame.dup`, `Frame.getLocal`.
-/

namespace Suspension

/-- The place of the last definition of a label, in a stream that starts at a place. -/
def lastDefinition (l : Label) : Nat → List Instr → Option Nat
  | _, [] => none
  | place, i :: rest =>
    match lastDefinition l (place + 1) rest with
    | some later => some later
    | none => if i.defined? = some l then some place else none

/-- The place that a label stands for. -/
def Code.target? (c : Code) (l : Label) : Option Nat := lastDefinition l 0 c.instrs

/-- Values in local slots; a value of two words is kept at its lower slot. -/
abbrev LocalValues := Std.ExtTreeMap Slot Value

namespace LocalValues

/-- Whether a value at one slot and a value at another have a word in common. -/
def overlap (slot : Slot) (v : Value) (other : Slot) (w : Value) : Bool :=
  slot.toNat < other.toNat + w.words && other.toNat < slot.toNat + v.words

/-- Stores a value, which ends every value that it has a word in common with. -/
def store (m : LocalValues) (slot : Slot) (v : Value) : LocalValues :=
  (m.filter fun other w => !overlap slot v other w).insert slot v

theorem getElem?_store (m : LocalValues) (slot other : Slot) (v : Value) :
    (m.store slot v)[other]? =
      if other = slot then some v else m[other]?.filter fun w => !overlap slot v other w := by
  unfold store
  rw [Std.ExtTreeMap.getElem?_insert, Std.ExtTreeMap.getElem?_filter']
  by_cases h : slot = other
  · simp [h]
  · simp [h, Ne.symm h]

end LocalValues

/-- The activation of a method; the top of its stack comes first. -/
structure Frame where
  method : Method
  locals : LocalValues := ∅
  stack : List Value := []
  pc : Nat := 0
  deriving DecidableEq

/-- Operations on a frame that may fail. -/
abbrev FrameM := EStateM ExecError Frame

namespace Frame

/-- The place that a label of the method stands for. -/
def target (f : Frame) (l : Label) : Except ExecError Nat :=
  match f.method.code.target? l with
  | some place => .ok place
  | none => .error (.unknownLabel l)

/-- Stores a value in a slot. -/
def setLocal (f : Frame) (slot : Slot) (v : Value) : Frame :=
  { f with locals := f.locals.store slot v }

/-- Lays values out one after the other from a slot on. -/
def layOut (f : Frame) : Nat → List Value → Frame
  | _, [] => f
  | slot, v :: vs => (f.setLocal (UInt16.ofNat slot) v).layOut (slot + v.words) vs

/-- The frame that a call starts from, with its arguments in the first slots, a receiver first. -/
def enter (method : Method) (args : List Value) : Except ExecError Frame :=
  if total Value.words args < 65536 then .ok (({ method } : Frame).layOut 0 args)
  else .error .tooManyArguments

/-- The frame of a caller after a call: a result that is missing is zero. -/
def receive (f : Frame) (result : Option Tag) (v : Option Value) : Frame :=
  match result with
  | some t => { f with stack := v.getD t.zero :: f.stack }
  | none => f

/-- The frame of a handler that is about to start: the exception is alone on the stack. -/
def catching (f : Frame) (exc : ObjectId) (pc : Nat) : Frame :=
  { f with stack := [.object exc], pc }

/-- Pushes a value. -/
def push (v : Value) : FrameM Unit := fun f => .ok () { f with stack := v :: f.stack }

/-- Pops a value of either width. -/
def pop : FrameM Value := fun f =>
  match f.stack with
  | [] => .error .stackUnderflow f
  | v :: stack => .ok v { f with stack }

/-- Pops a value of a storage. -/
def popOf (k : Storage) : FrameM Value := do (← pop).ofStorage k

/-- Pops an int. -/
def popInt : FrameM Int32 := do (← pop).asInt

/-- Pops a long. -/
def popLong : FrameM Int64 := do (← pop).asLong

/-- Pops the bits of a float. -/
def popFloat : FrameM UInt32 := do (← pop).asFloat

/-- Pops the bits of a double. -/
def popDouble : FrameM UInt64 := do (← pop).asDouble

/-- Pops a reference. -/
def popRef : FrameM (Option ObjectId) := do (← pop).asRef

/-- Pops `n` values of either width, bottom first. -/
def popMany (n : Nat) : FrameM (List Value) := fun f =>
  if n ≤ f.stack.length then .ok (f.stack.take n).reverse { f with stack := f.stack.drop n }
  else .error .stackUnderflow f

/-- Takes values off the top of a stack until exactly `n` words are covered, top first, and leaves the
rest. -/
def takeValues : Nat → List Value → Except ExecError (List Value × List Value)
  | n, stack =>
    match n, stack with
    | 0, stack => .ok ([], stack)
    | _ + 1, [] => .error .stackUnderflow
    | n + 1, v :: stack =>
      if v.words ≤ n + 1 then
        (takeValues (n + 1 - v.words) stack).map fun (vs, stack) => (v :: vs, stack)
      else .error (.typeMismatch .oneWord v)
termination_by structural _ stack => stack

/-- Pops values of exactly `n` words together, top first. -/
def popWords (n : Nat) : FrameM (List Value) := fun f =>
  match takeValues n f.stack with
  | .ok (vs, stack) => .ok vs { f with stack }
  | .error e => .error e f

/-- Pushes values listed top first. -/
def pushAll (vs : List Value) : FrameM Unit := fun f => .ok () { f with stack := vs ++ f.stack }

/-- Copies the topmost `words` words and puts the copy beneath the next `under` words. -/
def dup (words under : Nat) : FrameM Unit := do
  let top ← popWords words
  let below ← popWords under
  pushAll (top ++ below ++ top)

/-- Exchanges the two topmost values, of whatever width. -/
def swap : FrameM Unit := do
  let top ← pop
  let below ← pop
  push top
  push below

/-- Rearranges the operand stack. -/
def shuffle : Shuffle → FrameM Unit
  | .pop => do let _ ← popWords 1
  | .pop2 => do let _ ← popWords 2
  | .dup => dup 1 0
  | .dupX1 => dup 1 1
  | .dupX2 => dup 1 2
  | .dup2 => dup 2 0
  | .dup2X1 => dup 2 1
  | .dup2X2 => dup 2 2
  | .swap => swap

/-- The value in a slot. -/
def getLocal (slot : Slot) : FrameM Value := fun f =>
  match f.locals[slot]? with
  | some v => .ok v f
  | none => .error (.unsetLocal slot) f

/-- Stores a value in a slot. -/
def putLocal (slot : Slot) (v : Value) : FrameM Unit := fun f => .ok () (f.setLocal slot v)

/-- Pushes the value in a slot, which has to be one that the storage moves. -/
def load (k : Storage) (slot : Slot) : FrameM Unit := do
  push (← (← getLocal slot).movedBy k)

/-- Pops a value, which has to be one that the storage moves, into a slot. -/
def store (k : Storage) (slot : Slot) : FrameM Unit := do
  putLocal slot (← (← pop).movedBy k)

/-- Adds to the int in a slot. -/
def increment (slot : Slot) (amount : Int32) : FrameM Unit := do
  putLocal slot (.int ((← (← getLocal slot).asInt) + amount))

end Frame

end Suspension
