import Std.Data.ExtTreeMap
import Suspension.Analysis.Error

/-!
# Symbolic frames

What is known of the local slots and the operand stack at one point of a method.  Operations that take
values off the stack may fail; what they took before failing stays taken.

## Main definitions
* `SymFrame`: tags of slots and of stack entries, the top of the stack first.
* `Fault`: why an operation failed, before its place is known.
* `SymFrame.pop`, `SymFrame.popWords`, `SymFrame.dup`, `SymFrame.swap`, `SymFrame.setLocal`.
* `SymFrame.root`: the frame at the entry of a method.
* `needsWidening`: whether a join has to forget the class of a reference.
-/

namespace Suspension

/-- Tags of local slots; a value of two words is recorded at its lower slot. -/
abbrev Locals := Std.ExtTreeMap Slot Tag

namespace Locals

/-- Drops a value of two words that the slot is the upper half of. -/
def clearBelow (m : Locals) (slot : Slot) : Locals :=
  if slot = 0 then m
  else
    match m[slot - 1]? with
    | some t => if t.isWide then m.erase (slot - 1) else m
    | none => m

/-- Drops what is recorded at the slot above. -/
def clearAbove (m : Locals) (slot : Slot) : Locals :=
  if slot = 65535 then m else m.erase (slot + 1)

/-- Records a value, dropping every value that it overlaps. -/
def store (m : Locals) (slot : Slot) (t : Tag) : Locals :=
  let m := m.clearBelow slot
  (if t.isWide then m.clearAbove slot else m).insert slot t

end Locals

/-- Why an operation on a symbolic frame failed. -/
inductive Fault where
  | underflow
  | undefined (slot : Slot)
  | split
  deriving DecidableEq, Repr

/-- The error of a method whose instruction at `place` failed. -/
def Fault.locate (place : Nat) : Fault → AnalysisError
  | .underflow => .stackUnderflow place
  | .undefined slot => .undefinedLocal place slot
  | .split => .wideValueSplit place

/-- The local slots and the operand stack at one point; the top of the stack comes first. -/
structure SymFrame where
  locals : Locals := ∅
  stack : List Tag := []
  deriving DecidableEq

/-- Operations on a frame that may fail; a failure keeps the frame as it was left. -/
abbrev SymM := EStateM Fault SymFrame

/-- Takes values off the top of a stack until exactly `n` words are covered, top first. -/
def takeTags : Nat → EStateM Fault (List Tag) (List Tag)
  | n, stack =>
    match n, stack with
    | 0, stack => .ok [] stack
    | _ + 1, [] => .error .underflow []
    | n + 1, t :: stack =>
      if t.words ≤ n + 1 then
        match takeTags (n + 1 - t.words) stack with
        | .ok ts stack => .ok (t :: ts) stack
        | .error e stack => .error e stack
      else .error .split stack
termination_by structural _ stack => stack

/-- Whether a tag names a class that a join may have to forget. -/
def Tag.isNarrow : Tag → Bool
  | .ref name => name ≠ objectClass
  | _ => false

/-- A tag of which the class is forgotten; tags that name no class are left as they are. -/
def Tag.widen (t : Tag) : Tag := if t.isNarrow then .object else t

/-- Whether a join that recorded `entry` and receives `incoming` has to forget the class of
`entry`, lest it be cast to a class that the incoming value does not have. -/
def needsWidening (entry incoming : Tag) : Bool :=
  entry.isNarrow && (match incoming with | .ref _ => true | _ => false) && entry ≠ incoming

namespace SymFrame

/-- Pushes a value. -/
def push (t : Tag) : SymM Unit := fun f => .ok () { f with stack := t :: f.stack }

/-- Pops one value of either width. -/
def pop : SymM Tag := fun f =>
  match f.stack with
  | [] => .error .underflow f
  | t :: stack => .ok t { f with stack }

/-- Pops values of exactly `n` words together, top first. -/
def popWords (n : Nat) : SymM (List Tag) := fun f =>
  match takeTags n f.stack with
  | .ok ts stack => .ok ts { f with stack }
  | .error e stack => .error e { f with stack }

/-- Pushes values listed top first. -/
def pushAll (ts : List Tag) : SymM Unit := fun f => .ok () { f with stack := ts ++ f.stack }

/-- Copies the topmost `words` words and puts the copy beneath the next `under` words. -/
def dup (words under : Nat) : SymM Unit := do
  let top ← popWords words
  let below ← popWords under
  pushAll (top ++ below ++ top)

/-- Exchanges the two topmost values, both of one word. -/
def swap : SymM Unit := do
  let top ← popWords 1
  let below ← popWords 1
  pushAll (below ++ top)

/-- Drops the whole stack. -/
def clearStack (f : SymFrame) : SymFrame := { f with stack := [] }

/-- The tag of a slot. -/
def getLocal (slot : Slot) : SymM Tag := fun f =>
  match f.locals[slot]? with
  | some t => .ok t f
  | none => .error (.undefined slot) f

/-- Records a value in a slot. -/
def setLocal (f : SymFrame) (slot : Slot) (t : Tag) : SymFrame :=
  { f with locals := f.locals.store slot t }

/-- Forgets the class of the value in a slot. -/
def widenLocal (f : SymFrame) (slot : Slot) : SymFrame :=
  match f.locals[slot]? with
  | some t => if t.isNarrow then { f with locals := f.locals.insert slot .object } else f
  | none => f

/-- Forgets the class of the stack entry at `index`, counted from the bottom. -/
def widenStack (f : SymFrame) (index : Nat) : SymFrame :=
  if index < f.stack.length then
    { f with stack := f.stack.modify (f.stack.length - 1 - index) Tag.widen }
  else f

/-- Lays values out one after the other from a slot on. -/
def layOut (locals : Locals) : Nat → List Tag → Locals
  | _, [] => locals
  | slot, t :: ts => layOut (locals.store (UInt16.ofNat slot) t) (slot + t.words) ts

/-- The frame at the entry of a method of class `className`: the receiver, then the parameters. -/
def root (className : String) (method : Method) : Except AnalysisError SymFrame := do
  let signature ← AnalysisError.ofDescriptor method.signature
  let _ ← method.entrySlots signature
  let receiver : List Tag := if method.isStatic then [] else [.ref className]
  return { locals := layOut ∅ 0 (receiver ++ signature.params) }

end SymFrame

end Suspension
