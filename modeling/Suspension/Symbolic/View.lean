import Suspension.Symbolic.Frame

/-!
# Views of frames

Several frames may look at one map of local slots: a shared view does so until one side writes, an
isolated one has a map of its own from the start.  Views are kept in a register file that knows which
of them look at the same map.

## Main definitions
* `View`, `Views`, `Views.share`, `Views.isolate`, `Views.write`, `Views.shares`.
-/

namespace Suspension

/-- A frame with the number of the map of slots that it looks at. -/
structure View where
  map : Nat
  frame : SymFrame
  deriving DecidableEq

/-- Views in registers, and the number of the next new map. -/
structure Views where
  registers : Array View := #[⟨0, {}⟩]
  nextMap : Nat := 1

namespace Views

/-- The frame in a register. -/
def frame? (v : Views) (r : Nat) : Option SymFrame := v.registers[r]?.map (·.frame)

/-- Replaces the frame in a register by one with a map of its own. -/
def reset (v : Views) (r : Nat) (f : SymFrame) : Views :=
  ⟨v.registers.setIfInBounds r ⟨v.nextMap, f⟩, v.nextMap + 1⟩

/-- Replaces the frame in a register.  If its slots change, it leaves the map that it shared. -/
def update (v : Views) (r : Nat) (f : SymFrame) : Views :=
  match v.registers[r]? with
  | some old =>
    if old.frame.locals = f.locals then ⟨v.registers.setIfInBounds r ⟨old.map, f⟩, v.nextMap⟩
    else v.reset r f
  | none => v

/-- Writes the slots of a register: even an unchanged value ends the sharing. -/
def write (v : Views) (r : Nat) (f : SymFrame) : Views := v.reset r f

/-- A new register that looks at the map of register `r`. -/
def share (v : Views) (r : Nat) : Views :=
  match v.registers[r]? with
  | some old => ⟨v.registers.push old, v.nextMap⟩
  | none => v

/-- A new register with a copy of the map of register `r`. -/
def isolate (v : Views) (r : Nat) : Views :=
  match v.registers[r]? with
  | some old => ⟨v.registers.push ⟨v.nextMap, old.frame⟩, v.nextMap + 1⟩
  | none => v

/-- Whether two registers look at one map. -/
def shares (v : Views) (r s : Nat) : Bool :=
  match v.registers[r]?, v.registers[s]? with
  | some a, some b => a.map = b.map
  | _, _ => false

/-- Whether two registers hold equal frames. -/
def agrees (v : Views) (r s : Nat) : Bool :=
  match v.registers[r]?, v.registers[s]? with
  | some a, some b => a.frame = b.frame
  | _, _ => false

end Views

end Suspension
