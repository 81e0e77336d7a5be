import Std.Data.ExtTreeMap
import Suspension.Machine.Value

/-!
# Stores

What a context keeps of a flow: values under indices, and a stack.  Reading something that is missing,
or that is of another storage, yields the zero of the storage asked for.

## Main definitions
* `Store`, `Store.get`, `Store.put`, `Store.push`, `Store.pop`.
-/

namespace Suspension

/-- Values under indices, and a stack with its top first. -/
structure Store where
  slots : Std.ExtTreeMap Int32 Value := ∅
  entries : List Value := []
  deriving DecidableEq

namespace Store

/-- The value if it is of a storage, else the zero of that storage. -/
def read (k : Storage) : Option Value → Value
  | some v => if v.kind = k.kind then v else k.zero
  | none => k.zero

/-- The value under an index. -/
def slot? (s : Store) (index : Int32) : Option Value := s.slots[index]?

/-- The value of a storage under an index. -/
def get (s : Store) (k : Storage) (index : Int32) : Value := read k (s.slot? index)

/-- Puts a value under an index. -/
def put (s : Store) (index : Int32) (v : Value) : Store :=
  { s with slots := s.slots.insert index v }

/-- Pushes a value. -/
def push (s : Store) (v : Value) : Store := { s with entries := v :: s.entries }

/-- The topmost value, read as one of a storage. -/
def top (s : Store) (k : Storage) : Value := read k s.entries.head?

/-- Drops the topmost value, if there is one. -/
def pop (s : Store) : Store := { s with entries := s.entries.tail }

/-- Adds to the int under an index. -/
def increment (s : Store) (index amount : Int32) : Store :=
  match s.get .int index with
  | .int v => s.put index (.int (v + amount))
  | _ => s.put index (.int amount)

/-- The reference or return address under an index, or null. -/
def getReferenceLike (s : Store) (index : Int32) : Value :=
  match s.slot? index with
  | some (.ref r) => .ref r
  | some (.address pc) => .address pc
  | _ => .null

theorem kind_read (k : Storage) (v : Option Value) : (read k v).kind = k.kind := by
  unfold read
  split
  · split
    · assumption
    · simp
  · simp

end Store

end Suspension
