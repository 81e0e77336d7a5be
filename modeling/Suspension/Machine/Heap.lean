import Suspension.Arena
import Suspension.Service
import Suspension.Machine.Store

/-!
# The heap

Objects are never dropped.  Equal string constants share one object, and so does every use of one face
of one context.

## Main definitions
* `HeapObject`, `ContextFace`, `Heap`.
* `Heap.alloc`, `Heap.intern`, `Heap.handle`, `Heap.field?`, `Heap.setField`.
-/

namespace Suspension

/-- What a handle of a context gives access to. -/
inductive ContextFace where
  | context
  | localVars
  | localStack
  deriving DecidableEq, Repr

/-- An object; an array carries its own descriptor. -/
inductive HeapObject where
  | plain (className : String) (fields : Std.ExtTreeMap String Value)
  | array (descriptor : String) (elems : Array Value)
  | string (s : String)
  | classRef (name : String)
  | handle (face : ContextFace) (id : ContextId)
  deriving DecidableEq

namespace HeapObject

/-- An instance without fields. -/
def new (className : String) : HeapObject := .plain className ∅

/-- The class of an object. -/
def className : HeapObject → String
  | .plain className _ => className
  | .array descriptor _ => descriptor
  | .string _ => stringClass
  | .classRef _ => classClass
  | .handle .context _ => Service.contextClass
  | .handle .localVars _ => Service.storeClass
  | .handle .localStack _ => Service.storeClass

end HeapObject

/-- All objects, the shared string constants and the shared handles. -/
structure Heap where
  objects : Arena HeapObject := {}
  strings : Std.ExtTreeMap String ObjectId := ∅
  handles : List ((ContextId × ContextFace) × ObjectId) := []
  deriving DecidableEq

namespace Heap

/-- The object of an id. -/
def get? (h : Heap) (r : ObjectId) : Option HeapObject := h.objects.get? r.index

/-- The object of an id, which has to be there. -/
def get (h : Heap) (r : ObjectId) : Except ExecError HeapObject :=
  match h.get? r with
  | some o => .ok o
  | none => .error (.danglingRef r)

/-- The class of an object. -/
def classOf (h : Heap) (r : ObjectId) : Except ExecError String := do
  return (← h.get r).className

/-- Adds an object. -/
def alloc (h : Heap) (o : HeapObject) : ObjectId × Heap :=
  (⟨h.objects.nextId⟩, { h with objects := h.objects.push o })

/-- Replaces an object. -/
def set (h : Heap) (r : ObjectId) (o : HeapObject) : Heap :=
  { h with objects := h.objects.set r.index o }

/-- The object of a string constant. -/
def intern (h : Heap) (s : String) : ObjectId × Heap :=
  match h.strings[s]? with
  | some r => (r, h)
  | none =>
    let (r, h) := h.alloc (.string s)
    (r, { h with strings := h.strings.insert s r })

/-- The text of a string. -/
def string? (h : Heap) (r : ObjectId) : Option String :=
  match h.get? r with
  | some (.string s) => some s
  | _ => none

/-- The handle of a face of a context. -/
def handle (h : Heap) (id : ContextId) (face : ContextFace) : ObjectId × Heap :=
  match h.handles.lookup (id, face) with
  | some r => (r, h)
  | none =>
    let (r, h) := h.alloc (.handle face id)
    (r, { h with handles := ((id, face), r) :: h.handles })

/-- The value of a field that was set. -/
def field? (h : Heap) (r : ObjectId) (name : String) : Option Value :=
  match h.get? r with
  | some (.plain _ fields) => fields[name]?
  | _ => none

/-- Sets a field of an instance. -/
def setField (h : Heap) (r : ObjectId) (name : String) (v : Value) : Except ExecError Heap := do
  match ← h.get r with
  | .plain className fields => return h.set r (.plain className (fields.insert name v))
  | _ => throw (.typeMismatch .plainObject (.object r))

/-- Sets an element of an array, and tells whether there is such an element. -/
def setElement (h : Heap) (r : ObjectId) (index : Nat) (v : Value) :
    Except ExecError (Bool × Heap) := do
  match ← h.get r with
  | .array descriptor elems =>
    if index < elems.size then
      return (true, h.set r (.array descriptor (elems.setIfInBounds index v)))
    else return (false, h)
  | _ => return (false, h)

end Heap

end Suspension
