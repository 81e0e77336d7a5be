import Suspension.Machine.World

/-!
# Scripted hosts

A host that answers by a list of rules and keeps a record of what it was asked.  It is deterministic, and
what it knows of foreign classes is a finite table.

## Main definitions
* `Supply`: a value that may have to be put on the heap first.
* `Rule`, `Script`, `Script.host`.
-/

namespace Suspension

/-- A value that may have to be put on the heap first: a string constant, or a new object. -/
inductive Supply where
  | value (v : Value)
  | string (s : String)
  | fresh (className : String)
  deriving DecidableEq, Repr

namespace Supply

/-- The value, with the heap that it is on. -/
def onHeap (h : Heap) : Supply → Value × Heap
  | .value v => (v, h)
  | .string s =>
    let (r, h) := h.intern s
    (.object r, h)
  | .fresh className =>
    let (r, h) := h.alloc (.new className)
    (.object r, h)

/-- Several values, put on the heap in order. -/
def allOnHeap (h : Heap) : List Supply → List Value × Heap
  | [] => ([], h)
  | s :: rest =>
    let (v, h) := s.onHeap h
    let (vs, h) := allOnHeap h rest
    (v :: vs, h)

end Supply

/-- What a rule answers: nothing, one of the arguments, or a value of its own. -/
inductive Rule where
  | nothing
  | argument (i : Nat)
  | supply (s : Supply)
  deriving DecidableEq, Repr

/-- A call that a host was asked for. -/
structure HostCall where
  kind : InvokeKind
  method : MemberRef
  receiver : Option Value
  args : List Value
  deriving DecidableEq, Repr

/-- Rules by the owner and the name of a method, and the superclasses of foreign classes. -/
structure Script where
  rules : List ((String × String) × Rule) := []
  superclasses : List (String × String) := []

/-- What a rule answers to a call. -/
def Rule.answer (args : List Value) (h : Heap) : Rule → Option Value × Heap
  | .nothing => (none, h)
  | .argument i => (args[i]?, h)
  | .supply s =>
    let (v, h) := s.onHeap h
    (some v, h)

/-- The host that follows a script; its state is the record of calls, the latest first.  A class extends
itself by at most as many steps as the script has superclasses, unless there is no end. -/
def Script.host (s : Script) : Host (List HostCall) where
  invoke kind m receiver args := fun (h, calls) =>
    let calls := ⟨kind, m, receiver, args⟩ :: calls
    match s.rules.lookup (m.owner, m.name) with
    | some rule =>
      let (v, h) := rule.answer args h
      .ok v (h, calls)
    | none => .error (noSuchMethod m) (h, calls)
  superclass _ className := s.superclasses.lookup className
  reach := s.superclasses.length + 1

end Suspension
