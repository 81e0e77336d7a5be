import Suspension.Machine.Contexts
import Suspension.Machine.Heap

/-!
# The world of a run

Everything that outlives a frame: the heap, the captured contexts, the static fields, what is left of an
instruction budget, and the state of the host.  The host answers the calls that leave the class that is
run, and knows the superclasses of foreign classes.

## Main definitions
* `Host`: whoever runs the code.
* `World`, `WorldM`: the state of a run, and operations on it that may fail.
* `World.resume`, `World.answer`, `World.deactivate`: announced operations on contexts.
* `World.instanceOf`: the test of the class of an object.
-/

namespace Suspension

/-- Whoever runs the code, with a state of its own.  A call may change the heap.  No chain of
superclasses has more than `reach` foreign classes in it. -/
structure Host (σ : Type) where
  invoke : InvokeKind → MemberRef → Option Value → List Value →
    EStateM ExecError (Heap × σ) (Option Value)
  superclass : σ → String → Option String
  reach : Nat

/-- The complaint about a method that nobody provides. -/
def noSuchMethod (m : MemberRef) : ExecError :=
  .noSuchMethod (m.owner ++ "." ++ m.name ++ m.descriptor)

/-- The host that provides nothing. -/
def Host.nothing (σ : Type) : Host σ where
  invoke _ m _ _ := throw (noSuchMethod m)
  superclass _ _ := none
  reach := 1

/-- The state of a run: a budget of `none` is unlimited, and events are listed oldest first. -/
structure World (σ : Type) where
  heap : Heap := {}
  contexts : Contexts := {}
  statics : List ((String × String) × Value) := []
  fuel : Option Nat := none
  outside : σ
  events : List Event := []

/-- Operations on the state of a run that may fail; what was done before a failure stays done. -/
abbrev WorldM (σ : Type) := EStateM ExecError (World σ)

/-- The exceptions that instructions throw by themselves. -/
inductive BuiltinException where
  | arithmetic
  | nullPointer
  | arrayIndex
  | negativeArraySize
  | classCast
  deriving DecidableEq, Repr

/-- The class of an exception. -/
def BuiltinException.className : BuiltinException → String
  | .arithmetic => "java/lang/ArithmeticException"
  | .nullPointer => "java/lang/NullPointerException"
  | .arrayIndex => "java/lang/ArrayIndexOutOfBoundsException"
  | .negativeArraySize => "java/lang/NegativeArraySizeException"
  | .classCast => "java/lang/ClassCastException"

/-- The common superclass of the exceptions about indices. -/
def indexException : String := "java/lang/IndexOutOfBoundsException"

/-- The superclass of the exceptions that instructions throw, but for the one about indices. -/
def runtimeException : String := "java/lang/RuntimeException"

/-- The superclass of a class that needs no host to be known.  The root of all classes is known to have
none, and is not among them. -/
def builtinSuperclass (className : String) : Option String :=
  let chain := Service.signalClass :: Service.signalSuperclasses
  if (Service.siteOfSignal? className).isSome then some Service.signalClass
  else
    match (chain.zip chain.tail).lookup className with
    | some next => some next
    | none =>
      if className = BuiltinException.arrayIndex.className then some indexException
      else if className ∈ [BuiltinException.arithmetic.className,
          BuiltinException.nullPointer.className, BuiltinException.negativeArraySize.className,
          BuiltinException.classCast.className, indexException] then some runtimeException
      else if className = "java/lang/Error" then some throwableClass
      else none

namespace World

variable {σ : Type}

/-- The direct superclass of a class; a class of which nothing is known extends the root. -/
def superclass (w : World σ) (host : Host σ) (className : String) : Option String :=
  match builtinSuperclass className with
  | some c => some c
  | none =>
    if className = objectClass then none
    else some ((host.superclass w.outside className).getD objectClass)

/-- Whether a class is `target` or extends it, by at most the given number of steps. -/
def extends? (w : World σ) (host : Host σ) (target : String) :
    Nat → String → Except ExecError Bool
  | steps, className =>
    if className = target then .ok true
    else
      match w.superclass host className, steps with
      | none, _ => .ok false
      | some _, 0 => .error .endlessHierarchy
      | some next, steps + 1 => extends? w host target steps next

/-- The longest chain of classes that are known without a host. -/
def builtinReach : Nat := 8

/-- Whether an object is of a class.  Every object is of the root class, even one that is not there. -/
def instanceOf (w : World σ) (host : Host σ) (r : ObjectId) (target : String) :
    Except ExecError Bool := do
  if target = objectClass then return true
  w.extends? host target (host.reach + builtinReach) (← w.heap.classOf r)

/-- Announces an event. -/
def report (e : Event) : WorldM σ Unit := fun w => .ok () { w with events := w.events ++ [e] }

/-- Changes the heap. -/
def changeHeap {α : Type} (f : Heap → Except ExecError (α × Heap)) : WorldM σ α := fun w =>
  match f w.heap with
  | .ok (a, heap) => .ok a { w with heap }
  | .error e => .error e w

/-- Adds an object. -/
def alloc (o : HeapObject) : WorldM σ ObjectId := changeHeap fun h => .ok (h.alloc o)

/-- The object of a string constant. -/
def intern (s : String) : WorldM σ ObjectId := changeHeap fun h => .ok (h.intern s)

/-- The handle of a face of a context. -/
def handle (id : ContextId) (face : ContextFace) : WorldM σ ObjectId :=
  changeHeap fun h => .ok (h.handle id face)

/-- The object of an id. -/
def object (r : ObjectId) : WorldM σ HeapObject := do (← get).heap.get r

/-- Sets a field of an instance. -/
def setField (r : ObjectId) (name : String) (v : Value) : WorldM σ Unit :=
  changeHeap fun h => (h.setField r name v).map ((), ·)

/-- The class of an object. -/
def isOf (host : Host σ) (r : ObjectId) (target : String) : WorldM σ Bool := do
  (← get).instanceOf host r target

/-- The value of a static field that was set. -/
def static? (w : World σ) (owner name : String) : Option Value := w.statics.lookup (owner, name)

/-- Sets a static field. -/
def setStatic (owner name : String) (v : Value) : WorldM σ Unit := fun w =>
  .ok () { w with statics := ((owner, name), v) :: w.statics.filter (·.1 ≠ (owner, name)) }

/-- Limits the instructions that are executed from now on, or lifts the limit. -/
def setFuel (fuel : Option Nat) : WorldM σ Unit := fun w => .ok () { w with fuel }

/-- Pays for one instruction. -/
def burn : WorldM σ Unit := fun w =>
  match w.fuel with
  | none => .ok () w
  | some 0 => .error .outOfFuel w
  | some (fuel + 1) => .ok () { w with fuel := some fuel }

/-- Changes the contexts. -/
def changeContexts {α : Type} (f : Contexts → Except ExecError (α × Contexts)) : WorldM σ α :=
  fun w =>
    match f w.contexts with
    | .ok (a, contexts) => .ok a { w with contexts }
    | .error e => .error e w

/-- Copies a context and queues the copy. -/
def resume (id : ContextId) : WorldM σ ContextId := do
  let copy ← changeContexts (·.resume id)
  report (Contexts.resumed id copy)
  return copy

/-- Copies a context, queues the copy, and hands it a value. -/
def answer (id : ContextId) (v : Value) : WorldM σ ContextId := do
  let copy ← changeContexts (·.answer id v)
  report (Contexts.resumed id copy)
  return copy

/-- Drops a context. -/
def deactivate (id : ContextId) : WorldM σ Unit := do
  report (Contexts.deactivated id)
  changeContexts fun cs => .ok ((), cs.deactivate id)

/-- Forgets the queued copy. -/
def resetContexts : WorldM σ Unit := changeContexts fun cs => .ok ((), cs.reset)

/-- The live context of an id. -/
def context (id : ContextId) : WorldM σ Context := do (← get).contexts.get id

/-- Changes a live context. -/
def changeContext (id : ContextId) (f : Context → Context) : WorldM σ Unit :=
  changeContexts fun cs => (cs.modify id f).map ((), ·)

end World

end Suspension
