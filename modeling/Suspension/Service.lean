import Suspension.Config

/-!
# Services of the host environment

Suspendable code calls into two classes that whoever runs it has to provide: the context that a
suspended flow is captured in, and the store behind its local slots and its operand stack.  It leaves
by throwing one of four signals.

## Main definitions
* `Service.contextClass`, `Service.storeClass` and the methods of both.
* `Service.store`, `Service.get`, `Service.push`, `Service.pop`: access to a store, by storage.
* `SiteKind.signalClass`, `Service.siteOfSignal?`: the signal of each sort of site.
-/

namespace Suspension

namespace Service

/-- The class of captured flows. -/
def contextClass : String := "resumable/runtime/ContinuationContext"

/-- The class of the stores of a captured flow. -/
def storeClass : String := "resumable/runtime/ContinuationStack"

/-- The common superclass of all signals. -/
def signalClass : String := "resumable/runtime/ControlFlowSignal"

/-- The superclasses of `signalClass`, nearest first. -/
def signalSuperclasses : List String :=
  ["java/lang/RuntimeException", "java/lang/Exception", "java/lang/Throwable", "java/lang/Object"]

/-- Hands out the context of a run. -/
def createOrResetContext : MemberRef :=
  ⟨contextClass, "createOrResetContext",
    "(Ljava/lang/Object;)Lresumable/runtime/ContinuationContext;"⟩

/-- The site at which a context continues. -/
def getLabel : MemberRef := ⟨contextClass, "getLabel", "()I"⟩

/-- Notes the site at which a context is to continue. -/
def setLabel : MemberRef := ⟨contextClass, "setLabel", "(I)V"⟩

/-- Notes that a context continues nowhere. -/
def clearLabel : MemberRef := ⟨contextClass, "clearLabel", "()V"⟩

/-- The store of the local slots. -/
def getLocalVars : MemberRef :=
  ⟨contextClass, "getLocalVars", "()Lresumable/runtime/ContinuationStack;"⟩

/-- The store of the operand stack. -/
def getLocalStack : MemberRef :=
  ⟨contextClass, "getLocalStack", "()Lresumable/runtime/ContinuationStack;"⟩

/-- Marks a context as complete. -/
def registerContext : MemberRef := ⟨contextClass, "registerContext", "()V"⟩

/-- Drops a context. -/
def deactivate : MemberRef := ⟨contextClass, "deactivate", "()V"⟩

/-- Takes the answer that was handed to a context. -/
def getCallAnswer : MemberRef := ⟨contextClass, "getCallAnswer", "()Ljava/lang/Object;"⟩

/-- Adds to a stored int. -/
def incrementInt : MemberRef := ⟨storeClass, "incrementInt", "(II)V"⟩

/-- The word for a storage inside the name of a method. -/
def word : Storage → String
  | .int => "Int"
  | .long => "Long"
  | .float => "Float"
  | .double => "Double"
  | .reference => "Reference"

/-- The type of a storage inside a descriptor. -/
def type : Storage → String
  | .int => "I"
  | .long => "J"
  | .float => "F"
  | .double => "D"
  | .reference => "Ljava/lang/Object;"

/-- Stores a value under an index. -/
def store (k : Storage) : MemberRef := ⟨storeClass, "store" ++ word k, "(I" ++ type k ++ ")V"⟩

/-- Reads the value under an index. -/
def get (k : Storage) : MemberRef := ⟨storeClass, "get" ++ word k, "(I)" ++ type k⟩

/-- Pushes a value. -/
def push (k : Storage) : MemberRef := ⟨storeClass, "push" ++ word k, "(" ++ type k ++ ")V"⟩

/-- Pops a value. -/
def pop (k : Storage) : MemberRef := ⟨storeClass, "pop" ++ word k, "()" ++ type k⟩

/-- The name of constructors. -/
def constructorName : String := "<init>"

/-- The field of a signal that holds its context. -/
def contextField : String := "context"

/-- The field of a signal that holds the value it carries. -/
def payloadField : String := "payload"

end Service

namespace SiteKind

/-- The class of the signal that a site of this kind throws. -/
def signalClass : SiteKind → String
  | .pause => "resumable/runtime/PauseSignal"
  | .stepBack => "resumable/runtime/StepBackSignal"
  | .call => "resumable/runtime/CallSignal"
  | .answer => "resumable/runtime/AnswerSignal"

/-- Whether the signal carries a value beside the context. -/
def hasPayload : SiteKind → Bool
  | .pause | .stepBack => false
  | .call | .answer => true

/-- The descriptor of the constructor of the signal. -/
def constructorDescriptor (k : SiteKind) : String :=
  if k.hasPayload then "(Lresumable/runtime/ContinuationContext;Ljava/lang/Object;)V"
  else "(Lresumable/runtime/ContinuationContext;)V"

/-- All sorts of sites. -/
def all : List SiteKind := [.pause, .stepBack, .call, .answer]

end SiteKind

namespace Service

/-- The sort of site that throws signals of a class. -/
def siteOfSignal? (className : String) : Option SiteKind :=
  SiteKind.all.find? (·.signalClass == className)

@[simp] theorem siteOfSignal?_signalClass (k : SiteKind) :
    siteOfSignal? k.signalClass = some k := by
  cases k <;> decide

end Service

end Suspension
