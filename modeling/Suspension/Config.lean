import Suspension.Bytecode.Class

/-!
# Which calls suspend

A method is entered through its configured name and descriptor.  Inside it, calls of four configured
methods are the sites at which the flow of control is handed back: a pause, a step back, a call that
waits for an answer, and the answer to such a call.

## Main definitions
* `SiteKind`: the four sorts of sites.
* `JoinPolicy`: what happens where two paths disagree about a live slot.
* `Config`, `Config.classify`: the configured methods, and the sort of site that a call is.
-/

namespace Suspension

/-- The sorts of sites. -/
inductive SiteKind where
  | pause
  | stepBack
  | call
  | answer
  deriving DecidableEq, Repr

/-- Whether the flow can be resumed at a site of this kind; an answer ends it. -/
def SiteKind.suspends (k : SiteKind) : Bool := k ≠ .answer

/-- What happens where two paths bring different kinds of values into one live slot: the method is
refused, or the view of the path that came first is kept. -/
inductive JoinPolicy where
  | reject
  | firstPredecessor
  deriving DecidableEq, Repr

/-- Which classes and methods take part, and which calls are sites.  The methods of the sites belong
to the support class or to the class itself. -/
structure Config where
  marker : Option String := none
  supportClass : String := "resumable/ContinuableSupport"
  entryName : String := "execute"
  entryDescriptor : String := "()V"
  pauseMethod : Option String := some "pause"
  stepBackMethod : Option String := some "stepBack"
  callMethod : Option String := some "call"
  callDescriptor : String := "(Ljava/lang/Object;)Ljava/lang/Object;"
  answerMethod : Option String := some "answer"
  joinPolicy : JoinPolicy := .reject
  deriving DecidableEq, Repr

namespace Config

/-- The descriptor of pauses and steps back. -/
def pauseDescriptor : String := "()V"

/-- The descriptors of answers: without a value, or with one. -/
def answerDescriptors : List String := ["()V", "(Ljava/lang/Object;)V"]

/-- Whether a method is the one to be made suspendable. -/
def isEntry (c : Config) (name descriptor : String) : Bool :=
  c.entryName == name && c.entryDescriptor == descriptor

/-- The signature of the configured call. -/
def callSignature (c : Config) : Except MalformedDescriptor Signature :=
  Signature.parse c.callDescriptor

/-- Whether a class may own the methods of the sites in code of class `className`. -/
def ownsSites (c : Config) (className owner : String) : Bool :=
  internalName owner == internalName c.supportClass || internalName owner == internalName className

/-- The sort of site that a call made by code of class `className` is; `none` for any other call. -/
def classify (c : Config) (className : String) (m : MemberRef) : Option SiteKind :=
  if !c.ownsSites className m.owner then none
  else if c.pauseMethod = some m.name ∧ m.descriptor = pauseDescriptor then some .pause
  else if c.stepBackMethod = some m.name ∧ m.descriptor = pauseDescriptor then some .stepBack
  else if c.callMethod = some m.name ∧ m.descriptor = c.callDescriptor then some .call
  else if c.answerMethod = some m.name ∧ m.descriptor ∈ answerDescriptors then some .answer
  else none

/-- The sort of site that an instruction is, with the way it is called. -/
def site? (c : Config) (className : String) (i : Instr) : Option (InvokeKind × SiteKind × MemberRef) :=
  match i.invocation? with
  | some (kind, m) => (c.classify className m).map fun site => (kind, site, m)
  | none => none

end Config

end Suspension
