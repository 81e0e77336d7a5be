import Suspension.Weave.Method
import Suspension.Container.Decode

/-!
# Making classes suspendable

The entry methods of a class are measured, analysed and made suspendable; a method without sites is
left alone, and so is a class in which nothing changes.

## Main definitions
* `Method.transform`: one method.
* `transformClass`, `Transformed`: an encoded class.
* `TransformError`: why a class is refused.
-/

namespace Suspension

open Container (DecodeError decodeClass encodeClass)

/-- Why a class is refused. -/
inductive TransformError where
  | decode (className : String) (source : DecodeError)
  | analysis (className method : String) (source : AnalysisError)
  | weave (className method : String) (source : WeaveError)
  | nameMismatch (expected found : String)
  deriving DecidableEq, Repr

/-- The diagnostic for an error; that of its source is not part of it. -/
def TransformError.message : TransformError → String
  | .decode className _ => "cannot decode class " ++ className
  | .analysis className method _ => "cannot analyze " ++ className ++ "." ++ method
  | .weave className method _ => "cannot rewrite " ++ className ++ "." ++ method
  | .nameMismatch expected found =>
    "expected class " ++ expected ++ ", but the input defines " ++ found

namespace Method

/-- The announcement of a method that is left alone. -/
def unchangedEvent (className : String) (method : Method) : Event :=
  ⟨.debug, "no suspension sites, method left unchanged",
    [("class", .text className), ("method", .text method.name)]⟩

/-- The suspendable form of a method of class `className`, or nothing if it has no site. -/
def transform (className : String) (method : Method) (config : Config) :
    Reported TransformError (Option Method) := do
  let title := method.name ++ method.descriptor
  let metrics ← (Metrics.ofMethod className method config).mapError (.analysis className title)
  if metrics.needsWeaving then
    let shape ← (Shape.ofMethod className method config metrics).mapError
      (.analysis className title)
    let result ← (method.weave className config metrics shape).mapError (.weave className title)
    return some result
  else
    Reported.report (method.unchangedEvent className)
    return none

end Method

/-- What became of a class: nothing had to change, or these are the new bytes. -/
inductive Transformed where
  | unchanged
  | changed (bytes : List UInt8)
  deriving DecidableEq, Repr

/-- The bytes to go on with, given those of the class as it was. -/
def Transformed.bytes (t : Transformed) (input : List UInt8) : List UInt8 :=
  match t with
  | .unchanged => input
  | .changed bytes => bytes

/-- Makes the entry methods among the given ones suspendable, and tells whether there was any. -/
def transformMethods (className : String) (config : Config) :
    List Method → Reported TransformError (List Method × Bool)
  | [] => return ([], false)
  | m :: rest => do
    let result ← if config.isEntry m.name m.descriptor then m.transform className config
      else pure none
    let (methods, changed) ← transformMethods className config rest
    return (result.getD m :: methods, result.isSome || changed)

/-- The announcement of a class without the marker. -/
def notContinuable (className marker : String) : Event :=
  ⟨.debug, "not continuable", [("class", .text className), ("marker", .text marker)]⟩

/-- The announcement of a class in which something changed. -/
def classTransformed (className : String) : Event :=
  ⟨.debug, "class transformed", [("class", .text className)]⟩

/-- The marker that a class lacks to take part. -/
def Config.missingMarker? (config : Config) (c : Class) : Option String :=
  config.marker.filter fun marker => !c.implements marker

/-- Makes an encoded class suspendable, which has to define `className` (in either form). -/
def transformClass (bytes : List UInt8) (className : String) (config : Config) :
    Reported TransformError Transformed := do
  let expected := internalName className
  let c ← Reported.ofExcept ((decodeClass bytes).mapError (.decode expected))
  if c.name ≠ expected then
    Reported.fail (.nameMismatch expected c.name)
  match config.missingMarker? c with
  | some marker =>
    Reported.report (notContinuable c.name marker)
    return .unchanged
  | none =>
    let (methods, changed) ← transformMethods c.name config c.methods
    if changed then
      Reported.report (classTransformed c.name)
      return .changed (encodeClass { c with methods })
    else return .unchanged

end Suspension
