import Suspension.Analysis.Error
import Suspension.Config
import Suspension.Reported

/-!
# Metrics of a method

One pass over a method that counts its sites and the slots it addresses, and collects what each
handler catches.

## Main definitions
* `Metrics`, `Metrics.ofMethod`.
-/

namespace Suspension

/-- What one pass over a method finds: the sites that suspend, the sites that answer, one more than
the highest slot addressed, and what each handler catches in the order of the table. -/
structure Metrics where
  siteCount : Nat := 0
  answerCount : Nat := 0
  maxLocals : UInt16 := 0
  caught : List (Label × String) := []
  deriving DecidableEq, Repr

namespace Metrics

/-- Whether the method has to be changed at all. -/
def needsWeaving (m : Metrics) : Bool := 0 < m.siteCount || 0 < m.answerCount

/-- The class that a handler catches. -/
def caughtBy (m : Metrics) (handler : Label) : Option String := m.caught.lookup handler

/-- Adds what one region catches; a handler that is shared by several classes catches their common
root. -/
def noteCaught (handler : Label) (caught : String) :
    List (Label × String) → List (Label × String)
  | [] => [(handler, caught)]
  | (l, c) :: rest =>
    if l = handler then (l, if c = caught then c else throwableClass) :: rest
    else (l, c) :: noteCaught handler caught rest

/-- What each handler of a table catches, in the order in which they first appear. -/
def caughtTypes (regions : List Region) : List (Label × String) :=
  regions.foldl (fun caught r => noteCaught r.handler (r.catchType.getD throwableClass) caught) []

/-- One more than the highest slot an instruction addresses, as far as slots can be numbered. -/
def slotEnd (i : Instr) : Nat :=
  match i.slotAccess? with
  | some (s, w) => min (s.toNat + w.words) 65535
  | none => 0

/-- The sites of a stream, in order. -/
def sites (className : String) (config : Config) (instrs : List Instr) : List SiteKind :=
  instrs.filterMap fun i => (config.site? className i).map (·.2.1)

/-- The metrics of a method, without announcing them. -/
def measure (className : String) (method : Method) (config : Config) :
    Except AnalysisError Metrics := do
  let signature ← AnalysisError.ofDescriptor method.signature
  let entry ← method.entrySlots signature
  let sites := sites className config method.code.instrs
  return {
    siteCount := sites.countP SiteKind.suspends
    answerCount := sites.countP fun k => !k.suspends
    maxLocals := UInt16.ofNat ((method.code.instrs.map slotEnd).foldl max entry)
    caught := caughtTypes method.code.regions }

/-- The announcement of the metrics of a method. -/
def collected (className : String) (method : Method) (m : Metrics) : Event :=
  ⟨.debug, "collected method metrics",
    [("class", .text className), ("method", .text method.name), ("suspensions", .count m.siteCount),
      ("answers", .count m.answerCount), ("max_locals", .count m.maxLocals.toNat)]⟩

/-- The metrics of a method. -/
def ofMethod (className : String) (method : Method) (config : Config) :
    Reported AnalysisError Metrics := do
  let metrics ← Reported.ofExcept (measure className method config)
  Reported.report (collected className method metrics)
  return metrics

end Metrics

end Suspension
