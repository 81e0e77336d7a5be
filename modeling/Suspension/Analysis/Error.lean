import Suspension.Bytecode.Class

/-!
# Why a method is refused

The ways in which the static analysis of a method fails, with their wording.  Places are indices into
the stream of instructions.

## Main definitions
* `AnalysisError`, `AnalysisError.message`.
-/

namespace Suspension

/-- Why a method was refused.  Stacks are listed bottom first. -/
inductive AnalysisError where
  | stackUnderflow (place : Nat)
  | undefinedLocal (place : Nat) (slot : Slot)
  | unknownLabel (label : Label)
  | duplicateLabel (label : Label)
  | wideValueSplit (place : Nat)
  | divergentStack (place : Nat) (expected found : List Tag)
  | divergentLocal (place : Nat) (slot : Slot) (expected found : Option Tag)
  | descriptor (e : MalformedDescriptor)
  | siteCountMismatch (metrics graph : Nat)
  | tooManyParameters
  deriving DecidableEq, Repr

/-- A list in diagnostics. -/
def listDiagnostic (items : List String) : String := "[" ++ ", ".intercalate items ++ "]"

/-- A value that may be missing, in diagnostics. -/
def optionDiagnostic : Option String → String
  | none => "None"
  | some s => "Some(" ++ s ++ ")"

/-- A label in diagnostics. -/
def labelDiagnostic (l : Label) : String := "Label(" ++ toString l.toNat ++ ")"

/-- The diagnostic for an error. -/
def AnalysisError.message : AnalysisError → String
  | .stackUnderflow place => "operand stack underflow at instruction " ++ toString place
  | .undefinedLocal place slot =>
    "local " ++ toString slot.toNat ++ " read before any store at instruction " ++ toString place
  | .unknownLabel l => "branch or try region refers to undefined label " ++ labelDiagnostic l
  | .duplicateLabel l => "label " ++ labelDiagnostic l ++ " is defined more than once"
  | .wideValueSplit place => "instruction " ++ toString place ++ " splits a category-2 value"
  | .divergentStack place expected found =>
    "operand stacks disagree at the join at instruction " ++ toString place ++ ": "
      ++ listDiagnostic (expected.map Tag.diagnostic) ++ " vs "
      ++ listDiagnostic (found.map Tag.diagnostic)
  | .divergentLocal place slot expected found =>
    "live local " ++ toString slot.toNat ++ " disagrees at the join at instruction "
      ++ toString place ++ ": " ++ optionDiagnostic (expected.map Tag.diagnostic) ++ " vs "
      ++ optionDiagnostic (found.map Tag.diagnostic)
  | .descriptor e => e.message
  | .siteCountMismatch metrics graph =>
    "metrics counted " ++ toString metrics ++ " suspension sites but the graph has "
      ++ toString graph
  | .tooManyParameters => "the parameters occupy more than 65535 slots"

/-- A malformed descriptor met during the analysis. -/
def AnalysisError.ofDescriptor {α : Type} (r : Except MalformedDescriptor α) :
    Except AnalysisError α :=
  r.mapError .descriptor

/-- The slots of the receiver and the parameters of a method, refused if they are too many. -/
def Method.entrySlots (m : Method) (s : Signature) : Except AnalysisError Nat :=
  if m.receiverSlots + s.slots < 65536 then .ok (m.receiverSlots + s.slots)
  else .error .tooManyParameters

end Suspension
