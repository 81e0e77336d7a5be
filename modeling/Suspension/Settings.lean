import Suspension.Config

/-!
# Configurations as settings

A configuration is written as ten named settings.  A setting that is missing has its default; one of the
wrong sort spoils the whole configuration.

## Main definitions
* `Setting`: what is written for one name.
* `Config.keys`: the names, in order.
* `Config.ofSettings?`, `Config.settings`: reading and writing.
-/

namespace Suspension

/-- What is written for one name: nothing, an explicit null, a text, a choice among alternatives written
out as such, or something that fits no setting. -/
inductive Setting where
  | missing
  | null
  | text (s : String)
  | choice (s : String)
  | other
  deriving DecidableEq, Repr

namespace Setting

/-- A text, which may not be null. -/
def text? (default : String) : Setting → Option String
  | .missing => some default
  | .text s => some s
  | .null | .choice _ | .other => none

/-- A text, or null for none. -/
def optional? (default : Option String) : Setting → Option (Option String)
  | .missing => some default
  | .null => some none
  | .text s => some (some s)
  | .choice _ | .other => none

/-- What to write for a text that may be missing. -/
def ofOption : Option String → Setting
  | none => .null
  | some s => .text s

@[simp] theorem optional?_ofOption (default s : Option String) :
    (ofOption s).optional? default = some s := by
  cases s <;> rfl

end Setting

/-- The word for a policy. -/
def JoinPolicy.word : JoinPolicy → String
  | .reject => "reject"
  | .firstPredecessor => "first-predecessor"

/-- The policy of a word. -/
def JoinPolicy.ofWord? (s : String) : Option JoinPolicy :=
  [JoinPolicy.reject, .firstPredecessor].find? (·.word == s)

@[simp] theorem JoinPolicy.ofWord?_word (p : JoinPolicy) : ofWord? p.word = some p := by
  cases p <;> decide

/-- A policy, written as a text or as a choice. -/
def Setting.policy? (default : JoinPolicy) : Setting → Option JoinPolicy
  | .missing => some default
  | .text s => JoinPolicy.ofWord? s
  | .choice s => JoinPolicy.ofWord? s
  | .null | .other => none

namespace Config

/-- The names of the settings, in order. -/
def keys : List String :=
  ["continuable-marker", "support-class", "entry-method-name", "entry-method-descriptor",
    "pause-method", "step-back-method", "call-method", "call-method-descriptor", "answer-method",
    "join-policy"]

/-- The configuration of settings in the order of their names; those left out at the end are missing. -/
def ofSettings? (settings : List Setting) : Option Config := do
  if keys.length < settings.length then none
  let nth (i : Nat) : Setting := settings[i]?.getD .missing
  let c : Config := {}
  return {
    marker := ← (nth 0).optional? c.marker
    supportClass := ← (nth 1).text? c.supportClass
    entryName := ← (nth 2).text? c.entryName
    entryDescriptor := ← (nth 3).text? c.entryDescriptor
    pauseMethod := ← (nth 4).optional? c.pauseMethod
    stepBackMethod := ← (nth 5).optional? c.stepBackMethod
    callMethod := ← (nth 6).optional? c.callMethod
    callDescriptor := ← (nth 7).text? c.callDescriptor
    answerMethod := ← (nth 8).optional? c.answerMethod
    joinPolicy := ← (nth 9).policy? c.joinPolicy }

/-- The settings of a configuration, in the order of their names. -/
def settings (c : Config) : List Setting :=
  [.ofOption c.marker, .text c.supportClass, .text c.entryName, .text c.entryDescriptor,
    .ofOption c.pauseMethod, .ofOption c.stepBackMethod, .ofOption c.callMethod,
    .text c.callDescriptor, .ofOption c.answerMethod, .text c.joinPolicy.word]

/-- A configuration that was written is read back. -/
theorem ofSettings?_settings (c : Config) : ofSettings? c.settings = some c := by
  simp [ofSettings?, settings, keys, Setting.text?, Setting.policy?]

end Config

end Suspension
