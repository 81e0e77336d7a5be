/-!
# Computations that report what they do

A `Reported` computation yields an answer or an error together with the events it announced on the
way.  What was announced before an error is kept.  Forgetting the events turns it into a plain
`Except` computation, see `result_bind`.

## Main definitions
* `Event`: one announcement, with a severity, a message and named details in a fixed order.
* `Reported`: a computation that reports events.
-/

namespace Suspension

/-- How much an event matters. -/
inductive Severity where
  | trace
  | debug
  | warn
  deriving DecidableEq, Repr

/-- Severities from the least to the most important. -/
def Severity.rank : Severity → Nat
  | .trace => 0
  | .debug => 1
  | .warn => 2

/-- The value of one detail of an event. -/
inductive Detail where
  | count (n : Nat)
  | text (s : String)
  deriving DecidableEq, Repr

/-- One announcement; the details keep the order in which they are listed. -/
structure Event where
  severity : Severity
  message : String
  details : List (String × Detail)
  deriving DecidableEq, Repr

/-- Whether an event is of severity `least` or of a higher one. -/
def Event.reaches (least : Severity) (e : Event) : Bool :=
  least.rank ≤ e.severity.rank

/-- An answer or an error, together with the events announced before it, oldest first. -/
structure Reported (ε α : Type) where
  events : List Event
  result : Except ε α

namespace Reported

variable {ε ε' α β : Type}

/-- A computation that announces nothing. -/
def ofExcept (r : Except ε α) : Reported ε α := ⟨[], r⟩

/-- Runs `f` on the answer of `x`; an error of `x` ends the computation and keeps its events. -/
def bind (x : Reported ε α) (f : α → Reported ε β) : Reported ε β :=
  match x.result with
  | .error e => ⟨x.events, .error e⟩
  | .ok a => ⟨x.events ++ (f a).events, (f a).result⟩

instance : Monad (Reported ε) where
  pure a := ofExcept (.ok a)
  bind := bind

instance : MonadLift (Except ε) (Reported ε) where
  monadLift := ofExcept

/-- Announces one event. -/
def report (e : Event) : Reported ε Unit := ⟨[e], .ok ()⟩

/-- Ends the computation with an error. -/
def fail (e : ε) : Reported ε α := ⟨[], .error e⟩

/-- Replaces the error and keeps the events. -/
def mapError (f : ε → ε') (x : Reported ε α) : Reported ε' α :=
  ⟨x.events, x.result.mapError f⟩

@[simp] theorem result_ofExcept (r : Except ε α) : (ofExcept r).result = r := rfl

@[simp] theorem result_pure (a : α) : (pure a : Reported ε α).result = .ok a := rfl

@[simp] theorem result_report (e : Event) : (report e : Reported ε Unit).result = .ok () := rfl

@[simp] theorem result_fail (e : ε) : (fail e : Reported ε α).result = .error e := rfl

@[simp] theorem result_mapError (f : ε → ε') (x : Reported ε α) :
    (mapError f x).result = x.result.mapError f := rfl

/-- The answer of a sequence is that of the sequence of the answers. -/
@[simp] theorem result_bind (x : Reported ε α) (f : α → Reported ε β) :
    (x >>= f).result = x.result >>= fun a => (f a).result := by
  show (bind x f).result = _
  unfold bind
  cases x.result <;> rfl

end Reported

end Suspension
