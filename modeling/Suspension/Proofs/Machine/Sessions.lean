import Suspension.Proofs.Machine.Calm
import Suspension.Runner

/-!
# Sessions

A session is what a runner is asked to do, one request after the other.  Between two requests anything may
be done to the world that leaves the handles of contexts alone.

## Main definitions
* `Request`, `Runner.serve`: a request, and what a runner makes of it.
* `Runner.Session`: the worlds between requests.
* `Runner.Opens`, `Runner.Visits`: the run that a request begins, and the states that it goes through.
* `Runner.look`: one of these states.

## Main results
* `Runner.serve_eq`: a request queues a context, and runs the entry method.
* `Runner.Session.intact`: handles stay intact.
-/

namespace Suspension

variable {σ : Type}

/-- What a runner is asked to do. -/
inductive Request where
  | start (params : List Value)
  | resume (context : ContextId)
  | answer (context : ContextId) (v : Value)

namespace Request

/-- Queues the context that the entry method is to continue, if any, and yields its parameters. -/
def queue : Request → WorldM σ (List Value)
  | .start params => do
    World.resetContexts
    return params
  | .resume context => do
    let _ ← World.resume context
    return []
  | .answer context v => do
    let _ ← World.answer context v
    return []

end Request

/-- Only the handles matter for what a request does to the world before the entry method runs. -/
theorem Request.keeps_queue (request : Request) :
    Keeps (World.keeping Contexts.anyhow) (request.queue : WorldM σ (List Value)) := by
  have changes {α : Type} (f : Contexts → Except ExecError (α × Contexts)) :
      Keeps (World.keeping Contexts.anyhow) (World.changeContexts f : WorldM σ α) :=
    keeps_changeContexts fun _ => trivial
  cases request with
  | start params => exact (changes _).seq fun _ => keeps_pure _
  | resume context =>
    exact ((changes _).seq fun copy => (keeps_report _).seq fun _ => keeps_pure copy).seq fun _ =>
      keeps_pure _
  | answer context v =>
    exact ((changes _).seq fun copy => (keeps_report _).seq fun _ => keeps_pure copy).seq fun _ =>
      keeps_pure _

/-- Nothing is queued for a start, and parameters are passed to no other request. -/
theorem Request.alone_of_queue {request : Request} {params : List Value} {w w' : World σ}
    (h : request.queue w = .ok params w') :
    request = .start params ∧ w'.contexts.pending = none ∨ params = [] := by
  cases request with
  | start params =>
    cases h
    exact .inl ⟨rfl, rfl⟩
  | resume context =>
    simp only [queue, bind, EStateM.bind] at h
    split at h
    · cases h
      exact .inr rfl
    · cases h
  | answer context v =>
    simp only [queue, bind, EStateM.bind] at h
    split at h
    · cases h
      exact .inr rfl
    · cases h

namespace Runner

variable (r : Runner) (host : Host σ)

/-- What a runner makes of a request. -/
def serve : Request → WorldM σ Outcome
  | .start params => r.start host params
  | .resume context => r.resume host context
  | .answer context v => r.answer host context v

/-- A request queues a context, and runs the entry method. -/
theorem serve_eq (request : Request) :
    r.serve host request = (do r.run host (← request.queue)) := by
  cases request <;> funext w
  · rfl
  · simp only [serve, resume, Request.queue, bind, EStateM.bind]
    cases World.resume _ w <;> rfl
  · simp only [serve, answer, Request.queue, bind, EStateM.bind]
    cases World.answer _ _ w <;> rfl

/-- The arguments of the entry method. -/
def arguments (method : Method) (params : List Value) : List Value :=
  (if method.isStatic then [] else [.object r.receiver]) ++ params

/-- The run that a request begins. -/
def Opens (w : World σ) (request : Request) (x : Run σ) : Prop :=
  ∃ params w' method frame, request.queue w = .ok params w' ∧ r.entry = .ok method ∧
    Frame.enter method (r.arguments method params) = .ok frame ∧ x = { frame, world := w' }

/-- The states that a request goes through. -/
def Visits (w : World σ) (request : Request) (x : Run σ) : Prop :=
  ∃ x₀ n, r.Opens w request x₀ ∧ x₀.follow r.cls host n = .running x

/-- The state that a request comes to after a number of instructions. -/
def look (w : World σ) (request : Request) (n : Nat) : Option (Run σ) :=
  match request.queue w with
  | .ok params w' => do
    let method ← r.entry.toOption
    let frame ← (Frame.enter method (r.arguments method params)).toOption
    match ({ frame, world := w' } : Run σ).follow r.cls host n with
    | .running x => some x
    | _ => none
  | .error .. => none

/-- The worlds between requests. -/
inductive Session : World σ → Prop
  | begun {w : World σ} (empty : w.heap.handles = []) : Session w
  | served {w w' : World σ} {request : Request} {o : Outcome} (before : Session w)
      (served : r.serve host request w = .ok o w') : Session w'
  | failed {w w' : World σ} {request : Request} {e : ExecError} (before : Session w)
      (failed : r.serve host request w = .error e w') : Session w'
  | meanwhile {w w' : World σ} (before : Session w) (kept : w.heap.KeepsHandles w'.heap) : Session w'

variable {r} {host}

theorem visits_of_look {w : World σ} {request : Request} {n : Nat} {x : Run σ}
    (h : r.look host w request n = some x) : r.Visits host w request x := by
  unfold look at h
  split at h
  · next params w' queued =>
    obtain ⟨method, hmethod, h⟩ := Option.bind_eq_some_iff.1 h
    obtain ⟨frame, hframe, h⟩ := Option.bind_eq_some_iff.1 h
    split at h
    · next followed =>
      cases h
      exact ⟨_, n, ⟨params, w', method, frame, queued, eq_ok_of_toOption hmethod,
        eq_ok_of_toOption hframe, rfl⟩, followed⟩
    · cases h
  · cases h

/-- No request touches the handles. -/
theorem keeps_serve (leaves : host.LeavesHandles) (request : Request) :
    Keeps (World.keeping Contexts.anyhow) (r.serve host request) := by
  rw [serve_eq]
  refine request.keeps_queue.seq fun params => (keeps_except _).seq fun method => ?_
  refine (World.keepsHandles_execute leaves ..).seq fun c => ?_
  have reported (o : Outcome) : Keeps (World.keeping Contexts.anyhow)
      (do World.report (r.finished o); return o : WorldM σ Outcome) :=
    (keeps_report _).seq fun _ => keeps_pure o
  cases c with
  | returned v => exact reported _
  | threw exc => exact keeps_get.seq fun w => (keeps_except _).seq reported

/-- Handles stay intact. -/
theorem Session.intact (leaves : host.LeavesHandles) {w : World σ} (h : r.Session host w) :
    w.heap.HandlesIntact := by
  induction h with
  | begun empty =>
    intro id face r' found
    rw [empty] at found
    cases found
  | served _ served ih => exact ((keeps_serve leaves _).ok served).1.2.intact ih
  | failed _ failed ih => exact ((keeps_serve leaves _).error failed).2.intact ih
  | meanwhile _ kept ih => exact kept.intact ih

/-- The entry method is one of the class. -/
theorem mem_of_entry {m : Method} (h : r.entry = .ok m) : m ∈ r.cls.methods := by
  unfold entry at h
  split at h
  · next found =>
    cases h
    exact List.mem_of_find?_eq_some found
  · cases h

end Runner

end Suspension
