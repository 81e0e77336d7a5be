import Suspension.Proofs.Machine.Requests
import Suspension.Proofs.Transform.Entries
import Suspension.Proofs.Weave.Passing
import Suspension.Proofs.Weave.Tidy

/-!
# Captured contexts

A run of a suspendable class works on the context that is handed out to it, so whatever is requested of a
runner, the contexts in which flows were captured stay as they are, and a flow can be continued from its
context again and again.

## Main definitions
* `Runner.Careful`: a runner of a class of which only inserted code knows of contexts.
* `Runner.Homing`, `Runner.ThrowsNew`, `Runner.EntersOnce`: what runs have to keep to.

## Main results
* `Runner.kept_of_serve`: live contexts stay as they are.
* `Runner.namesNew_of_passesOn`: a signal that handlers let through names a context that is new.
* `Runner.new_of_serve`: an outcome names a context that is new.
* `transformClass_captured`: so it is for every class that was made suspendable.
* `transformClass_captured_broken`: what the code of the class has to keep to.
-/

namespace Suspension

open Container

variable {σ : Type}

namespace Runner

/-- Only the suspendable form of the entry method knows of contexts. -/
structure Careful (r : Runner) : Prop where
  each : r.cls.Careful
  others : ∀ m ∈ r.cls.methods, ¬ (m.name = r.entryName ∧ m.descriptor = r.entryDescriptor) → m.Plain

/-- If an exception is read as an outcome that names a context, that context is live, and was not so before. -/
def NamesNew (w w' : World σ) (exc : ObjectId) : Prop :=
  ∀ o id, decode w' exc = .ok o → o.context? = some id →
    w.contexts.get? id = none ∧ (w'.contexts.get? id).isSome = true

variable (r : Runner) (host : Host σ) (w : World σ) (request : Request)

/-- In the entry method, subroutines are left for the place behind one of their calls. -/
def Homing : Prop :=
  ∀ x, r.Visits host w request x → x.frame.method.name = r.entryName →
    x.frame.method.descriptor = r.entryDescriptor → x.frame.Homing

/-- What the code of the class throws by itself, and what it goes on to a handler with, names no context of an
earlier run.  Inserted code is not meant, which throws the signals that it has built, and throws again what
handlers let through. -/
structure ThrowsNew : Prop where
  thrown : ∀ x exc rest, r.Visits host w request x → Run.fetch x.frame = .ok (.plain .athrow) →
    ¬ x.Signals → ¬ x.Passing → x.frame.stack = .object exc :: rest → NamesNew w x.world exc
  handed : ∀ x y exc, r.Visits host w request x → Run.fetch x.frame ≠ .ok (.plain .athrow) → ¬ x.Passing →
    x.advance r.cls host = .running y → y.PassesOn exc → NamesNew w y.world exc

/-- The entry method is not entered again. -/
def EntersOnce : Prop :=
  ∀ x, r.Visits host w request x → x.callers ≠ [] →
    ¬ (x.frame.method.name = r.entryName ∧ x.frame.method.descriptor = r.entryDescriptor)

/-- The worlds that follow a world: requests are served or fail, and in between anything may be done that
leaves the contexts and their handles alone. -/
inductive Later : World σ → Prop
  | now : Later w
  | served {w' w'' : World σ} {request : Request} {o : Outcome} (before : Later w')
      (homing : r.Homing host w' request) (served : r.serve host request w' = .ok o w'') : Later w''
  | failed {w' w'' : World σ} {request : Request} {e : ExecError} (before : Later w')
      (homing : r.Homing host w' request) (failed : r.serve host request w' = .error e w'') : Later w''
  | meanwhile {w' w'' : World σ} (before : Later w') (contexts : w''.contexts = w'.contexts)
      (kept : w'.heap.KeepsHandles w''.heap) : Later w''

variable {r host w request} {w' : World σ} {x : Run σ}

/-! ## Runs of the entry method -/

/-- Every run of the entry method is tidy when it begins. -/
theorem tidy_of_opens (ready : Contexts → Prop) (careful : r.Careful) (intact : w.heap.HandlesIntact)
    (opens : r.Opens w request x) (first : ready x.world.contexts) :
    x.Tidy r.cls ready w.contexts.table.nextId ∧
      Contexts.Prepared request.origin w.contexts x.world.contexts := by
  obtain ⟨params, w₀, method, frame, queued, entry, enters, rfl⟩ := opens
  obtain ⟨heap, prepared⟩ := Request.prepared_of_queue queued
  obtain ⟨-, layout⟩ := Frame.enter_eq_ok enters
  have same : frame.method = method := layout ▸ (Frame.layOut_eq ..).1
  have start : frame.pc = 0 := layout ▸ (Frame.layOut_eq ..).2.2
  have intact : w₀.heap.HandlesIntact := heap ▸ intact
  refine ⟨⟨intact, prepared.beyond, none, [], ?_, nofun, .nil⟩, prepared⟩
  rcases careful.each method (mem_of_entry entry) with plain | ⟨W, woven, unaware⟩
  · exact .plain (same ▸ plain)
  · exact .woven (same.trans woven) unaware (start ▸ W.care_zero) (.unmet first)

/-- A run is begun in a method of the class. -/
theorem within_of_opens (opens : r.Opens w request x) : x.Within r.cls := by
  obtain ⟨_, _, method, frame, _, entry, enters, rfl⟩ := opens
  obtain ⟨-, layout⟩ := Frame.enter_eq_ok enters
  have same : frame.method = method := layout ▸ (Frame.layOut_eq ..).1
  exact ⟨same ▸ mem_of_entry entry, nofun⟩

/-- The states of a run are fair if it is homing, and enters no method without a context. -/
theorem fair_of_opens (ready : Contexts → Prop) (careful : r.Careful) (leaves : host.LeavesHandles)
    (homing : r.Homing host w request) (opens : r.Opens w request x)
    (entered : ∀ y, r.Visits host w request y → y.callers ≠ [] → y.frame.method ∈ r.cls.methods →
      y.frame.method.Plain ∨ ready y.world.contexts) :
    x.Throughout r.cls host (Run.Fair ready) := by
  have within := within_of_opens opens
  intro n y reached
  have visits : r.Visits host w request y := ⟨x, n, opens, reached⟩
  have member := (within.follow leaves n y reached).1
  refine ⟨fun woven => ?_, fun called => entered y visits called member⟩
  by_cases entry : y.frame.method.name = r.entryName ∧ y.frame.method.descriptor = r.entryDescriptor
  · exact homing y visits entry.1 entry.2
  · exact absurd (careful.others _ member entry) woven

/-- Every state that a request goes through is tidy. -/
theorem tidy_of_visits (careful : r.Careful) (leaves : host.LeavesHandles) (intact : w.heap.HandlesIntact)
    (homing : r.Homing host w request) (visits : r.Visits host w request x) :
    x.Tidy r.cls (fun _ => True) w.contexts.table.nextId := by
  obtain ⟨x₀, n, opens, reached⟩ := visits
  obtain ⟨tidy, -⟩ := tidy_of_opens (fun _ => True) careful intact opens trivial
  have fair := fair_of_opens (fun _ => True) careful leaves homing opens fun _ _ _ _ => .inr trivial
  exact tidy.along leaves careful.each fair reached

/-! ## What becomes of contexts -/

/-- Contexts of which the ids are below a bound stay as they are. -/
def since (n : Nat) : Keeping Contexts := ⟨Contexts.Since n, .refl, .trans⟩

/-- Runs of the entry method leave all contexts alone that were live before. -/
theorem since_follow (careful : r.Careful) (leaves : host.LeavesHandles) (intact : w.heap.HandlesIntact)
    (homing : r.Homing host w request) (opens : r.Opens w request x) (n : Nat) :
    Contexts.Since w.contexts.table.nextId x.world.contexts (x.follow r.cls host n).world.contexts := by
  obtain ⟨tidy, -⟩ := tidy_of_opens (fun _ => True) careful intact opens trivial
  have fair := fair_of_opens (fun _ => True) careful leaves homing opens fun _ _ _ _ => .inr trivial
  exact (tidy.follow leaves careful.each (C := since _) (fun beyond high effect => effect.since beyond high)
    fair n).1

/-- So contexts that were there before the request stay as they are. -/
theorem kept_of_follow (careful : r.Careful) (leaves : host.LeavesHandles) (intact : w.heap.HandlesIntact)
    (homing : r.Homing host w request) (opens : r.Opens w request x) (n : Nat) {id : ContextId}
    (low : id.index < w.contexts.table.nextId) :
    (x.follow r.cls host n).world.contexts.get? id = w.contexts.get? id := by
  obtain ⟨-, prepared⟩ := tidy_of_opens (fun _ => True) careful intact opens trivial
  exact ((since_follow careful leaves intact homing opens n).kept id low).trans (prepared.kept id low)

/-- Live contexts stay as they are, whether a request is served or fails. -/
theorem kept_of_serve (careful : r.Careful) (leaves : host.LeavesHandles) (intact : w.heap.HandlesIntact)
    (homing : r.Homing host w request)
    (ended : (∃ o, r.serve host request w = .ok o w') ∨ ∃ e, r.serve host request w = .error e w')
    {id : ContextId} (low : id.index < w.contexts.table.nextId) : w'.contexts.get? id = w.contexts.get? id := by
  have during {x : Run σ} (opens : r.Opens w request x) (n : Nat) :
      (x.follow r.cls host n).world.contexts.get? id = w.contexts.get? id :=
    kept_of_follow careful leaves intact homing opens n low
  rcases ended with ⟨o, served⟩ | ⟨e, failed⟩
  · obtain ⟨x, n, c, w₁, opens, done, contexts, -, -⟩ := serve_eq_ok served
    have same := during opens n
    rw [done] at same
    rw [contexts]
    exact same
  · rcases serve_eq_error failed with refused | ⟨params, w₀, queued, same | ⟨x, n, opens, same⟩⟩
    · rw [refused]
    · rw [same]
      exact (Request.prepared_of_queue queued).2.kept id low
    · rw [same]
      exact during opens n

/-- No request that follows changes a context that is live. -/
theorem Later.kept (careful : r.Careful) (leaves : host.LeavesHandles) (intact : w.heap.HandlesIntact)
    (later : r.Later host w w') : w'.heap.HandlesIntact ∧
      ∀ id c, w.contexts.get? id = some c → w'.contexts.get? id = some c := by
  induction later with
  | now => exact ⟨intact, fun _ _ live => live⟩
  | served _ homing served ih =>
    obtain ⟨intact', kept⟩ := ih
    refine ⟨((keeps_serve leaves _).ok served).1.2.intact intact', fun id c live => ?_⟩
    have live := kept id c live
    rw [kept_of_serve careful leaves intact' homing (.inl ⟨_, served⟩) (Contexts.index_lt_of_get? live)]
    exact live
  | failed _ homing failed ih =>
    obtain ⟨intact', kept⟩ := ih
    refine ⟨((keeps_serve leaves _).error failed).2.intact intact', fun id c live => ?_⟩
    have live := kept id c live
    rw [kept_of_serve careful leaves intact' homing (.inr ⟨_, failed⟩) (Contexts.index_lt_of_get? live)]
    exact live
  | meanwhile _ contexts handles ih =>
    obtain ⟨intact', kept⟩ := ih
    exact ⟨handles.intact intact', fun id c live => contexts ▸ kept id c live⟩

/-! ## Contexts that are named -/

/-- The exceptions that instructions throw by themselves are no signals. -/
theorem siteOfSignal?_builtin (e : BuiltinException) : Service.siteOfSignal? e.className = none := by
  cases e <;> decide

/-- So they name no context. -/
theorem namesNew_builtin {w₁ : World σ} {exc : ObjectId} {e : BuiltinException}
    (new : w₁.heap.get? exc = some (.new e.className)) : NamesNew w w₁ exc := by
  intro o id read names
  obtain ⟨⟨className, kind, known, signal⟩, -⟩ := decode_eq_ok read names
  have class_eq : className = e.className := by
    simp only [Heap.classOf, Heap.get, new] at known
    exact (Except.ok.inj known).symm
  rw [class_eq, siteOfSignal?_builtin] at signal
  cases signal

section

variable (careful : r.Careful) (leaves : host.LeavesHandles) (intact : w.heap.HandlesIntact)
  (homing : r.Homing host w request) (throwsNew : r.ThrowsNew host w request)
  (foreign : Service.siteOfSignal? r.cls.name = none)
include careful leaves intact homing throwsNew foreign

/-- An exception that is raised names a context that is new, if it names one: a signal that has just been built
names the context that its frame owns, and one that handlers let through is as it was. -/
theorem namesNew_of_raises (visits : r.Visits host w request x)
    (passes : ∀ exc, x.PassesOn exc → NamesNew w x.world exc) {i : Instr} {fuel : Option Nat} {exc : ObjectId}
    {t : Situation σ} (fetched : Run.fetch x.frame = .ok i)
    (step : i.step r.cls host ⟨x.frame.moved 1 x.frame.stack, x.world.paying fuel⟩ = .ok (.raise exc) t) :
    NamesNew w t.world exc := by
  rcases Instr.raises step with ⟨rfl, same, rest, stack⟩ | ⟨e, new⟩
  · have stack : x.frame.stack = .object exc :: rest := stack
    suffices thrown : NamesNew w x.world exc by
      rw [same]
      exact thrown
    by_cases signals : x.Signals
    · intro o id read names
      obtain ⟨id', exc', v, rest', owned, stack', given, r', face, rfl, shown⟩ :=
        (tidy_of_visits careful leaves intact homing visits).shows_of_signals signals foreign
      obtain ⟨rfl, -⟩ : exc' = exc ∧ rest' = rest := by
        have same := stack'.symm.trans stack
        simp only [List.cons.injEq, Value.object, Value.ref.injEq, Option.some.injEq] at same
        exact same
      obtain ⟨-, named, -⟩ := decode_eq_ok read names
      obtain ⟨r'', given', handle⟩ := signalContext_eq_ok named
      obtain rfl : r' = r'' := by simpa [Value.object] using given.symm.trans given'
      obtain rfl : id' = id := by
        cases shown.symm.trans handle
        rfl
      exact ⟨Arena.get?_eq_none_of_le _ owned.high, owned.live⟩
    · by_cases passing : x.Passing
      · exact passes exc ⟨passing, _, fetched, by rw [stack]; rfl⟩
      · exact throwsNew.thrown x exc rest visits fetched signals passing stack
  · exact namesNew_builtin new

/-- A signal that handlers let through names a context that is new: it has been thrown in the same run, or the code
of the class has gone on to a handler with it. -/
theorem namesNew_of_passesOn :
    ∀ x, r.Visits host w request x → ∀ exc, x.PassesOn exc → NamesNew w x.world exc := by
  refine Visits.induct (fun x opens exc on => ?_) fun x y visits passes advanced exc on => ?_
  · have visits : r.Visits host w request x := ⟨x, 0, opens, rfl⟩
    obtain ⟨W, own, unaware⟩ := (tidy_of_visits careful leaves intact homing visits).exists_weaving on.1.1
    obtain ⟨_, _, _, frame, _, _, enters, rfl⟩ := opens
    obtain ⟨-, layout⟩ := Frame.enter_eq_ok enters
    exact absurd (layout ▸ (Frame.layOut_eq ..).2.2) (on.pc_ne_zero own unaware)
  · by_cases throws : Run.fetch x.frame = .ok (.plain .athrow)
    · obtain ⟨fuel, act⟩ := Run.act_of_advance advanced
      obtain ⟨i, flow, t, fetched, step, go⟩ := Run.act_eq_running act
      cases throws.symm.trans fetched
      obtain ⟨thrown, rfl⟩ := Instr.exists_raise step
      obtain rfl := on.caught go
      rw [(Run.stack_of_unwind go).2]
      exact namesNew_of_raises careful leaves intact homing throwsNew foreign visits passes throws step
    · by_cases passing : x.Passing
      · obtain ⟨fuel, act⟩ := Run.act_of_advance advanced
        obtain ⟨W, own, -⟩ := (tidy_of_visits careful leaves intact homing visits).exists_weaving passing.1
        obtain ⟨before, same⟩ := Run.PassesOn.before (r := x.paying fuel) own passing throws act on
        rw [same]
        exact passes exc before
      · exact throwsNew.handed x y exc visits throws passing advanced on

/-- An outcome names a context that is live, and was not live before. -/
theorem new_of_serve {o : Outcome} {id : ContextId} (served : r.serve host request w = .ok o w')
    (names : o.context? = some id) : w.contexts.get? id = none ∧ (w'.contexts.get? id).isSome = true := by
  obtain ⟨x, n, c, w₁, opens, done, contexts, -, read⟩ := serve_eq_ok served
  rw [contexts]
  cases c with
  | returned v =>
    cases read
    cases names
  | threw exc =>
    obtain ⟨m, y, reached, last⟩ := Run.exists_last done
    have ends : ∀ e w', y.advance r.cls host ≠ .failed e w' := by
      rw [last]
      nofun
    obtain ⟨fuel, acts⟩ := Run.exists_act ends
    rw [last] at acts
    obtain ⟨i, t, fetched, step, rfl⟩ := Run.act_eq_threw acts.symm
    have visits : r.Visits host w request y := ⟨x, m, opens, reached⟩
    exact namesNew_of_raises careful leaves intact homing throwsNew foreign visits
      (namesNew_of_passesOn careful leaves intact homing throwsNew foreign y visits) fetched step o id read names

end

/-- A flow that stepped back is one that was continued from the context of the request, or was started.  A
context is handed out once, and it is the one that was queued. -/
theorem origin_of_serve (careful : r.Careful) (leaves : host.LeavesHandles) (intact : w.heap.HandlesIntact)
    (homing : r.Homing host w request) (once : r.EntersOnce host w request) {id : ContextId}
    {previous : Option ContextId} (served : r.serve host request w = .ok (.steppedBack id previous) w')
    (new : w.contexts.get? id = none) : previous = request.origin := by
  obtain ⟨x, n, c, w₁, opens, done, contexts, -, read⟩ := serve_eq_ok served
  let queued (cs : Contexts) : Prop := request.origin = none ∨ (cs.pending.filter cs.contains).isSome = true
  have first : queued x.world.contexts := by
    obtain ⟨params, w₀, method, frame, queue, -, -, rfl⟩ := opens
    exact (Request.prepared_of_queue queue).2.queued
  obtain ⟨tidy, prepared⟩ := tidy_of_opens queued careful intact opens first
  have fair : x.Throughout r.cls host (Run.Fair queued) :=
    fair_of_opens queued careful leaves homing opens fun y visits called member =>
      .inl (careful.others _ member (once y visits called))
  have descends := (tidy.follow leaves careful.each (C := Contexts.descending _ request.origin)
    (fun _ _ effect descend => effect.descend descend fun first => first) fair n).1 prepared.descend
  have kept (low : id.index < w.contexts.table.nextId) :=
    kept_of_follow careful leaves intact homing opens n low
  rw [done] at descends kept
  cases c with
  | returned v => cases read
  | threw exc =>
    obtain ⟨-, -, parent⟩ := decode_eq_ok read rfl
    obtain ⟨d, live, rfl⟩ := parent previous rfl
    refine descends id d (Nat.le_of_not_lt fun low => ?_) live
    have old : w₁.contexts.get? id = w.contexts.get? id := kept low
    rw [live, new] at old
    cases old

end Runner

/-! ## Suspendable classes -/

/-- What becomes of a class that knows of no contexts. -/
theorem careful_of_becomes {className : String} {config : Config} {methods : List Method} {r : Runner}
    (plain : ∀ m ∈ methods, m.Plain) (each : List.Forall₂ (Method.Becomes className config) methods r.cls.methods)
    (name : r.entryName = config.entryName) (descriptor : r.entryDescriptor = config.entryDescriptor) :
    r.Careful := by
  have becomes : ∀ m' ∈ r.cls.methods, ∃ m ∈ methods, m.Becomes className config m' := by
    intro m' hm'
    obtain ⟨j, hj, rfl⟩ := List.mem_iff_getElem.1 hm'
    have pairs := List.forall₂_iff_get.1 each
    have hj' : j < methods.length := pairs.1 ▸ hj
    exact ⟨_, List.getElem_mem hj', pairs.2 j hj' hj⟩
  constructor
  · intro m' hm'
    obtain ⟨m, hm, h⟩ := becomes m' hm'
    by_cases takes : m.TakesPart className config
    · obtain ⟨W, -, rfl, -, rfl⟩ := Weaving.exists_of_transform (h.woven takes)
      exact .inr ⟨W, rfl, plain _ hm⟩
    · exact .inl (h.kept takes ▸ plain m hm)
  · intro m' hm' other
    obtain ⟨m, hm, h⟩ := becomes m' hm'
    by_cases takes : m.TakesPart className config
    · have entry : config.entryName = m.name ∧ config.entryDescriptor = m.descriptor := by
        simpa [Config.isEntry] using takes.1
      refine absurd ⟨?_, ?_⟩ other
      · rw [h.name, name, entry.1]
      · rw [h.descriptor, descriptor, entry.2]
    · exact h.kept takes ▸ plain m hm

/-- In a class that was made suspendable, only inserted code knows of contexts. -/
theorem careful_of_transformClass {bytes : List UInt8} {className : String} {config : Config} {t : Transformed}
    (h : (transformClass bytes className config).result = .ok t) :
    ∃ c c' : Class, decodeClass bytes = .ok c ∧ c'.name = c.name ∧
      (t = .unchanged ∧ c' = c ∨ t = .changed (encodeClass c') ∧ ∃ methods, c' = { c with methods } ∧
        List.Forall₂ (Method.Becomes c.name config) c.methods methods) ∧
      ((∀ m ∈ c.methods, m.Plain) → ∀ r : Runner, r.cls = c' → r.entryName = config.entryName →
        r.entryDescriptor = config.entryDescriptor → r.Careful) := by
  obtain ⟨c, decoded, -, steps⟩ := transformClass_eq_ok.1 h
  have unchanged : (∀ m ∈ c.methods, m.Plain) → ∀ r : Runner, r.cls = c → r.entryName = config.entryName →
      r.entryDescriptor = config.entryDescriptor → r.Careful := fun plain r e _ _ =>
    ⟨fun m hm => .inl (plain m (e ▸ hm)), fun m hm _ => plain m (e ▸ hm)⟩
  rcases steps with ⟨-, rfl⟩ | ⟨-, methods, changed, woven, rfl⟩
  · exact ⟨c, c, decoded, rfl, .inl ⟨rfl, rfl⟩, unchanged⟩
  · cases changed with
    | false => exact ⟨c, c, decoded, rfl, .inl ⟨rfl, rfl⟩, unchanged⟩
    | true =>
      obtain ⟨each, -⟩ := transformMethods_eq_ok woven
      refine ⟨c, { c with methods }, decoded, rfl, .inr ⟨rfl, methods, rfl, each⟩, ?_⟩
      intro plain r e name descriptor
      exact careful_of_becomes plain (by rw [e]; exact each) name descriptor

/-- What was captured by a run of a suspendable class stays as it is: whatever is requested later, every context
that is live keeps all that it holds, and continuing it queues another copy.  A run that captures a flow does so
in a new context, and a flow that stepped back is told the context that the run was continued from, or none if
it was started.  Subroutines of the entry method are left for the place behind one of their calls; and what the
code of the class throws by itself, or goes on to a handler with, is no signal of an earlier run. -/
theorem transformClass_captured {bytes : List UInt8} {className : String} {config : Config} {t : Transformed}
    (h : (transformClass bytes className config).result = .ok t) :
    ∃ c c', decodeClass bytes = .ok c ∧
      (t = .unchanged ∧ c' = c ∨ t = .changed (encodeClass c') ∧ ∃ methods, c' = { c with methods } ∧
        List.Forall₂ (Method.Becomes c.name config) c.methods methods) ∧
      ((∀ m ∈ c.methods, m.Plain) →
        ∀ {σ : Type} (r : Runner) (host : Host σ) (w : World σ), r.cls = c' →
          r.entryName = config.entryName → r.entryDescriptor = config.entryDescriptor →
          host.LeavesHandles → r.Session host w →
          (∀ w' id context, r.Later host w w' → w.contexts.get? id = some context →
            w'.contexts.get? id = some context ∧ ∃ copy w'', World.resume id w' = .ok copy w'' ∧
              w'.Queues copy { context with parent := some id, registered := false } w'') ∧
          ∀ request o w' id, r.serve host request w = .ok o w' → o.context? = some id →
            r.Homing host w request → r.ThrowsNew host w request → Service.siteOfSignal? c.name = none →
            w.contexts.get? id = none ∧ (w'.contexts.get? id).isSome = true ∧
              (r.EntersOnce host w request →
                ∀ previous, o = .steppedBack id previous → previous = request.origin)) := by
  obtain ⟨c, c', decoded, name, became, careful⟩ := careful_of_transformClass h
  refine ⟨c, c', decoded, became, fun plain σ r host w same entryName entryDescriptor leaves session => ?_⟩
  have careful := careful plain r same entryName entryDescriptor
  have intact := session.intact leaves
  refine ⟨fun w' id context later live => ?_, fun request o w' id served names homing throwsNew foreign => ?_⟩
  · have live' := (later.kept careful leaves intact).2 id context live
    exact ⟨live', World.resume_queues live'⟩
  · obtain ⟨new, live⟩ := Runner.new_of_serve careful leaves intact homing throwsNew
      (by rw [same, name]; exact foreign) served names
    refine ⟨new, live, fun once previous e => ?_⟩
    subst e
    exact Runner.origin_of_serve careful leaves intact homing once served new

namespace Captured

/-- A method that steps back twice, where everything that is thrown is caught and thrown again. -/
def stepping : Method where
  access := staticFlag
  name := "execute"
  descriptor := "()V"
  maxLocals := 0
  code := {
    instrs := [.label 0, .stepBack, .stepBack, .label 1, .plain (.leave none), .label 2, .plain .athrow]
    regions := [⟨0, 1, 2, none⟩] }

/-- A class of that method. -/
def steppingClass : Class := ⟨1, "app/C", some objectClass, [], [stepping]⟩

theorem steppingClass_encodable : steppingClass.Encodable := by
  have steps : stepping.Encodable :=
    ⟨by decide, by decide, by decide +kernel, by decide, by
      simp [stepping, Instr.stepBack, Instr.Encodable]
      exact ⟨by decide, by decide, by decide⟩, by decide, by simp [stepping]⟩
  exact encodable_of_methods (by decide) (by simp [steps])

/-- The runner of the suspendable class, and the world that it starts in. -/
def runner (m : Method) : Runner × World Unit :=
  Runner.create { steppingClass with methods := [m] } {} 1000 ()

/-- Whether an instruction leaves a subroutine. -/
def isReturn : Instr → Bool
  | .slot .ret _ => true
  | _ => false

/-- Whether a step does not lead to code that lets signals through. -/
def avoids : Progress Unit → Bool
  | .running y => !decide y.Passing
  | _ => true

/-- A state in which no method waits and no subroutine is left.  Nothing is thrown but new signals, and what handlers
let through, and nothing else leads to a handler. -/
def orderly (cls : Class) (x : Run Unit) : Bool :=
  x.callers.isEmpty && (Run.fetch x.frame).toOption.all fun i =>
    if i = .plain .athrow then
      decide x.Passing || 0 < x.frame.pc && SiteKind.all.any fun k =>
        x.frame.method.code.instrs[x.frame.pc - 1]? = some (.invoke .special k.constructor)
    else !isReturn i && (decide x.Passing || avoids (x.advance cls (Host.nothing Unit)))

/-- The worlds after a flow stepped back, and after it was continued and stepped back again. -/
def steps (m : Method) : Option (World Unit × World Unit) :=
  let (r, w₀) := runner m
  match r.serve (Host.nothing Unit) (.start []) w₀ with
  | .ok (.steppedBack ⟨0⟩ none) w =>
    match r.serve (Host.nothing Unit) (.resume ⟨0⟩) w with
    | .ok (.steppedBack ⟨1⟩ (some ⟨0⟩)) w' => some (w, w')
    | _ => none
  | _ => none

/-- Whether the first of these contexts is live, and the second run orderly. -/
def fine (m : Method) (w : World Unit) : Bool :=
  (w.contexts.get? ⟨0⟩).isSome && ((runner m).1.look (Host.nothing Unit) w (.resume ⟨0⟩) 60).isNone &&
    (List.range 60).all fun n =>
      ((runner m).1.look (Host.nothing Unit) w (.resume ⟨0⟩) n).all (orderly (runner m).1.cls)

theorem steps_eq_some {m : Method} {w w' : World Unit} (h : steps m = some (w, w')) :
    (runner m).1.serve (Host.nothing Unit) (.start []) (runner m).2 = .ok (.steppedBack ⟨0⟩ none) w ∧
      (runner m).1.serve (Host.nothing Unit) (.resume ⟨0⟩) w = .ok (.steppedBack ⟨1⟩ (some ⟨0⟩)) w' := by
  simp only [steps] at h
  split at h
  · next started =>
    split at h
    · next resumed =>
      cases h
      exact ⟨started, resumed⟩
    · cases h
  · cases h

theorem callers_of_orderly {cls : Class} {x : Run Unit} (h : orderly cls x = true) : x.callers = [] :=
  List.isEmpty_iff.1 (Bool.and_eq_true_iff.1 h).1

theorem homing_of_orderly {cls : Class} {x : Run Unit} (h : orderly cls x = true) : x.frame.Homing := by
  intro s pc ret
  obtain ⟨-, kept⟩ := Bool.and_eq_true_iff.1 h
  rw [ret] at kept
  cases kept

theorem thrown_of_orderly {cls : Class} {x : Run Unit} (h : orderly cls x = true)
    (throws : Run.fetch x.frame = .ok (.plain .athrow)) : x.Passing ∨ x.Signals := by
  obtain ⟨-, kept⟩ := Bool.and_eq_true_iff.1 h
  rw [throws] at kept
  rcases Bool.or_eq_true_iff.1 kept with passing | signals
  · exact .inl (of_decide_eq_true passing)
  · obtain ⟨inside, built⟩ := Bool.and_eq_true_iff.1 signals
    obtain ⟨k, -, constructor⟩ := List.any_eq_true.1 built
    have inside : 0 < x.frame.pc := of_decide_eq_true inside
    exact .inr ⟨throws, x.frame.pc - 1, k, by omega, of_decide_eq_true constructor⟩

theorem handed_of_orderly {cls : Class} {x y : Run Unit} (h : orderly cls x = true)
    (other : Run.fetch x.frame ≠ .ok (.plain .athrow)) (outside : ¬ x.Passing)
    (advanced : x.advance cls (Host.nothing Unit) = .running y) : ¬ y.Passing := by
  obtain ⟨fuel, act⟩ := Run.act_of_advance advanced
  obtain ⟨i, -, -, fetched, -⟩ := Run.act_eq_running act
  have fetched : Run.fetch x.frame = .ok i := fetched
  have other : i ≠ .plain .athrow := fun same => other (same ▸ fetched)
  obtain ⟨-, kept⟩ := Bool.and_eq_true_iff.1 h
  rw [fetched, Except.toOption, Option.all_some, if_neg other, advanced, decide_eq_false outside, Bool.false_or]
    at kept
  have ends : (!decide y.Passing) = true := (Bool.and_eq_true_iff.1 kept).2
  simpa using ends

/-- A run that is over in time, and orderly until then, keeps to what runs have to keep to. -/
theorem keeps_of_orderly {r : Runner} {w : World Unit} {request : Request} {bound : Nat}
    (ended : (r.look (Host.nothing Unit) w request bound).isNone = true)
    (each : (List.range bound).all (fun n => (r.look (Host.nothing Unit) w request n).all (orderly r.cls)) = true) :
    r.Homing (Host.nothing Unit) w request ∧ r.ThrowsNew (Host.nothing Unit) w request ∧
      r.EntersOnce (Host.nothing Unit) w request := by
  simp only [List.all_eq_true, List.mem_range] at each
  have visits : ∀ x, r.Visits (Host.nothing Unit) w request x → orderly r.cls x = true :=
    Runner.forall_visits bound (Option.isNone_iff_eq_none.1 ended) fun n hn x seen => by
      simpa [seen] using each n hn
  refine ⟨fun x hx _ _ => homing_of_orderly (visits x hx), ⟨?_, ?_⟩,
    fun x hx called => absurd (callers_of_orderly (visits x hx)) called⟩
  · intro x exc rest hx throws elsewhere outside
    rcases thrown_of_orderly (visits x hx) throws with passing | signals
    · exact absurd passing outside
    · exact absurd signals elsewhere
  · intro x y exc hx other outside advanced on
    exact absurd on.1 (handed_of_orderly (visits x hx) other outside advanced)

/-- What runs of the class have to keep to, they keep to. -/
theorem keeps_of_fine {m : Method} {w : World Unit} (h : fine m w = true) :
    (w.contexts.get? ⟨0⟩).isSome = true ∧ (runner m).1.Homing (Host.nothing Unit) w (.resume ⟨0⟩) ∧
      (runner m).1.ThrowsNew (Host.nothing Unit) w (.resume ⟨0⟩) ∧
      (runner m).1.EntersOnce (Host.nothing Unit) w (.resume ⟨0⟩) := by
  simp only [fine, Bool.and_eq_true] at h
  obtain ⟨⟨live, ended⟩, each⟩ := h
  exact ⟨live, keeps_of_orderly ended each⟩

end Captured

/-- The flow steps back out of a region that catches everything, is continued, and steps back from where it was: what
was captured first stays. -/
theorem steppingClass_captured :
    ∃ m w w' context, (Captured.stepping.transform "app/C" {}).result = .ok (some m) ∧
      Captured.steps m = some (w, w') ∧ w.contexts.get? ⟨0⟩ = some context ∧
      w'.contexts.get? ⟨0⟩ = some context ∧ w.contexts.get? ⟨1⟩ = none ∧
      (w'.contexts.get? ⟨1⟩).isSome = true := by
  open Captured in
  have runs : (stepping.transform "app/C" {}).result.toOption.join.any
      (fun m => (steps m).any fun worlds => fine m worlds.1) = true := by decide +kernel
  obtain ⟨m, transformed, runs⟩ := Option.any_eq_true _ _ |>.1 runs
  have woven : (stepping.transform "app/C" {}).result = .ok (some m) :=
    eq_ok_of_toOption (Option.join_eq_some_iff.1 transformed)
  have named : steppingClass.name = internalName "app.C" := by decide +kernel
  obtain ⟨c, c', decoded, became, captured⟩ :=
    transformClass_captured (transformClass_single steppingClass_encodable woven rfl (by decide) named rfl)
  obtain rfl : c = steppingClass :=
    Except.ok.inj (decoded.symm.trans (decodeClass_encodeClass _ steppingClass_encodable))
  rcases became with ⟨unchanged, -⟩ | ⟨-, methods, rfl, each⟩
  · cases unchanged
  obtain rfl := Method.Becomes.eq_single each woven (by decide)
  obtain ⟨⟨w, w'⟩, stepped, kept⟩ := Option.any_eq_true _ _ |>.1 runs
  obtain ⟨started, resumed⟩ := steps_eq_some stepped
  obtain ⟨live, homing, throwsNew, entersOnce⟩ := keeps_of_fine kept
  obtain ⟨context, live⟩ := Option.isSome_iff_exists.1 live
  obtain ⟨stays, new⟩ := captured (by decide) (runner m).1 (Host.nothing Unit) w rfl rfl rfl
    (Host.leavesHandles_nothing _) (.served (.begun rfl) started)
  obtain ⟨new, live', -⟩ := new _ _ _ _ resumed rfl homing throwsNew rfl
  exact ⟨m, w, w', context, woven, stepped, live, (stays w' _ _ (.served .now homing resumed) live).1, new, live'⟩

/-! ### What the premises are for -/

/-- What a runner makes of requests one after the other: the outcomes, the contexts that are live then, and whether
the entry method was alone all the time. -/
def Runner.told (host : Host Unit) (r : Runner) :
    World Unit → List Request → List (Option (Outcome × List Nat × Bool))
  | _, [] => []
  | w, request :: rest =>
    match r.serve host request w with
    | .error .. => [none]
    | .ok o w' =>
      let alone := (List.range 100).all fun n => (r.look host w request n).all fun x =>
        x.frame.method.name ≠ r.entryName || x.callers.isEmpty
      some (o, w'.contexts.table.ids, alone) :: told host r w' rest

/-- The same of a class, when it has been made suspendable. -/
def Class.observed (cls : Class) (host : Host Unit) (descriptor : String) (requests : List Request) :
    List (Option (Outcome × List Nat × Bool)) :=
  let config : Config := { entryDescriptor := descriptor }
  match (transformMethods cls.name config cls.methods).result with
  | .error _ => [none]
  | .ok (methods, _) =>
    let (r, w) := Runner.create { cls with methods } config 1000 ()
    r.told host w requests

namespace Captured

/-- A field of any value. -/
def field (name : String) : MemberRef := ⟨"app/C", name, "Ljava/lang/Object;"⟩

/-- Called with one, enters itself again; with two, steps back and then throws what it finds; and with three,
goes to an address that it finds, with another thing that it finds on the stack. -/
def roaming : Method where
  access := staticFlag
  name := "execute"
  descriptor := "(I)V"
  maxLocals := 2
  code.instrs := [.slot (.load .int) 0, .jump (.ifZero .ne) 0, .plain (.leave none),
    .label 0, .slot (.load .int) 0, .iconst 1, .jump (.ifInts .ne) 1,
    .invoke .static ⟨"app/C", "shelter", "()V"⟩, .plain (.leave none),
    .label 1, .slot (.load .int) 0, .iconst 2, .jump (.ifInts .ne) 2, .stepBack,
    .field .getStatic (field "signal"), .plain .athrow,
    .label 2, .invoke .static ⟨"app/C", "stray", "()V"⟩, .field .getStatic (field "place"),
    .slot (.store .reference) 1, .field .getStatic (field "handle"), .slot .ret 1]

/-- Enters the entry method, and lets everybody have the signal by which it is left, and the handle in it. -/
def sheltering : Method where
  access := staticFlag
  name := "shelter"
  descriptor := "()V"
  maxLocals := 0
  code := {
    instrs := [.label 0, .iconst 2, .invoke .static ⟨"app/C", "execute", "(I)V"⟩, .plain (.leave none),
      .label 1, .label 2, .plain (.shuffle .dup), .field .putStatic (field "signal"), .plain (.shuffle .dup),
      .field .getField (field "context"), .field .putStatic (field "handle"), .plain .athrow]
    regions := [⟨0, 1, 2, none⟩] }

/-- Lets everybody have the address of its instruction 17. -/
def straying : Method where
  access := staticFlag
  name := "stray"
  descriptor := "()V"
  maxLocals := 0
  code.instrs := List.replicate 16 (.plain .nop) ++
    [.jump .jsr 0, .label 0, .field .putStatic (field "place"), .plain (.leave none)]

/-- A class that knows of no contexts. -/
def roamingClass : Class := ⟨1, "app/C", some objectClass, [], [roaming, sheltering, straying]⟩

end Captured

/-- Neither premise can be dropped: a flow that was continued from a context throws a signal of an earlier run,
which names no previous context; and a stray return from a subroutine drops the context of another run. -/
theorem transformClass_captured_broken :
    (∀ m ∈ Captured.roamingClass.methods, m.Plain) ∧
      Captured.roamingClass.observed (Host.nothing Unit) "(I)V" [.start [.int 1], .resume ⟨1⟩] =
        [some (.steppedBack ⟨1⟩ none, [0, 1], false), some (.steppedBack ⟨1⟩ none, [0, 1, 2], true)] ∧
      Captured.roamingClass.observed (Host.nothing Unit) "(I)V" [.start [.int 1], .start [.int 3]] =
        [some (.steppedBack ⟨1⟩ none, [0, 1], false), some (.completed none, [0, 2], true)] := by
  decide +kernel

end Suspension
