import Suspension.Proofs.Machine.Effects
import Suspension.Proofs.Machine.Owned
import Suspension.Proofs.Machine.Sessions

/-!
# Requests and contexts

What a request makes of the contexts before the entry method runs, and what becomes of a request once that
run has ended.

## Main definitions
* `Request.origin`: the context that a request continues.
* `Contexts.Prepared`: contexts of which at most a copy was added, and queued.
* `Run.Within`: runs of methods of a class.

## Main results
* `Request.prepared_of_queue`: a request leaves the contexts as they are, but for a copy.
* `Run.Within.follow`: a run enters only methods of the class.
* `Runner.serve_eq_ok`, `Runner.serve_eq_error`: how a request ends.
* `Runner.decode_eq_ok`: an outcome that names a context was read from a signal.
-/

namespace Suspension

variable {σ : Type}

/-! ## Copies that are queued -/

namespace Contexts

variable {cs cs' : Contexts} {id copy : ContextId} {origin : Option ContextId}

/-- What is left of contexts of which at most one was copied: the copy is the only new one, and it is queued. -/
structure Prepared (origin : Option ContextId) (cs cs' : Contexts) : Prop where
  kept : ∀ id, id.index < cs.table.nextId → cs'.get? id = cs.get? id
  beyond : Beyond cs.table.nextId cs'
  descend : Descend cs.table.nextId origin cs'
  queued : origin = none ∨ (cs'.pending.filter cs'.contains).isSome = true

/-- A context that is live has an id that was given away. -/
theorem index_lt_of_get? {c : Context} (live : cs.get? id = some c) : id.index < cs.table.nextId := by
  refine Nat.lt_of_not_le fun high => ?_
  rw [get?, Arena.get?_eq_none_of_le _ high] at live
  cases live

theorem get?_of_get {c : Context} (h : cs.get id = .ok c) : cs.get? id = some c := by
  unfold get at h
  split at h
  · next found =>
    cases h
    exact found
  · cases h

theorem prepared_reset (cs : Contexts) : Prepared none cs cs.reset := by
  refine ⟨fun _ _ => rfl, ⟨Nat.le_refl _, nofun⟩, fun id c high live => ?_, .inl rfl⟩
  have known : cs.get? id = some c := live
  exact absurd (index_lt_of_get? known) (Nat.not_lt.2 high)

theorem prepared_of_queues {c : Context} (queues : Queues copy c cs cs') (parent : c.parent = origin)
    (first : copy.index = cs.table.nextId) (grown : cs.table.nextId ≤ cs'.table.nextId) :
    Prepared origin cs cs' := by
  have live : cs'.get? copy = some c := (queues.get? copy).trans (if_pos rfl)
  refine ⟨fun id low => ?_, ⟨grown, fun id e => ?_⟩, fun id d high there => ?_, .inr ?_⟩
  · rw [queues.get?, if_neg]
    rintro rfl
    omega
  · rw [queues.pending] at e
    cases e
    exact Nat.le_of_eq first.symm
  · rw [queues.get?] at there
    split at there
    · exact (Option.some.inj there) ▸ parent
    · exact absurd (index_lt_of_get? there) (Nat.not_lt.2 high)
  · have contained : cs'.contains copy = true := contains_of_get? live
    simp [queues.pending, Option.filter_some, contained]

/-- A context that is continued is copied, and the copy is the next one that is added. -/
theorem queues_of_resume (h : cs.resume id = .ok (copy, cs')) :
    ∃ c, cs.get? id = some c ∧ Queues copy { c with parent := some id, registered := false } cs cs' ∧
      copy.index = cs.table.nextId ∧ cs.table.nextId ≤ cs'.table.nextId := by
  obtain ⟨c, found, added⟩ := bind_eq_ok.1 h
  cases added
  exact ⟨c, get?_of_get found, queues_add cs _, rfl, Nat.le_of_lt (by simp)⟩

/-- The answer is given to the copy, which changes nothing else of the table. -/
theorem queues_of_answer {v : Value} (h : cs.answer id v = .ok (copy, cs')) :
    ∃ c, cs.get? id = some c ∧
      Queues copy { c with parent := some id, registered := false, callAnswer := some v } cs cs' ∧
      copy.index = cs.table.nextId ∧ cs.table.nextId ≤ cs'.table.nextId := by
  obtain ⟨⟨copy', cs₁⟩, resumed, rest⟩ := bind_eq_ok.1 h
  obtain ⟨cs₂, modified, rest⟩ := bind_eq_ok.1 rest
  obtain ⟨rfl, rfl⟩ : copy' = copy ∧ cs₂ = cs' := by
    cases rest
    exact ⟨rfl, rfl⟩
  obtain ⟨c, live, -, first, grown⟩ := queues_of_resume resumed
  obtain ⟨d, -, rfl⟩ := modify_eq_ok modified
  obtain ⟨copy, cs', answered, queues⟩ := answer_queues live v
  obtain ⟨rfl, rfl⟩ : copy' = copy ∧ cs₁.set copy' { d with callAnswer := some v } = cs' := by
    rw [h] at answered
    cases answered
    exact ⟨rfl, rfl⟩
  have same : (cs₁.set copy' { d with callAnswer := some v }).table.nextId = cs₁.table.nextId :=
    Arena.nextId_set ..
  exact ⟨c, live, queues, first, by omega⟩

end Contexts

namespace Request

/-- The context that a request continues. -/
def origin : Request → Option ContextId
  | .start _ => none
  | .resume c | .answer c _ => some c

/-- The answer that a request hands to its run: a new one, or the one that the context still holds. -/
def handed (w : World σ) : Request → Option Value
  | .start _ => none
  | .resume id => (w.contexts.get? id).bind (·.callAnswer)
  | .answer _ v => some v

variable {request : Request} {w w' : World σ} {params : List Value}

/-- A request that is not refused queues a copy at most, and nothing else changes.  A start clears the queue;
the other two put a copy of a live context there. -/
theorem queues_of_queue (h : request.queue w = .ok params w') :
    w'.heap = w.heap ∧ (request.origin = none ∧ request.handed w = none ∧ w'.contexts = w.contexts.reset ∨
      ∃ copy c, Contexts.Queues copy c w.contexts w'.contexts ∧ c.parent = request.origin ∧
        c.callAnswer = request.handed w ∧ copy.index = w.contexts.table.nextId ∧
        w.contexts.table.nextId ≤ w'.contexts.table.nextId) := by
  cases request with
  | start params' =>
    cases h
    exact ⟨rfl, .inl ⟨rfl, rfl, rfl⟩⟩
  | resume id =>
    cases changed : w.contexts.resume id with
    | error e => simp [queue, World.resume, World.changeContexts, changed] at h
    | ok a =>
      simp [queue, World.resume, World.changeContexts, changed, World.report] at h
      obtain ⟨-, rfl⟩ := h
      obtain ⟨c, live, queues, first, grown⟩ := Contexts.queues_of_resume changed
      exact ⟨rfl, .inr ⟨_, _, queues, rfl, by simp [handed, live], first, grown⟩⟩
  | answer id v =>
    cases changed : w.contexts.answer id v with
    | error e => simp [queue, World.answer, World.changeContexts, changed] at h
    | ok a =>
      simp [queue, World.answer, World.changeContexts, changed, World.report] at h
      obtain ⟨-, rfl⟩ := h
      obtain ⟨c, -, queues, first, grown⟩ := Contexts.queues_of_answer changed
      exact ⟨rfl, .inr ⟨_, _, queues, rfl, rfl, first, grown⟩⟩

/-- A request that is not refused prepares the contexts and nothing else. -/
theorem prepared_of_queue (h : request.queue w = .ok params w') :
    w'.heap = w.heap ∧ Contexts.Prepared request.origin w.contexts w'.contexts := by
  obtain ⟨heap, ⟨origin, -, contexts⟩ | ⟨copy, c, queues, parent, -, first, grown⟩⟩ := queues_of_queue h
  · exact ⟨heap, by rw [origin, contexts]; exact w.contexts.prepared_reset⟩
  · exact ⟨heap, Contexts.prepared_of_queues queues parent first grown⟩

/-- A request that is refused changes nothing. -/
theorem world_of_refused {e : ExecError} (h : request.queue w = .error e w') : w' = w := by
  cases request with
  | start params' => cases h
  | resume c =>
    cases changed : w.contexts.resume c with
    | error e =>
      simp [queue, World.resume, World.changeContexts, changed] at h
      exact h.2.symm
    | ok a => simp [queue, World.resume, World.changeContexts, changed, World.report] at h
  | answer c v =>
    cases changed : w.contexts.answer c v with
    | error e =>
      simp [queue, World.answer, World.changeContexts, changed] at h
      exact h.2.symm
    | ok a => simp [queue, World.answer, World.changeContexts, changed, World.report] at h

end Request

/-! ## The methods of a run -/

namespace Run

variable {cls : Class} {host : Host σ} {r r' : Run σ} {w : World σ} {f : Frame} {cs : List Caller}

/-- The methods of the frames, of which each was called by the next one. -/
def methods (r : Run σ) : List Method := r.frame.method :: r.callers.map (·.frame.method)

/-- The frames that are left by an exception are gone. -/
theorem methods_unwind {exc : ObjectId} (h : unwind host w exc f cs = .running r') :
    r'.methods <:+ (⟨f, cs, w⟩ : Run σ).methods := by
  induction cs generalizing f with
  | nil =>
    rw [unwind_eq] at h
    split at h
    · cases h
    · cases h
      exact List.suffix_refl _
    · cases h
  | cons c cs ih =>
    rw [unwind_eq] at h
    split at h
    · cases h
    · cases h
      exact List.suffix_refl _
    · exact (ih h).trans (List.suffix_cons ..)

/-- A step leaves some of the frames, or calls a method of the class.  Every flow keeps the method of the frame;
a return and a raise may drop frames, a call adds one. -/
theorem methods_act (leaves : host.LeavesHandles) (act : r.act cls host = .running r') :
    r'.methods <:+ r.methods ∨ ∃ callee ∈ cls.methods, r'.methods = callee :: r.methods := by
  obtain ⟨i, flow, t, -, step, go⟩ := act_eq_running act
  have keeps : Does _ (i.MayLead cls) (i.step cls host) := i.keepsHandles_step leaves
  obtain ⟨⟨⟨method, -⟩, -⟩, leads⟩ := keeps.ok step
  have same : (⟨t.frame, r.callers, t.world⟩ : Run σ).methods = r.methods := by
    rw [methods, methods, method]
    rfl
  cases flow with
  | next | goTo =>
    cases go
    exact .inl (same ▸ List.suffix_refl _)
  | jump l =>
    unfold Run.go at go
    simp only at go
    split at go
    · cases go
      exact .inl (same ▸ List.suffix_refl _)
    · cases go
  | leave v =>
    unfold Run.go leave at go
    simp only at go
    split at go
    · cases go
    · next c cs callers =>
      cases go
      have back : (c.frame.receive c.result v).method = c.frame.method := by cases c.result <;> rfl
      refine .inl ?_
      rw [methods, methods, callers, List.map_cons, back]
      exact List.suffix_cons ..
  | raise exc => exact .inl (same ▸ methods_unwind go)
  | enter callee args result =>
    obtain ⟨_, _, _, _, _, _, found, -⟩ := leads
    unfold Run.go at go
    simp only at go
    split at go
    · next frame enters =>
      cases go
      obtain ⟨-, layout⟩ := Frame.enter_eq_ok enters
      have entered : frame.method = callee := layout ▸ (Frame.layOut_eq ..).1
      exact .inr ⟨callee, (Class.callee?_eq_some found).1, by rw [← same, ← entered]; rfl⟩
    · cases go

/-- All frames are of methods of the class. -/
def Within (cls : Class) (r : Run σ) : Prop :=
  r.frame.method ∈ cls.methods ∧ ∀ c ∈ r.callers, c.frame.method ∈ cls.methods

theorem within_iff : r.Within cls ↔ ∀ m ∈ r.methods, m ∈ cls.methods := by
  simp [Within, methods]

/-- Only methods of the class are entered. -/
theorem Within.act (leaves : host.LeavesHandles) (h : r.Within cls) (act : r.act cls host = .running r') :
    r'.Within cls := by
  rw [within_iff] at h ⊢
  rcases methods_act leaves act with left | ⟨callee, member, called⟩
  · exact fun m hm => h m (left.subset hm)
  · rw [called]
    exact List.forall_mem_cons.2 ⟨member, h⟩

theorem Within.follow (leaves : host.LeavesHandles) (h : r.Within cls) : r.Throughout cls host (Within cls) :=
  throughout_of_act (fun _ _ h => h) (fun _ _ h act => h.act leaves act) h

end Run

/-! ## How a request ends -/

namespace World

variable {cls : Class} {host : Host σ} {patience : Nat} {method : Method} {args : List Value} {w w' : World σ}

theorem execute_eq_ok {c : Completion} (h : execute cls host patience method args w = .ok c w') :
    ∃ frame n, Frame.enter method args = .ok frame ∧
      ({ frame, world := w } : Run σ).follow cls host n = .completed c w' := by
  unfold execute at h
  split at h
  · cases h
  · next frame enters =>
    split at h
    · next done =>
      cases h
      exact ⟨frame, _, enters, done⟩
    · cases h
    · cases h

theorem execute_eq_error {e : ExecError} (h : execute cls host patience method args w = .error e w') :
    w' = w ∨ ∃ frame n, Frame.enter method args = .ok frame ∧
      w' = (({ frame, world := w } : Run σ).follow cls host n).world := by
  unfold execute at h
  split at h
  · cases h
    exact .inl rfl
  · next frame enters =>
    refine .inr ⟨frame, w.fuel.getD patience + 1, enters, ?_⟩
    split at h
    · cases h
    · next failed =>
      cases h
      rw [failed]
      rfl
    · next running =>
      cases h
      rw [running]
      rfl

end World

namespace Runner

variable {r : Runner} {host : Host σ} {request : Request} {w w' : World σ}

/-- What a completed run of the entry method amounts to. -/
def read (w : World σ) : Completion → Except ExecError Outcome
  | .returned v => .ok (.completed v)
  | .threw exc => decode w exc

/-- The entry method is run, its end is read as an outcome, and that is announced. -/
theorem run_apply (params : List Value) (w : World σ) :
    r.run host params w =
      match r.entry with
      | .error e => .error e w
      | .ok method =>
        match World.execute r.cls host r.patience method (r.arguments method params) w with
        | .error e w' => .error e w'
        | .ok c w' =>
          match read w' c with
          | .error e => .error e w'
          | .ok o => .ok o { w' with events := w'.events ++ [r.finished o] } := by
  cases entry : r.entry with
  | error e => simp [run, entry]
  | ok method =>
    cases executed : World.execute r.cls host r.patience method (r.arguments method params) w with
    | error e w' =>
      unfold arguments at executed
      simp [run, arguments, entry, executed]
    | ok c w' =>
      unfold arguments at executed
      cases c with
      | returned v => simp [run, arguments, entry, executed, read, World.report]
      | threw exc => cases decoded : decode w' exc <;>
        simp [run, arguments, entry, executed, read, decoded, World.report]

/-- A request that is served has run the entry method to its end, which was read as an outcome. -/
theorem serve_eq_ok {o : Outcome} (h : r.serve host request w = .ok o w') :
    ∃ x n c w₁, r.Opens w request x ∧ x.follow r.cls host n = .completed c w₁ ∧
      w'.contexts = w₁.contexts ∧ w'.heap = w₁.heap ∧ read w₁ c = .ok o := by
  rw [serve_eq] at h
  obtain ⟨params, w₀, queued, h⟩ := bind_apply_eq_ok h
  rw [run_apply] at h
  split at h
  · cases h
  · next method entry =>
    split at h
    · cases h
    · next c w₁ executed =>
      obtain ⟨frame, n, enters, done⟩ := World.execute_eq_ok executed
      split at h
      · cases h
      · next outcome =>
        cases h
        exact ⟨_, n, c, w₁, ⟨params, w₀, method, frame, queued, entry, enters, rfl⟩, done, rfl, rfl, outcome⟩

/-- A request that failed was refused, or ended with the entry method. -/
theorem serve_eq_error {e : ExecError} (h : r.serve host request w = .error e w') :
    w'.contexts = w.contexts ∨ ∃ params w₀, request.queue w = .ok params w₀ ∧
      (w'.contexts = w₀.contexts ∨ ∃ x n, r.Opens w request x ∧
        w'.contexts = (x.follow r.cls host n).world.contexts) := by
  rw [serve_eq, bind_apply] at h
  cases queued : request.queue w with
  | error e w₀ =>
    simp only [queued] at h
    cases h
    exact .inl (congrArg World.contexts (Request.world_of_refused queued))
  | ok params w₀ =>
    simp only [queued, run_apply] at h
    refine .inr ⟨params, w₀, rfl, ?_⟩
    split at h
    · cases h
      exact .inl rfl
    · next method entry =>
      have opens {frame : Frame} (enters : Frame.enter method (r.arguments method params) = .ok frame) :
          r.Opens w request { frame, world := w₀ } :=
        ⟨params, w₀, method, frame, queued, entry, enters, rfl⟩
      split at h
      · next executed =>
        cases h
        rcases World.execute_eq_error executed with rfl | ⟨frame, n, enters, rfl⟩
        · exact .inl rfl
        · exact .inr ⟨_, n, opens enters, rfl⟩
      · next executed =>
        obtain ⟨frame, n, enters, done⟩ := World.execute_eq_ok executed
        split at h
        · cases h
          exact .inr ⟨_, n, opens enters, by rw [done]; rfl⟩
        · cases h

/-- What is seen of a request that is not refused is seen of its run. -/
theorem look_eq {x : Run σ} (opens : r.Opens w request x) (n : Nat) :
    r.look host w request n =
      match x.follow r.cls host n with
      | .running y => some y
      | _ => none := by
  obtain ⟨params, w₀, method, frame, queued, entry, enters, rfl⟩ := opens
  cases followed : Run.follow r.cls host n { frame, world := w₀ } <;>
    simp [look, queued, entry, enters, followed, Except.toOption]

/-- A request that comes to an end goes through finitely many states. -/
theorem forall_visits {P : Run σ → Prop} (bound : Nat) (ended : r.look host w request bound = none)
    (each : ∀ n < bound, ∀ x, r.look host w request n = some x → P x) :
    ∀ x, r.Visits host w request x → P x := by
  rintro y ⟨x, n, opens, reached⟩
  rcases Nat.lt_or_ge n bound with early | late
  · exact each n early y (by rw [look_eq opens, reached])
  · rw [look_eq opens] at ended
    rw [← Nat.add_sub_cancel' late, Run.follow_add] at reached
    split at reached
    · next running => simp [running] at ended
    · next done => exact absurd reached (done _)

/-- What holds when a request begins, and is kept by every step, holds of all states that it goes through. -/
theorem Visits.induct {P : Run σ → Prop} (first : ∀ x, r.Opens w request x → P x)
    (step : ∀ x y, r.Visits host w request x → P x → x.advance r.cls host = .running y → P y) :
    ∀ x, r.Visits host w request x → P x := by
  rintro x ⟨x₀, n, opens, reached⟩
  induction n generalizing x with
  | zero =>
    cases reached
    exact first x₀ opens
  | succ n ih =>
    obtain ⟨y, before, advanced⟩ := Run.exists_before reached
    exact step y x ⟨x₀, n, opens, before⟩ (ih y before) advanced

/-! ## What an exception is read as -/

theorem signalContext_eq_ok {h : Heap} {exc : ObjectId} {id : ContextId} (named : signalContext h exc = .ok id) :
    ∃ r, h.field? exc Service.contextField = some (.object r) ∧ h.get? r = some (.handle .context id) := by
  unfold signalContext at named
  split at named
  · next r given =>
    obtain ⟨o, found, named⟩ := bind_eq_ok.1 named
    split at named
    · cases named
      refine ⟨r, given, ?_⟩
      unfold Heap.get at found
      split at found
      · next there =>
        cases found
        exact there
      · cases found
    · cases named
  · cases named

/-- An outcome that names a context was read from a signal. -/
theorem decode_eq_ok {exc : ObjectId} {o : Outcome} {id : ContextId} (h : decode w exc = .ok o)
    (names : o.context? = some id) :
    (∃ className kind, w.heap.classOf exc = .ok className ∧ Service.siteOfSignal? className = some kind) ∧
      signalContext w.heap exc = .ok id ∧
      ∀ previous, o = .steppedBack id previous → ∃ c, w.contexts.get? id = some c ∧ previous = c.parent := by
  obtain ⟨className, known, h⟩ := bind_eq_ok.1 h
  split at h
  · cases h
    cases names
  · next kind signal =>
    obtain ⟨context, named, h⟩ := bind_eq_ok.1 h
    refine ⟨⟨className, kind, known, signal⟩, ?_⟩
    cases kind with
    | pause | call | answer =>
      cases h
      cases names
      exact ⟨named, nofun⟩
    | stepBack =>
      obtain ⟨c, live, h⟩ := bind_eq_ok.1 h
      cases h
      cases names
      refine ⟨named, ?_⟩
      rintro previous ⟨⟩
      exact ⟨c, Contexts.get?_of_get live, rfl⟩

end Runner

end Suspension
