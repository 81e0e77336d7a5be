import Suspension.Proofs.Transform.Balanced
import Suspension.Proofs.Weave.Answering
import Suspension.Proofs.Weave.Awaiting

/-!
# Who receives an answer

An answer is given to a context, and the run that is continued from there works on a copy that holds it.  The first
call site at which the flow is continued takes it.  If there is none before the flow is captured again, the answer
stays with the new context, and the runs that are continued from that one are handed it next.  So what every
context owes can be told from the requests and from which of their runs have taken an answer, and a site receives
what the context owes from which its run was continued.

## Main definitions
* `Request.owed`: the answer that a request hands to its run, by what contexts owe.
* `Runner.Receives`: a request of which the run takes the answer.
* `Runner.Ledger`: the worlds between requests, with what contexts owe.

## Main results
* `Runner.owes_after`: what the contexts hold that a request leaves.
* `Runner.Ledger.held`: every context holds what it owes.
* `Runner.continues_of_visits`: what a call site receives.
* `transformClass_answered`: so it is for every class that was made suspendable.
* `answer_outlives_pause`: an answer that is given to a flow that waits for none goes to a later call.
-/

namespace Suspension

open Container

variable {σ : Type}

namespace Request

variable {request : Request} {w w' : World σ} {params : List Value} {owes : ContextId → Option Value}

/-- The answer that a request hands to its run: a new one, or what the context owes. -/
def owed (owes : ContextId → Option Value) : Request → Option Value
  | .start _ => none
  | .resume id => owes id
  | .answer _ v => some v

/-- A request that is not refused hands over what its context owes. -/
theorem handed_eq_owed (h : request.queue w = .ok params w')
    (held : ∀ id c, w.contexts.get? id = some c → c.callAnswer = owes id) : request.handed w = request.owed owes := by
  cases request with
  | start | answer => rfl
  | resume id =>
    cases live : w.contexts.get? id with
    | none => simp [queue, World.resume, World.changeContexts, Contexts.resume, Contexts.get, live] at h
    | some c => rw [handed, live, owed, ← held id c live, Option.bind_some]

/-- The contexts that are added hold what is handed over. -/
theorem owes_of_queue (h : request.queue w = .ok params w') :
    Contexts.Owes w.contexts.table.nextId (request.handed w) w'.contexts := by
  intro id c high live
  obtain ⟨-, ⟨-, -, same⟩ | ⟨copy, c', queues, -, holds, -⟩⟩ := queues_of_queue h
  · have low : id.index < w.contexts.table.nextId := Contexts.index_lt_of_get? (same ▸ live)
    exact absurd low (Nat.not_lt.2 high)
  · rw [queues.get?] at live
    split at live
    · cases live
      exact holds
    · exact absurd (Contexts.index_lt_of_get? live) (Nat.not_lt.2 high)

end Request

namespace Runner

variable (r : Runner) (host : Host σ)

/-- The world that a request leaves, whether it is served or fails. -/
def after (request : Request) (w : World σ) : World σ :=
  match r.serve host request w with
  | .ok _ w' => w'
  | .error _ w' => w'

/-- The run of a request takes the answer, before it ends or is given up. -/
def Receives (w : World σ) (request : Request) : Prop :=
  ∃ x, r.Opens w request x ∧ x.Collected r.cls host (x.world.fuel.getD r.patience + 1)

/-- The worlds between requests, with what contexts owe.  The contexts that a request adds owe what was handed to
its run, unless the run has taken it; the others owe what they owed. -/
inductive Ledger : World σ → (ContextId → Option Value) → Prop
  | begun {w : World σ} (empty : w.heap.handles = []) : Ledger w fun id => (w.contexts.get? id).bind (·.callAnswer)
  | asked {w : World σ} {owes : ContextId → Option Value} {request : Request} {left : Option Value}
      (before : Ledger w owes) (homing : r.Homing host w request) (once : r.EntersOnce host w request)
      (received : r.Receives host w request → left = none)
      (missed : ¬ r.Receives host w request → left = request.owed owes) :
      Ledger (r.after host request w) fun id => if id.index < w.contexts.table.nextId then owes id else left
  | meanwhile {w w' : World σ} {owes : ContextId → Option Value} (before : Ledger w owes)
      (contexts : w'.contexts = w.contexts) (kept : w.heap.KeepsHandles w'.heap) : Ledger w' owes

variable {r} {host} {w w' : World σ} {request : Request} {x x₀ : Run σ} {W : Weaving} {n : Nat}
  {owes : ContextId → Option Value}

/-- What a request leaves is served, or it failed. -/
theorem ended_after (host : Host σ) (request : Request) (w : World σ) :
    (∃ o, r.serve host request w = .ok o (r.after host request w)) ∨
      ∃ e, r.serve host request w = .error e (r.after host request w) := by
  unfold after
  cases served : r.serve host request w with
  | ok o w' => exact .inl ⟨o, rfl⟩
  | error e w' => exact .inr ⟨e, rfl⟩

theorem after_eq {o : Outcome} (served : r.serve host request w = .ok o w') : r.after host request w = w' := by
  rw [after, served]

/-- A request whose run comes to no instruction that takes an answer, before it ends in time, takes none. -/
theorem not_receives (bound : Nat) (ended : r.look host w request bound = none)
    (each : ∀ n < bound, ∀ x, r.look host w request n = some x →
      ∀ i, Run.fetch x.frame = .ok i → i.takesAnswer = false) : ¬ r.Receives host w request := by
  rintro ⟨x₀, opens, k, -, x, reached, ⟨i, fetched, takes⟩, -⟩
  have none := forall_visits bound ended each x ⟨x₀, k, opens, reached⟩ i fetched
  cases none.symm.trans takes

/-- The contexts that a request leaves are those from which it went to begin a run, or those in which its run ended
or was given up. -/
theorem contexts_after (host : Host σ) (request : Request) (w : World σ) :
    (∀ x, ¬ r.Opens w request x) ∧ ((r.after host request w).contexts = w.contexts ∨
        ∃ params w₀, request.queue w = .ok params w₀ ∧ (r.after host request w).contexts = w₀.contexts) ∨
      ∃ x, r.Opens w request x ∧ (r.after host request w).contexts =
        (x.follow r.cls host (x.world.fuel.getD r.patience + 1)).world.contexts := by
  have whole : r.serve host request w = _ := congrFun (r.serve_eq host request) w
  rw [bind_apply] at whole
  unfold after
  rw [whole]
  cases queued : request.queue w with
  | error e w₀ =>
    refine .inl ⟨fun x ⟨params, w', method, frame, queued', _⟩ => ?_,
      .inl (congrArg World.contexts (Request.world_of_refused queued))⟩
    cases queued.symm.trans queued'
  | ok params w₀ =>
    simp only [run_apply]
    cases entry : r.entry with
    | error e =>
      refine .inl ⟨fun x ⟨params', w', method, frame, _, entry', _⟩ => ?_, .inr ⟨params, w₀, rfl, rfl⟩⟩
      cases entry.symm.trans entry'
    | ok method =>
      simp only [World.execute]
      cases enters : Frame.enter method (r.arguments method params) with
      | error e =>
        refine .inl ⟨fun x ⟨params', w', method', frame, queued', entry', enters', _⟩ => ?_,
          .inr ⟨params, w₀, rfl, rfl⟩⟩
        cases queued.symm.trans queued'
        cases entry.symm.trans entry'
        cases enters.symm.trans enters'
      | ok frame =>
        refine .inr ⟨⟨frame, [], w₀⟩, ⟨params, w₀, method, frame, queued, entry, enters, rfl⟩, ?_⟩
        simp only
        cases ended : Run.follow r.cls host (w₀.fuel.getD r.patience + 1) ⟨frame, [], w₀⟩ with
        | running y => rfl
        | failed e w₁ => rfl
        | completed c w₁ =>
          simp only
          cases read w₁ c <;> rfl

section

variable (careful : r.Careful) (leaves : host.LeavesHandles) (intact : w.heap.HandlesIntact)
  (homing : r.Homing host w request) (once : r.EntersOnce host w request)
include careful leaves intact homing once

/-! ## What contexts hold -/

/-- What contexts hold during the run of a request: what was handed over, until the run has taken it, and
nothing from then on.  One context is handed out during the run: the copy that was queued, or a new one if
nothing was handed over.  The methods that are called take no answers, so the entry method alone is watched. -/
theorem owes_of_follow (opens : r.Opens w request x) (k : Nat) :
    (x.Collected r.cls host k →
        Contexts.Owes w.contexts.table.nextId none (x.follow r.cls host k).world.contexts) ∧
      (¬ x.Collected r.cls host k →
        Contexts.Owes w.contexts.table.nextId (request.handed w) (x.follow r.cls host k).world.contexts) := by
  let new := x.world.contexts.createOrReset.1
  let ready (cs : Contexts) : Prop := cs.createOrReset.1 = new ∧
    (request.handed w = none ∨ (cs.pending.filter cs.contains).isSome = true)
  obtain ⟨params, w₀, method, frame, queued, entry, enters, rfl⟩ := id opens
  have first : request.handed w = none ∨ (w₀.contexts.pending.filter w₀.contexts.contains).isSome = true := by
    obtain ⟨-, ⟨-, nothing, -⟩ | ⟨copy, c, queues, -⟩⟩ := Request.queues_of_queue queued
    · exact .inl nothing
    · have there : w₀.contexts.get? copy = some c := (queues.get? copy).trans (if_pos rfl)
      exact .inr (by simp [queues.pending, Option.filter_some, Contexts.contains_of_get? there])
  obtain ⟨tidy, -⟩ := tidy_of_opens ready careful intact opens ⟨rfl, first⟩
  have fair := fair_of_opens ready careful leaves homing opens fun y visits called member =>
    .inl (careful.others _ member (once y visits called))
  have added : (Contexts.adding new).rel w.contexts w₀.contexts := Contexts.adds_of_queue queued
  have alone (k : Nat) (id : ContextId) (high : w.contexts.table.nextId ≤ id.index)
      (live : ((Run.follow r.cls host k ⟨frame, [], w₀⟩).world.contexts.get? id).isSome = true) : id = new := by
    have adds := (tidy.follow leaves careful.each (C := Contexts.adding new)
      (fun _ _ effect => effect.adds And.left) fair k).1
    refine ((Contexts.adding new).trans added adds live).resolve_right fun before => ?_
    obtain ⟨c, there⟩ := Option.isSome_iff_exists.1 before
    exact Nat.not_lt.2 high (Contexts.index_lt_of_get? there)
  exact tidy.owes_follow leaves careful.each (fun _ ready => ready.2) fair alone (Request.owes_of_queue queued) k

/-- The contexts that a request adds hold what was handed over, unless the run has taken it. -/
theorem owes_after :
    (r.Receives host w request → Contexts.Owes w.contexts.table.nextId none (r.after host request w).contexts) ∧
      (¬ r.Receives host w request →
        Contexts.Owes w.contexts.table.nextId (request.handed w) (r.after host request w).contexts) := by
  rcases contexts_after (r := r) host request w with ⟨none, same⟩ | ⟨x, opens, same⟩
  · refine ⟨fun ⟨x, opens, _⟩ => absurd opens (none x), fun _ => ?_⟩
    rcases same with same | ⟨params, w₀, queued, same⟩
    · intro id c high live
      rw [same] at live
      exact absurd (Contexts.index_lt_of_get? live) (Nat.not_lt.2 high)
    · exact same ▸ Request.owes_of_queue queued
  · obtain ⟨taken, kept⟩ := owes_of_follow careful leaves intact homing once opens (x.world.fuel.getD r.patience + 1)
    rw [same]
    refine ⟨fun ⟨y, opens', collected⟩ => ?_, fun missed => kept fun collected => missed ⟨x, opens, collected⟩⟩
    obtain rfl := opens_unique opens opens'
    exact taken collected

/-! ## What a site receives -/

/-- A run that comes to fetch an answer has taken none before, and its site goes on with what was handed over.
As none has been taken, the answer is still held by the contexts of this run, and the frame that tends the code
of its site has its own context in its slot. -/
theorem continues_of_visits (entry : r.entry = .ok W.result) {i : Nat} {t : Tag}
    (s : W.Suspends i) (answer : s.code.answer = some t) (opens : r.Opens w request x₀)
    (reached : x₀.follow r.cls host n = .running x) (own : x.frame.method = W.result)
    (place : x.frame.pc + (W.plan.fetching s.code.answer).length = W.placeOf (i + 1))
    (fits : ((request.handed w).getD .null).Fits host x.world t) :
    ¬ x₀.Collected r.cls host n ∧
      (x.follow r.cls host (W.plan.fetching s.code.answer).length).Continues (W.placeOf (i + 1))
        ((request.handed w).getD .null :: x.frame.stack) ∧
      (W.MayFetch (W.plan.fetching s.code.answer).length x.frame x.world →
        ∃ z, x.follow r.cls host (W.plan.fetching s.code.answer).length = .running z) := by
  have visits : r.Visits host w request x := ⟨x₀, n, opens, reached⟩
  have alone := callers_of_entry once entry visits own
  have fair := fair_of_opens (fun _ => True) careful leaves homing opens fun _ _ _ _ => .inr trivial
  have begun : x₀.ground.method = W.result := by
    obtain ⟨params, w₀, method, frame, -, entry', enters, rfl⟩ := id opens
    obtain rfl : W.result = method := Except.ok.inj (entry.symm.trans entry')
    obtain ⟨-, layout⟩ := Frame.enter_eq_ok enters
    exact layout ▸ (Frame.layOut_eq ..).1
  obtain ⟨frame, callers, world⟩ := x
  obtain rfl : callers = [] := alone
  have untaken : ¬ x₀.Collected r.cls host n := by
    rintro ⟨k, hk, y, at_k, ⟨i, fetched, takes⟩, -⟩
    obtain ⟨-, quiet⟩ := Run.awaits_of_follow leaves (fun k y at_k => (fair k y at_k).homing) begun reached
      (s.awaits_fetching answer place)
    by_cases called : y.callers = []
    · cases (quiet k hk y at_k called i fetched).symm.trans takes
    · have member := ((within_of_opens opens).follow leaves k y at_k).1
      have plain := careful.others _ member (once y ⟨x₀, k, opens, at_k⟩ called)
      have inert := Instr.not_callsService_of_inert (plain i (Run.mem_of_fetch fetched))
      cases inert.symm.trans (Instr.callsService_of_takesAnswer takes)
  have owes := (owes_of_follow careful leaves intact homing once opens n).2 untaken
  rw [reached] at owes
  have tidy := tidy_of_visits careful leaves intact homing visits
  obtain ⟨owner, ids, tends, apart, -⟩ := tidy.frames
  cases tends with
  | plain plain => exact absurd (own ▸ plain) W.not_plain
  | @woven W' S owner method unaware' care holds =>
    obtain ⟨kept, home⟩ := s.care_fetching answer unaware' (own.symm.trans method) place
    cases care.symm.trans kept
    cases holds with
    | @kept id houses =>
      rw [← home] at houses
      have owned := (apart id rfl).1
      have held (c : Context) (live : world.contexts.get? id = some c) : c.callAnswer = request.handed w :=
        owes id c owned.high live
      exact ⟨untaken, Weaving.follow_fetching s answer own place houses held fits,
        fun may => Weaving.follow_fetching_of_mayFetch s answer own place may houses owned.live tidy.intact held fits⟩

end

/-! ## The ledger -/

namespace Ledger

theorem session (h : r.Ledger host w owes) : r.Session host w := by
  induction h with
  | begun empty => exact .begun empty
  | @asked w owes request left before homing once received missed ih =>
    rcases ended_after (r := r) host request w with ⟨o, served⟩ | ⟨e, failed⟩
    · exact .served ih served
    · exact .failed ih failed
  | meanwhile _ contexts kept ih => exact .meanwhile ih kept

/-- Every context holds what it owes.  A run that receives its answer leaves new contexts without one, and any
other run leaves what was handed over. -/
theorem held (careful : r.Careful) (leaves : host.LeavesHandles) (h : r.Ledger host w owes) :
    ∀ id c, w.contexts.get? id = some c → c.callAnswer = owes id := by
  induction h with
  | @begun w empty =>
    intro id c live
    show c.callAnswer = (w.contexts.get? id).bind (·.callAnswer)
    rw [live, Option.bind_some]
  | @asked w owes request left before homing once received missed ih =>
    intro id c live
    have intact := before.session.intact leaves
    show c.callAnswer = if id.index < w.contexts.table.nextId then owes id else left
    rcases Nat.lt_or_ge id.index w.contexts.table.nextId with low | high
    · rw [if_pos low]
      have old := kept_of_serve careful leaves intact homing (ended_after host request w) low
      exact ih id c (old ▸ live)
    · rw [if_neg (Nat.not_lt.2 high)]
      obtain ⟨taken, kept⟩ := owes_after careful leaves intact homing once
      by_cases receives : r.Receives host w request
      · exact (taken receives id c high live).trans (received receives).symm
      · rw [missed receives]
        refine (kept receives id c high live).trans ?_
        rcases contexts_after (r := r) host request w with ⟨-, same | ⟨params, w₀, queued, -⟩⟩ | ⟨x, opens, -⟩
        · rw [same] at live
          exact absurd (Contexts.index_lt_of_get? live) (Nat.not_lt.2 high)
        · exact Request.handed_eq_owed queued ih
        · obtain ⟨params, w₀, -, -, queued, -⟩ := opens
          exact Request.handed_eq_owed queued ih
  | meanwhile _ contexts kept ih => exact contexts ▸ ih

end Ledger

end Runner

/-! ## Suspendable classes -/

/-- Who receives an answer in a suspendable class.  Every live context holds what it owes: the answer that was handed
to the run that captured it, or nothing if that run has taken it, or if none was handed over.  A run that comes to
fetch an answer at a call site has taken none before.  The site goes on with what the request has handed over on top
of the stack, as long as that passes the cast to the type of the answer: what was given with the request, or what
the context owes that is continued; and null if it owes nothing. -/
theorem transformClass_answered {bytes : List UInt8} {className : String} {config : Config} {t : Transformed}
    (h : (transformClass bytes className config).result = .ok t) :
    ∃ c c', decodeClass bytes = .ok c ∧
      (t = .unchanged ∧ c' = c ∨ t = .changed (encodeClass c') ∧ ∃ methods, c' = { c with methods } ∧
        List.Forall₂ (Method.Becomes c.name config) c.methods methods) ∧
      ((∀ m ∈ c.methods, m.Plain) → ∀ m ∈ c.methods, ∀ m', (m.transform c.name config).result = .ok (some m') →
        ∃ W : Weaving, W.className = c.name ∧ W.method = m ∧ W.config = config ∧ W.result = m' ∧
          ∀ {σ : Type} (r : Runner) (host : Host σ) (w : World σ) (owes : ContextId → Option Value), r.cls = c' →
            r.entryName = config.entryName → r.entryDescriptor = config.entryDescriptor → r.entry = .ok m' →
            host.LeavesHandles → r.Ledger host w owes →
            (∀ id context, w.contexts.get? id = some context → context.callAnswer = owes id) ∧
            ∀ request, r.Homing host w request → r.EntersOnce host w request →
              ∀ i u (s : W.Suspends i), s.code.answer = some u →
                ∀ x₀ n x, r.Opens w request x₀ → x₀.follow r.cls host n = .running x → x.frame.method = m' →
                  x.frame.pc + (W.plan.fetching s.code.answer).length = W.placeOf (i + 1) →
                  ((request.owed owes).getD .null).Fits host x.world u →
                  ¬ x₀.Collected r.cls host n ∧
                  (x.follow r.cls host (W.plan.fetching s.code.answer).length).Continues (W.placeOf (i + 1))
                    ((request.owed owes).getD .null :: x.frame.stack) ∧
                  (W.MayFetch (W.plan.fetching s.code.answer).length x.frame x.world →
                    ∃ z, x.follow r.cls host (W.plan.fetching s.code.answer).length = .running z)) := by
  obtain ⟨c, c', decoded, name, became, careful⟩ := careful_of_transformClass h
  refine ⟨c, c', decoded, became, fun plain m _ m' transformed => ?_⟩
  obtain ⟨W, named, rfl, configured, rfl⟩ := Weaving.exists_of_transform transformed
  refine ⟨W, named, rfl, configured, rfl, ?_⟩
  intro σ r host w owes same entryName entryDescriptor entry leaves ledger
  have careful := careful plain r same entryName entryDescriptor
  have intact := ledger.session.intact leaves
  have held := ledger.held careful leaves
  refine ⟨held, fun request homing once i u s answer x₀ n x opens reached own place fits => ?_⟩
  have handed : request.handed w = request.owed owes := by
    obtain ⟨params, w₀, -, -, queued, -⟩ := opens
    exact Request.handed_eq_owed queued held
  rw [← handed] at fits ⊢
  exact Runner.continues_of_visits careful leaves intact homing once entry s answer opens reached own place fits

namespace Answered

/-- Asks for an answer. -/
def ask : Instr :=
  .invoke .static ⟨"resumable/ContinuableSupport", "call", "(Ljava/lang/Object;)Ljava/lang/Object;"⟩

/-- A method that pauses, and then asks for an answer, which it returns. -/
def waiting : Method where
  access := staticFlag
  name := "execute"
  descriptor := "()Ljava/lang/Object;"
  maxLocals := 0
  code.instrs := [.pause, .plain .aconstNull, ask, .plain (.leave (some .reference))]

/-- A class of that method. -/
def waitingClass : Class := ⟨1, "app/C", some objectClass, [], [waiting]⟩

/-- The configuration of its entry method. -/
def config : Config := { entryDescriptor := "()Ljava/lang/Object;" }

theorem waitingClass_encodable : waitingClass.Encodable := by
  have steps : waiting.Encodable :=
    ⟨by decide, by decide, by decide +kernel, by decide, by
      simp [waiting, Instr.pause, ask, Instr.Encodable]
      exact ⟨⟨by decide, by decide, by decide⟩, by decide, by decide, by decide⟩, by decide, by simp [waiting]⟩
  exact encodable_of_methods (by decide) (by simp [steps])

/-- The runner of the suspendable class, and the world that it starts in. -/
def runner (m : Method) : Runner × World Unit :=
  Runner.create { waitingClass with methods := [m] } config 1000 ()

/-- The worlds after the flow paused, and after it was given an object there and went on to ask; and where it is when
it is continued and comes to fetch an answer. -/
def course (m : Method) : Option (World Unit × World Unit × Run Unit) :=
  let (r, w₀) := runner m
  match r.serve (Host.nothing Unit) (.start []) w₀ with
  | .ok (.paused ⟨0⟩) w₁ =>
    match r.serve (Host.nothing Unit) (.answer ⟨0⟩ (.object ⟨0⟩)) w₁ with
    | .ok (.called ⟨1⟩ _) w₂ => (r.look (Host.nothing Unit) w₂ (.resume ⟨1⟩) 9).map (w₁, w₂, ·)
    | _ => none
  | _ => none

theorem course_eq_some {m : Method} {w₁ w₂ : World Unit} {x : Run Unit} (h : course m = some (w₁, w₂, x)) :
    (runner m).1.serve (Host.nothing Unit) (.start []) (runner m).2 = .ok (.paused ⟨0⟩) w₁ ∧
      (∃ v, (runner m).1.serve (Host.nothing Unit) (.answer ⟨0⟩ (.object ⟨0⟩)) w₁ = .ok (.called ⟨1⟩ v) w₂) ∧
      (runner m).1.look (Host.nothing Unit) w₂ (.resume ⟨1⟩) 9 = some x := by
  simp only [course] at h
  split at h
  · next started =>
    split at h
    · next answered =>
      obtain ⟨y, seen, same⟩ := Option.map_eq_some_iff.1 h
      cases same
      exact ⟨started, ⟨_, answered⟩, seen⟩
    · cases h
  · cases h

/-- Whether a request of it is orderly from its beginning to its end, and takes no answer if it is to be quiet. -/
def orderly (m : Method) (quiet : Bool) (w : World Unit) (request : Request) : Bool :=
  ((runner m).1.look (Host.nothing Unit) w request 40).isNone &&
    (List.range 40).all fun n => ((runner m).1.look (Host.nothing Unit) w request n).all fun x =>
      Captured.orderly (runner m).1.cls x && !(quiet && (Run.fetch x.frame).toOption.any (·.takesAnswer))

theorem keeps_of_orderly {m : Method} {quiet : Bool} {w : World Unit} {request : Request}
    (h : orderly m quiet w request = true) :
    (runner m).1.Homing (Host.nothing Unit) w request ∧ (runner m).1.EntersOnce (Host.nothing Unit) w request ∧
      (quiet = true → ¬ (runner m).1.Receives (Host.nothing Unit) w request) := by
  obtain ⟨ended, each⟩ := Bool.and_eq_true_iff.1 h
  obtain ⟨homing, -, once⟩ := Captured.keeps_of_orderly ended <| by
    refine List.all_eq_true.2 fun n hn => ?_
    have here := List.all_eq_true.1 each n hn
    cases seen : (runner m).1.look (Host.nothing Unit) w request n with
    | none => rfl
    | some x =>
      rw [seen] at here
      exact (Bool.and_eq_true_iff.1 here).1
  refine ⟨homing, once, fun asked => Runner.not_receives 40 (Option.isNone_iff_eq_none.1 ended) ?_⟩
  intro n hn x seen i fetched
  have here := List.all_eq_true.1 each n (List.mem_range.2 hn)
  simp only [seen, asked, Option.all_some, fetched, Except.toOption, Option.any_some, Bool.true_and,
    Bool.and_eq_true, Bool.not_eq_true'] at here
  exact here.2

/-- What it asks for may be any object. -/
theorem asks : config.site? "app/C" ask = some (.static, .call, ⟨"resumable/ContinuableSupport", "call",
      "(Ljava/lang/Object;)Ljava/lang/Object;"⟩) ∧
    config.callSignature = .ok { params := [.object], result := some .object } := by
  decide +kernel

/-- Whether the method fetches an answer at instruction 32, and finds a handle to do so. -/
def fetching (m : Method) (x : Run Unit) : Bool :=
  m.code.instrs[32]? = some (.load .reference 0) && m.code.instrs[38]? = some (.plain (.leave (some .reference))) &&
    x.frame.method = m && x.frame.pc = 32 && x.frame.stack = [] && x.world.fuel.isNone &&
    x.frame.locals[(0 : Slot)]? = some (.object ⟨5⟩) && x.world.heap.get? ⟨5⟩ = some (.handle .context ⟨2⟩)

/-- The method waits for an answer there, of any class, and may fetch it. -/
theorem mayFetch_of_fetching {m : Method} {x : Run Unit} (h : fetching m x = true) {W : Weaving}
    (named : W.className = "app/C") (method : W.method = waiting) (configured : W.config = config)
    (result : W.result = m) :
    ∃ s : W.Suspends 2, s.code.answer = some .object ∧ (W.plan.fetching s.code.answer).length = 2 ∧
      x.frame.method = m ∧ x.frame.pc + (W.plan.fetching s.code.answer).length = W.placeOf (2 + 1) ∧
      x.frame.stack = [] ∧ W.MayFetch (W.plan.fetching s.code.answer).length x.frame x.world := by
  simp only [fetching, Bool.and_eq_true, decide_eq_true_eq, Option.isNone_iff_eq_none] at h
  obtain ⟨⟨⟨⟨⟨⟨⟨loads, returns⟩, own⟩, pc⟩, stack⟩, fuel⟩, slot⟩, known⟩ := h
  subst result
  have instrs : W.instrs = waiting.code.instrs := congrArg (·.code.instrs) method
  obtain ⟨j, hj, place⟩ := W.exists_return returns
  obtain rfl : j = 3 := by
    rw [instrs] at hj
    match j, hj with
    | 3, _ => rfl
  have calls : W.instrs[2]? = some ask := congrArg (·[2]?) instrs
  obtain ⟨s⟩ := Weaving.exists_suspends calls (by rw [named, configured]; decide +kernel)
  have answer : s.code.answer = some .object := by
    have site := s.site
    rw [named, configured, Option.some.inj (s.here.symm.trans calls)] at site
    have sort : s.sort = .call := congrArg (·.2.1) (Option.some.inj (site.symm.trans asks.1))
    have answers := s.code.answer_eq
    rw [if_pos sort, Plan.answerType, W.made.config_eq, configured, asks.2] at answers
    exact (Except.ok.inj answers).symm
  have length : (W.plan.fetching s.code.answer).length = 2 := by rw [answer]; rfl
  have place : x.frame.pc + (W.plan.fetching s.code.answer).length = W.placeOf (2 + 1) := by
    show _ = W.placeOf 3
    omega
  have home : W.plan.home = 0 := by
    have stands := s.stands_fetching place
    rw [answer] at stands
    have load : W.stream[x.frame.pc]? = some W.plan.loadContext := stands.head
    rw [pc] at load
    have same : Instr.load .reference 0 = .load .reference W.plan.home := Option.some.inj (loads.symm.trans load)
    injection same with _ slot
    exact slot.symm
  refine ⟨s, answer, length, own, place, stack, ?_, ⟨⟨5⟩, ⟨2⟩, home ▸ slot, known⟩⟩
  intro granted spent
  cases fuel.symm.trans spent

end Answered

/-- A flow that is given an object where it waits for none, and then goes on to ask for something: the context that
it is captured in owes the object, and continued without an answer it goes on with it. -/
theorem waitingClass_answered :
    ∃ m w₁ w₂ x, (Answered.waiting.transform "app/C" Answered.config).result = .ok (some m) ∧
      Answered.course m = some (w₁, w₂, x) ∧
      (∃ context, w₂.contexts.get? ⟨1⟩ = some context ∧ context.callAnswer = some (.object ⟨0⟩)) ∧
      ∃ z, x.follow (Answered.runner m).1.cls (Host.nothing Unit) 2 = .running z ∧ z.frame.stack = [.object ⟨0⟩] := by
  have runs : (Answered.waiting.transform "app/C" Answered.config).result.toOption.join.any
      (fun m => (Answered.course m).any fun (w₁, w₂, x) =>
        (Answered.runner m).1.entry.toOption = some m &&
          Answered.orderly m true (Answered.runner m).2 (.start []) &&
          Answered.orderly m true w₁ (.answer ⟨0⟩ (.object ⟨0⟩)) && Answered.orderly m false w₂ (.resume ⟨1⟩) &&
          w₁.contexts.table.nextId = 1 && (w₂.contexts.get? ⟨1⟩).isSome && Answered.fetching m x) = true := by
    decide +kernel
  obtain ⟨m, transformed, runs⟩ := Option.any_eq_true _ _ |>.1 runs
  have woven : (Answered.waiting.transform "app/C" Answered.config).result = .ok (some m) :=
    eq_ok_of_toOption (Option.join_eq_some_iff.1 transformed)
  have named : Answered.waitingClass.name = internalName "app.C" := by decide +kernel
  obtain ⟨c, c', decoded, became, answered⟩ :=
    transformClass_answered (transformClass_single Answered.waitingClass_encodable woven rfl (by decide) named rfl)
  obtain rfl : c = Answered.waitingClass :=
    Except.ok.inj (decoded.symm.trans (decodeClass_encodeClass _ Answered.waitingClass_encodable))
  rcases became with ⟨unchanged, -⟩ | ⟨-, methods, rfl, each⟩
  · cases unchanged
  obtain rfl := Method.Becomes.eq_single each woven (by decide)
  obtain ⟨⟨w₁, w₂, x⟩, ran, kept⟩ := Option.any_eq_true _ _ |>.1 runs
  simp only [Bool.and_eq_true, decide_eq_true_eq] at kept
  obtain ⟨⟨⟨⟨⟨⟨entry, first⟩, second⟩, third⟩, count⟩, live⟩, fetches⟩ := kept
  obtain ⟨homing, once, missed⟩ := Answered.keeps_of_orderly first
  obtain ⟨homing', once', missed'⟩ := Answered.keeps_of_orderly second
  obtain ⟨homing'', once'', -⟩ := Answered.keeps_of_orderly third
  obtain ⟨started, ⟨v, given⟩, seen⟩ := Answered.course_eq_some ran
  obtain ⟨x₀, n, opens, reached⟩ := Runner.visits_of_look seen
  have ledger : (Answered.runner m).1.Ledger (Host.nothing Unit) _ _ :=
    .asked (.begun rfl) homing once (fun received => absurd received (missed rfl)) fun _ => rfl
  rw [Runner.after_eq started] at ledger
  have ledger := ledger.asked homing' once' (fun received => absurd received (missed' rfl)) fun _ => rfl
  rw [Runner.after_eq given] at ledger
  obtain ⟨owes, ledger, owed⟩ : ∃ owes, (Answered.runner m).1.Ledger (Host.nothing Unit) w₂ owes ∧
      owes ⟨1⟩ = some (.object ⟨0⟩) := ⟨_, ledger, if_neg (by rw [count]; decide)⟩
  obtain ⟨W, named, method, configured, result, answered⟩ :=
    answered (by decide) Answered.waiting List.mem_cons_self m woven
  obtain ⟨s, answer, two, own, place, stack, may⟩ :=
    Answered.mayFetch_of_fetching fetches named method configured result
  obtain ⟨held, sites⟩ := answered (Answered.runner m).1 (Host.nothing Unit) w₂ owes rfl rfl rfl
    (eq_ok_of_toOption entry) (Host.leavesHandles_nothing Unit) ledger
  obtain ⟨context, live⟩ := Option.isSome_iff_exists.1 live
  obtain ⟨-, continues, goes⟩ := sites (.resume ⟨1⟩) homing'' once'' 2 .object s answer x₀ n x opens reached own place
    fun c target => by cases target
  obtain ⟨z, running⟩ := goes may
  rw [running, stack, Request.owed, owed] at continues
  rw [two] at running
  exact ⟨m, w₁, w₂, x, woven, ran, ⟨context, live, (held _ _ live).trans owed⟩, z, running, continues.2⟩

/-- An answer that is given to a flow that waits for none outlives the pause at which it was given, and goes to a
call from which the flow is continued without an answer.  Had it not been given there, the call would go on with
nothing then, and with the answer that is given to it. -/
theorem answer_outlives_pause :
    Answered.waitingClass.observed (Host.nothing Unit) "()Ljava/lang/Object;"
        [.start [], .answer ⟨0⟩ (.object ⟨0⟩), .resume ⟨1⟩] =
      [some (.paused ⟨0⟩, [0], true), some (.called ⟨1⟩ .null, [0, 1], true),
        some (.completed (some (.object ⟨0⟩)), [0, 1], true)] ∧
    Answered.waitingClass.observed (Host.nothing Unit) "()Ljava/lang/Object;"
        [.start [], .resume ⟨0⟩, .resume ⟨1⟩, .answer ⟨1⟩ (.object ⟨0⟩)] =
      [some (.paused ⟨0⟩, [0], true), some (.called ⟨1⟩ .null, [0, 1], true),
        some (.completed (some .null), [0, 1], true), some (.completed (some (.object ⟨0⟩)), [0, 1], true)] := by
  decide +kernel

end Suspension
