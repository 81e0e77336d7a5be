import Mathlib.Data.Set.Insert
import Suspension.Proofs.Transform.Captured
import Suspension.Proofs.Weave.Leaving

/-!
# One context for each run

A run of a suspendable class that ends in any way but by completing leaves one context behind, and one that
completes leaves none: the context that was handed out to it was dropped in front of the return, and the value
that is returned is the one that was on the stack before that.

## Main definitions
* `Contexts.live`: the contexts that are live.

## Main results
* `Runner.live_of_serve`: which contexts a request leaves.
* `Runner.returns_of_visits`: what a return of the entry method does.
* `transformClass_balanced`: so it is for every class that was made suspendable.
* `transformClass_balanced_broken`: what the code of the class and its host have to keep to.
-/

namespace Suspension

open Container

variable {σ : Type}

/-! ## Contexts that are added -/

namespace Contexts

variable {cs cs' : Contexts} {id new : ContextId}

/-- The contexts that are live. -/
def live (cs : Contexts) : Set ContextId := {id | (cs.get? id).isSome = true}

theorem mem_live : id ∈ cs.live ↔ (cs.get? id).isSome = true := Iff.rfl

/-- No context but one is added. -/
def adding (new : ContextId) : Keeping Contexts where
  rel cs cs' := cs'.live ⊆ insert new cs.live
  refl cs := Set.subset_insert new cs.live
  trans a b := b.trans (Set.insert_subset (Set.mem_insert ..) a)

/-- A context that changes was there before. -/
theorem Only.live_subset (h : Only id cs cs') : cs'.live ⊆ cs.live := by
  intro other live
  by_cases same : other = id
  · subst same
    obtain ⟨c', there⟩ := Option.isSome_iff_exists.1 live
    obtain ⟨c, before, -⟩ := h.same c' there
    exact Option.isSome_iff_exists.2 ⟨c, before⟩
  · rwa [mem_live, h.others other same] at live

/-- A frame adds no other context than the one that is handed out to it. -/
theorem Effect.adds {ready : Contexts → Prop} {own own' : Option ContextId} (h : Effect ready cs own own' cs')
    (first : ready cs → cs.createOrReset.1 = new) : (adding new).rel cs cs' := by
  cases h with
  | nothing => exact (adding new).refl cs
  | served lasts => exact lasts.1.live_subset.trans (Set.subset_insert ..)
  | dropped id => exact (only_deactivate cs id).live_subset.trans (Set.subset_insert ..)
  | obtained ready =>
    obtain ⟨-, others, -⟩ := cs.createOrReset_eq
    intro other live
    by_cases same : other = new
    · exact .inl same
    · rw [mem_live, others other (first ready ▸ same)] at live
      exact .inr live

/-- Of the contexts that a request adds, at most one is live: the one that is handed out next. -/
theorem adds_of_queue {request : Request} {w w' : World σ} {params : List Value} (h : request.queue w = .ok params w') :
    (adding w'.contexts.createOrReset.1).rel w.contexts w'.contexts := by
  obtain ⟨-, ⟨-, -, contexts⟩ | ⟨copy, c, queues, -⟩⟩ := Request.queues_of_queue h
  · rw [contexts]
    exact Set.subset_insert ..
  · have there : w'.contexts.get? copy = some c := (queues.get? copy).trans (if_pos rfl)
    have first : w'.contexts.createOrReset.1 = copy := by
      have queued : w'.contexts.pending.filter w'.contexts.contains = some copy := by
        simp [queues.pending, Option.filter_some, contains_of_get? there]
      simp [createOrReset, queued]
    intro id live
    by_cases same : id = copy
    · exact .inl (first ▸ same)
    · rw [mem_live, queues.get?, if_neg same] at live
      exact .inr live

end Contexts

namespace Runner

variable {r : Runner} {host : Host σ} {w w' : World σ} {request : Request} {x : Run σ} {W : Weaving}

/-! ## The contexts that a run leaves -/

/-- A run of suspendable code is begun in front of its first instruction, which is no return. -/
theorem begins_of_opens (unaware : W.method.Plain) (entry : r.entry = .ok W.result) (opens : r.Opens w request x) :
    x.methods.getLast? = some W.result ∧ ∀ k, Run.fetch x.frame ≠ .ok (.plain (.leave k)) := by
  obtain ⟨params, w₀, method, frame, -, entry', enters, rfl⟩ := opens
  obtain rfl : W.result = method := Except.ok.inj (entry.symm.trans entry')
  obtain ⟨-, layout⟩ := Frame.enter_eq_ok enters
  have own : frame.method = W.result := layout ▸ (Frame.layOut_eq ..).1
  have start : frame.pc = 0 := layout ▸ (Frame.layOut_eq ..).2.2
  refine ⟨by rw [Run.methods, own]; rfl, fun k returns => ?_⟩
  have dropped := Weaving.care_of_fetch unaware own returns
  rw [start, W.care_zero] at dropped
  cases dropped

/-- Nobody waits for the entry method. -/
theorem callers_of_entry (once : r.EntersOnce host w request) {m : Method} (entry : r.entry = .ok m)
    (visits : r.Visits host w request x) (own : x.frame.method = m) : x.callers = [] := by
  refine Classical.byContradiction fun called => once x visits called ?_
  unfold Runner.entry at entry
  split at entry
  · next found =>
    cases entry
    simpa [own] using List.find?_some found
  · cases entry

/-- A request begins one run. -/
theorem opens_unique {y : Run σ} (h : r.Opens w request x) (h' : r.Opens w request y) : x = y := by
  obtain ⟨params, w₀, method, frame, queued, entry, enters, rfl⟩ := h
  obtain ⟨params', w₀', method', frame', queued', entry', enters', rfl⟩ := h'
  cases queued.symm.trans queued'
  cases entry.symm.trans entry'
  cases enters.symm.trans enters'
  rfl

/-- No exception is read as a value that was returned. -/
theorem decode_ne_completed (w : World σ) (exc : ObjectId) (v : Option Value) : decode w exc ≠ .ok (.completed v) := by
  intro h
  obtain ⟨className, -, h⟩ := bind_eq_ok.1 h
  split at h
  · cases h
  · next kind signal =>
    obtain ⟨context, -, h⟩ := bind_eq_ok.1 h
    cases kind with
    | stepBack =>
      obtain ⟨c, -, h⟩ := bind_eq_ok.1 h
      cases h
    | _ => cases h

section

variable (careful : r.Careful) (leaves : host.LeavesHandles) (intact : w.heap.HandlesIntact)
  (homing : r.Homing host w request) (once : r.EntersOnce host w request)
include careful leaves intact homing once

/-- The contexts that a run of suspendable code leaves: those that were there before if it returns, and one more
if an exception leaves it.  One context is handed out during the run and no other one is added, so what is live
is what was live before, and that context unless it was dropped. -/
theorem live_of_follow (unaware : W.method.Plain) (entry : r.entry = .ok W.result) (opens : r.Opens w request x)
    {l : Nat} {c : Completion} {w₁ : World σ} (done : x.follow r.cls host l = .completed c w₁) :
    match c with
    | .returned _ => w₁.contexts.live = w.contexts.live
    | .threw _ => ∃ new, new ∉ w.contexts.live ∧ w₁.contexts.live = insert new w.contexts.live := by
  let new := x.world.contexts.createOrReset.1
  let ready (cs : Contexts) : Prop := cs.createOrReset.1 = new
  obtain ⟨tidy, prepared⟩ := tidy_of_opens ready careful intact opens rfl
  have fair : x.Throughout r.cls host (Run.Fair ready) :=
    fair_of_opens ready careful leaves homing opens fun y visits called member =>
      .inl (careful.others _ member (once y visits called))
  have added : (Contexts.adding new).rel w.contexts x.world.contexts := by
    obtain ⟨params, w₀, method, frame, queued, -, -, rfl⟩ := opens
    exact Contexts.adds_of_queue queued
  have adds (k : Nat) : (x.follow r.cls host k).world.contexts.live ⊆ insert new w.contexts.live :=
    (Contexts.adding new).trans added
      (tidy.follow leaves careful.each (C := Contexts.adding new) (fun _ _ effect => effect.adds id) fair k).1
  have old {id : ContextId} (live : id ∈ w.contexts.live) : id.index < w.contexts.table.nextId := by
    obtain ⟨c, there⟩ := Option.isSome_iff_exists.1 live
    exact Contexts.index_lt_of_get? there
  have only {k : Nat} {id : ContextId} (live : id ∈ (x.follow r.cls host k).world.contexts.live)
      (high : w.contexts.table.nextId ≤ id.index) : id = new :=
    (adds k live).resolve_right fun before => Nat.not_lt.2 high (old before)
  have kept : w.contexts.live ⊆ w₁.contexts.live := by
    intro id live
    have same := kept_of_follow careful leaves intact homing opens l (old live)
    rw [done] at same
    exact (congrArg Option.isSome same).trans live
  have later : w₁.contexts.live ⊆ insert new w.contexts.live := by
    have later := adds l
    rwa [done] at later
  obtain ⟨began, first⟩ := begins_of_opens unaware entry opens
  cases c with
  | returned v =>
    obtain ⟨k, y, id, reached, high, live, gone⟩ :=
      tidy.dropped_of_returned leaves careful.each fair began W.not_plain first done
    obtain rfl : id = new := only (k := k) (by rw [reached]; exact live) high
    refine Set.Subset.antisymm (fun other live => ?_) kept
    rcases later live with rfl | before
    · rw [Contexts.mem_live, gone] at live
      cases live
    · exact before
  | threw exc =>
    obtain ⟨id, owned⟩ := tidy.owned_of_threw leaves careful.each fair began W.not_plain done
    obtain rfl : id = new := only (k := l) (by rw [done]; exact owned.live) owned.high
    refine ⟨new, fun before => Nat.not_lt.2 owned.high (old before), Set.Subset.antisymm later ?_⟩
    exact Set.insert_subset owned.live kept

/-- The contexts that a request leaves: those that were there before if it completes, and one more otherwise. -/
theorem live_of_serve (unaware : W.method.Plain) (entry : r.entry = .ok W.result) {o : Outcome}
    (served : r.serve host request w = .ok o w') :
    match o with
    | .completed _ => w'.contexts.live = w.contexts.live
    | _ => ∃ new, new ∉ w.contexts.live ∧ w'.contexts.live = insert new w.contexts.live := by
  obtain ⟨x, l, c, w₁, opens, done, contexts, -, outcome⟩ := serve_eq_ok served
  have left := live_of_follow careful leaves intact homing once unaware entry opens done
  rw [contexts]
  cases c with
  | returned v =>
    cases outcome
    exact left
  | threw exc =>
    cases o with
    | completed v => exact absurd outcome (decode_ne_completed w₁ exc v)
    | _ => exact left

/-- A request that comes to a return of the entry method completes, if it is served, with the value that was on
top of the stack in front of the code that drops the context; and it does so if there is all that the return
needs.  Nothing waits for its frame, so the five steps from there end the run, and a run has one end. -/
theorem returns_of_visits (unaware : W.method.Plain) (entry : r.entry = .ok W.result) {j : Nat} {k : Option Storage}
    (hj : W.instrs[j]? = some (.plain (.leave k))) (visits : r.Visits host w request x)
    (own : x.frame.method = W.result) (place : x.frame.pc = W.placeOf j) :
    (∀ o w', r.serve host request w = .ok o w' → o = .completed (k.bind fun _ => x.frame.stack.head?)) ∧
      (W.MayReturn k x.frame x.world → ∃ w₁,
        x.follow r.cls host 5 = .completed (.returned (k.bind fun _ => x.frame.stack.head?)) w₁ ∧
          w₁.contexts.live = w.contexts.live) := by
  obtain ⟨x₀, n, opens, reached⟩ := id visits
  have alone := callers_of_entry once entry visits own
  obtain ⟨frame, callers, world⟩ := x
  obtain rfl : callers = [] := alone
  have tidy := tidy_of_visits careful leaves intact homing visits
  obtain ⟨owner, ids, tends, apart, -⟩ := tidy.frames
  cases tends with
  | plain plain => exact absurd (own ▸ plain) W.not_plain
  | @woven W' S owner method unaware' care holds =>
    obtain ⟨kept, home⟩ := Weaving.care_deregister unaware' (own.symm.trans method) hj
    rw [place, kept] at care
    cases care
    cases holds with
    | kept houses =>
      rw [← home] at houses
      have whole : x₀.follow r.cls host (n + 5) = Run.follow r.cls host 5 ⟨frame, [], world⟩ := by
        rw [Run.follow_add, reached]
      have returns : (Run.follow r.cls host 5 ⟨frame, [], world⟩).Returns (k.bind fun _ => frame.stack.head?) :=
        Weaving.follow_return hj own place houses
      refine ⟨fun o w' served => ?_, fun may => ?_⟩
      · obtain ⟨x₁, l, c, w₁, opens₁, done, -, -, outcome⟩ := serve_eq_ok served
        obtain rfl := opens_unique opens opens₁
        have ends : Run.follow r.cls host 5 ⟨frame, [], world⟩ = .completed c w₁ := by
          rw [← whole, ← done]
          refine Run.ends_unique (fun y running => ?_) fun y running => ?_
          · rw [whole] at running
            exact (running ▸ returns : Progress.Returns _ (.running y))
          · cases done.symm.trans running
        rw [ends] at returns
        cases returns
        cases outcome
        rfl
      · obtain ⟨w₁, done⟩ :=
          Weaving.follow_return_of_mayReturn hj own place may houses (apart _ rfl).1.live tidy.intact
        exact ⟨w₁, done, live_of_follow careful leaves intact homing once unaware entry opens (whole.trans done)⟩

end

end Runner

/-! ## Suspendable classes -/

/-- Every run of a suspendable class leaves its contexts in balance.  A request whose run completes leaves the live
contexts as they were; whatever else its outcome is, there is one context more, and it is the one that the outcome
names.  A return of the entry method leaves with the value that was on top of the stack in front of the code that
drops the context, be it in a protected region or not, and that code gets to the return if the handle is in its slot.
Subroutines of the entry method, which is not entered again, are left for the place behind one of their calls; and
what the code of the class throws by itself, or goes on to a handler with, is no signal of an earlier run. -/
theorem transformClass_balanced {bytes : List UInt8} {className : String} {config : Config} {t : Transformed}
    (h : (transformClass bytes className config).result = .ok t) :
    ∃ c c', decodeClass bytes = .ok c ∧
      (t = .unchanged ∧ c' = c ∨ t = .changed (encodeClass c') ∧ ∃ methods, c' = { c with methods } ∧
        List.Forall₂ (Method.Becomes c.name config) c.methods methods) ∧
      ((∀ m ∈ c.methods, m.Plain) → ∀ m ∈ c.methods, ∀ m', (m.transform c.name config).result = .ok (some m') →
        ∃ W : Weaving, W.method = m ∧ W.result = m' ∧
          ∀ {σ : Type} (r : Runner) (host : Host σ) (w : World σ) (request : Request), r.cls = c' →
            r.entryName = config.entryName → r.entryDescriptor = config.entryDescriptor → r.entry = .ok m' →
            host.LeavesHandles → r.Session host w → r.Homing host w request → r.EntersOnce host w request →
            (∀ o w', r.serve host request w = .ok o w' →
              match o with
              | .completed _ => w'.contexts.live = w.contexts.live
              | _ => ∃ new, new ∉ w.contexts.live ∧ w'.contexts.live = insert new w.contexts.live ∧
                  (r.ThrowsNew host w request → Service.siteOfSignal? c.name = none →
                    ∀ id, o.context? = some id → id = new)) ∧
            ∀ j k x, m.code.instrs[j]? = some (.plain (.leave k)) → r.Visits host w request x →
              x.frame.method = m' → x.frame.pc = W.placeOf j →
              (∀ o w', r.serve host request w = .ok o w' → o = .completed (k.bind fun _ => x.frame.stack.head?)) ∧
                (W.MayReturn k x.frame x.world → ∃ w₁,
                  x.follow r.cls host 5 = .completed (.returned (k.bind fun _ => x.frame.stack.head?)) w₁ ∧
                    w₁.contexts.live = w.contexts.live)) := by
  obtain ⟨c, c', decoded, name, became, careful⟩ := careful_of_transformClass h
  refine ⟨c, c', decoded, became, fun plain m hm m' transformed => ?_⟩
  obtain ⟨W, -, rfl, -, rfl⟩ := Weaving.exists_of_transform transformed
  refine ⟨W, rfl, rfl, ?_⟩
  intro σ r host w request same entryName entryDescriptor entry leaves session homing once
  have careful := careful plain r same entryName entryDescriptor
  have intact := session.intact leaves
  refine ⟨fun o w' served => ?_, fun j k x hj visits own place => ?_⟩
  · have left := Runner.live_of_serve careful leaves intact homing once (plain _ hm) entry served
    have named {new : ContextId} (live : w'.contexts.live = insert new w.contexts.live)
        (throwsNew : r.ThrowsNew host w request) (foreign : Service.siteOfSignal? c.name = none) (id : ContextId)
        (names : o.context? = some id) : id = new := by
      obtain ⟨unknown, known⟩ := Runner.new_of_serve careful leaves intact homing throwsNew
        (by rw [same, name]; exact foreign) served names
      have there : id ∈ insert new w.contexts.live := live ▸ known
      refine there.resolve_right fun before => ?_
      rw [Contexts.mem_live, unknown] at before
      cases before
    cases o with
    | completed v => exact left
    | _ =>
      obtain ⟨new, fresh, live⟩ := left
      exact ⟨new, fresh, live, named live⟩
  · exact Runner.returns_of_visits careful leaves intact homing once (plain _ hm) entry hj visits own place

namespace Balanced

/-- A method that pauses and then returns what it was given, in a protected region. -/
def guarded : Method where
  access := staticFlag
  name := "execute"
  descriptor := "(I)I"
  maxLocals := 1
  code := {
    instrs := [.pause, .label 0, .slot (.load .int) 0, .plain (.leave (some .int)), .label 1,
      .label 2, .plain (.shuffle .pop), .iconst 0, .plain (.leave (some .int))]
    regions := [⟨0, 1, 2, none⟩] }

/-- A class of that method. -/
def guardedClass : Class := ⟨1, "app/C", some objectClass, [], [guarded]⟩

/-- The configuration of its entry method. -/
def config : Config := { entryDescriptor := "(I)I" }

theorem guardedClass_encodable : guardedClass.Encodable := by
  have steps : guarded.Encodable :=
    ⟨by decide, by decide, by decide +kernel, by decide, by
      simp [guarded, Instr.pause, Instr.Encodable]
      exact ⟨by decide, by decide, by decide⟩, by decide, by simp [guarded]⟩
  exact encodable_of_methods (by decide) (by simp [steps])

/-- The runner of the suspendable class, and the world that it starts in. -/
def runner (m : Method) : Runner × World Unit :=
  Runner.create { guardedClass with methods := [m] } config 1000 ()

/-- The worlds after the flow paused, and after it was continued and returned; and where it was when it came to the
code in front of its return. -/
def course (m : Method) : Option (World Unit × World Unit × Run Unit) :=
  let (r, w₀) := runner m
  match r.serve (Host.nothing Unit) (.start [.int 5]) w₀ with
  | .ok (.paused ⟨0⟩) w =>
    match r.serve (Host.nothing Unit) (.resume ⟨0⟩) w with
    | .ok (.completed _) w' => (r.look (Host.nothing Unit) w (.resume ⟨0⟩) 16).map (w, w', ·)
    | _ => none
  | _ => none

/-- Whether a request of it is orderly from its beginning to its end. -/
def orderly (m : Method) (w : World Unit) (request : Request) : Bool :=
  ((runner m).1.look (Host.nothing Unit) w request 30).isNone &&
    (List.range 30).all fun n =>
      ((runner m).1.look (Host.nothing Unit) w request n).all (Captured.orderly (runner m).1.cls)

/-- Whether the method returns an int at instruction 34, and the code in front of that finds a handle. -/
def returning (m : Method) (x : Run Unit) : Bool :=
  m.code.instrs[30]? = some (.load .reference 1) && m.code.instrs[34]? = some (.plain (.leave (some .int))) &&
    x.frame.method = m && x.frame.pc = 30 && x.frame.stack = [.int 5] && x.world.fuel.isNone &&
    x.frame.locals[(1 : Slot)]? = some (.object ⟨4⟩) && x.world.heap.get? ⟨4⟩ = some (.handle .context ⟨1⟩)

theorem course_eq_some {m : Method} {w w' : World Unit} {x : Run Unit} (h : course m = some (w, w', x)) :
    (runner m).1.serve (Host.nothing Unit) (.start [.int 5]) (runner m).2 = .ok (.paused ⟨0⟩) w ∧
      (∃ v, (runner m).1.serve (Host.nothing Unit) (.resume ⟨0⟩) w = .ok (.completed v) w') ∧
      (runner m).1.look (Host.nothing Unit) w (.resume ⟨0⟩) 16 = some x := by
  simp only [course] at h
  split at h
  · next started =>
    split at h
    · next resumed =>
      obtain ⟨y, seen, same⟩ := Option.map_eq_some_iff.1 h
      cases same
      exact ⟨started, ⟨_, resumed⟩, seen⟩
    · cases h
  · cases h

/-- The method may return from there. -/
theorem mayReturn_of_returning {m : Method} {x : Run Unit} (h : returning m x = true) {W : Weaving}
    (result : W.result = m) :
    ∃ j, W.instrs[j]? = some (.plain (.leave (some .int))) ∧ x.frame.method = m ∧ x.frame.pc = W.placeOf j ∧
      x.frame.stack = [.int 5] ∧ W.MayReturn (some .int) x.frame x.world := by
  simp only [returning, Bool.and_eq_true, decide_eq_true_eq, Option.isNone_iff_eq_none] at h
  obtain ⟨⟨⟨⟨⟨⟨⟨loads, returns⟩, method⟩, pc⟩, stack⟩, fuel⟩, slot⟩, known⟩ := h
  subst result
  obtain ⟨j, hj, place⟩ := W.exists_return returns
  have place : W.placeOf j = 30 := by omega
  have home : W.plan.home = 1 := by
    have load : W.stream[30]? = some W.plan.loadContext := place ▸ (W.stands_return hj).head
    have same : Instr.load .reference 1 = .load .reference W.plan.home := Option.some.inj (loads.symm.trans load)
    injection same with _ slot
    exact slot.symm
  refine ⟨j, hj, method, pc.trans place.symm, stack, ?_, ⟨⟨4⟩, ⟨1⟩, home ▸ slot, known⟩, ?_⟩
  · intro granted spent
    cases fuel.symm.trans spent
  · rintro s ⟨⟩
    exact ⟨_, _, stack, rfl⟩

end Balanced

/-- The flow pauses in a context of its own; it is continued in another one, which is dropped when it returns the
value that it was given. -/
theorem guardedClass_balanced :
    ∃ m w w' x w₁, (Balanced.guarded.transform "app/C" Balanced.config).result = .ok (some m) ∧
      Balanced.course m = some (w, w', x) ∧
      w.contexts.live = insert ⟨0⟩ (Balanced.runner m).2.contexts.live ∧
      (Balanced.runner m).1.serve (Host.nothing Unit) (.resume ⟨0⟩) w =
        .ok (.completed (some (.int 5))) w' ∧
      w'.contexts.live = w.contexts.live ∧
      x.follow (Balanced.runner m).1.cls (Host.nothing Unit) 5 = .completed (.returned (some (.int 5))) w₁ ∧
      w₁.contexts.live = w.contexts.live := by
  have runs : (Balanced.guarded.transform "app/C" Balanced.config).result.toOption.join.any
      (fun m => (Balanced.course m).any fun (w, _, x) =>
        (Balanced.runner m).1.entry.toOption = some m &&
          Balanced.orderly m (Balanced.runner m).2 (.start [.int 5]) &&
          Balanced.orderly m w (.resume ⟨0⟩) && Balanced.returning m x) = true := by decide +kernel
  obtain ⟨m, transformed, runs⟩ := Option.any_eq_true _ _ |>.1 runs
  have woven : (Balanced.guarded.transform "app/C" Balanced.config).result = .ok (some m) :=
    eq_ok_of_toOption (Option.join_eq_some_iff.1 transformed)
  have named : Balanced.guardedClass.name = internalName "app.C" := by decide +kernel
  obtain ⟨c, c', decoded, became, balanced⟩ :=
    transformClass_balanced (transformClass_single Balanced.guardedClass_encodable woven rfl (by decide) named rfl)
  obtain rfl : c = Balanced.guardedClass :=
    Except.ok.inj (decoded.symm.trans (decodeClass_encodeClass _ Balanced.guardedClass_encodable))
  rcases became with ⟨unchanged, -⟩ | ⟨-, methods, rfl, each⟩
  · cases unchanged
  obtain rfl := Method.Becomes.eq_single each woven (by decide)
  obtain ⟨⟨w, w', x⟩, ran, kept⟩ := Option.any_eq_true _ _ |>.1 runs
  simp only [Bool.and_eq_true, decide_eq_true_eq, Balanced.orderly] at kept
  obtain ⟨⟨⟨entry, ended, each⟩, ended', each'⟩, returning⟩ := kept
  obtain ⟨homing, throwsNew, once⟩ := Captured.keeps_of_orderly ended each
  obtain ⟨homing', -, once'⟩ := Captured.keeps_of_orderly ended' each'
  obtain ⟨started, ⟨v, resumed⟩, seen⟩ := Balanced.course_eq_some ran
  have leaves := Host.leavesHandles_nothing Unit
  obtain ⟨W, method, result, balanced⟩ :=
    balanced (by decide) Balanced.guarded List.mem_cons_self m woven
  obtain ⟨new, -, first, named⟩ := (balanced (Balanced.runner m).1 _ (Balanced.runner m).2 _
    rfl rfl rfl (eq_ok_of_toOption entry) leaves (.begun rfl) homing once).1 _ _ started
  have second := balanced (Balanced.runner m).1 _ w _
    rfl rfl rfl (eq_ok_of_toOption entry) leaves (.served (.begun rfl) started) homing' once'
  obtain ⟨j, hj, own, place, stack, may⟩ := Balanced.mayReturn_of_returning returning result
  obtain ⟨returns, goes⟩ := second.2 j _ x (by rw [← method]; exact hj) (Runner.visits_of_look seen) own place
  rw [stack] at returns goes
  obtain ⟨w₁, done, live⟩ := goes may
  cases returns _ _ resumed
  exact ⟨m, w, w', x, w₁, woven, ran, named throwsNew rfl _ rfl ▸ first, resumed,
    second.1 _ _ resumed, done, live⟩

/-! ### What the premises are for -/

namespace Balanced

open Captured (field)

/-- A class with a static entry method, and with others. -/
def entering (name descriptor : String) (maxLocals : UInt16) (instrs : List Instr) (others : List Method) : Class where
  access := 1
  name := name
  superName := some objectClass
  interfaces := []
  methods := { access := staticFlag, name := "execute", descriptor, maxLocals, code := { instrs } } :: others

/-- Given one, it goes to an address that it finds. -/
def straying : Class :=
  entering "app/C" "(I)V" 2
    [.slot (.load .int) 0, .jump (.ifZero .ne) 0, .plain (.leave none),
      .label 0, .slot (.load .int) 0, .iconst 1, .jump (.ifInts .ne) 1,
      .invoke .static ⟨"app/C", "stray", "()V"⟩, .field .getStatic (field "place"),
      .slot (.store .reference) 1, .slot .ret 1, .label 1, .pause, .plain (.leave none)]
    [{ access := staticFlag, name := "stray", descriptor := "()V", maxLocals := 0
       code.instrs := List.replicate 17 (.plain .nop) ++
         [.jump .jsr 0, .label 0, .field .putStatic (field "place"), .plain (.leave none)] }]

/-- Throws what it is given, or else pauses. -/
def rethrowing : Class :=
  entering "app/C" "(Ljava/lang/Object;)V" 1
    [.slot (.load .reference) 0, .jump (.ifNull false) 0, .pause, .plain (.leave none),
      .label 0, .slot (.load .reference) 0, .plain .athrow] []

/-- Pauses if it is given zero, or else asks its host for something. -/
def asking : Class :=
  entering "app/C" "(I)V" 1
    [.slot (.load .int) 0, .jump (.ifZero .ne) 0, .pause,
      .label 0, .invoke .static ⟨"app/Host", "ask", "()V"⟩, .plain (.leave none)] []

/-- A signal whose constructor prefers the context of an earlier signal. -/
def posing : Class :=
  entering SiteKind.pause.signalClass "(Ljava/lang/Object;)V" 1
    [.slot (.load .reference) 0, .jump (.ifNull true) 0, .slot (.load .reference) 0,
      .field .getField (field "context"), .field .putStatic (field "old"), .label 0, .pause, .plain (.leave none)]
    [{ access := 1, name := Service.constructorName, descriptor := SiteKind.pause.constructorDescriptor, maxLocals := 2
       code.instrs := [.slot (.load .reference) 0, .field .getStatic (field "old"), .plain (.shuffle .dup),
         .jump (.ifNull false) 0, .plain (.shuffle .pop), .slot (.load .reference) 1, .label 0,
         .field .putField (field "context"), .plain (.leave none)] }]

/-- A host that makes one object a handle of the first context. -/
def meddling (r : ObjectId) : Host Unit where
  invoke _ _ _ _ := fun (heap, outside) => .ok none (heap.set r (.handle .context ⟨0⟩), outside)
  superclass _ _ := none
  reach := 1

end Balanced

/-- None of the premises can be dropped: a stray return from a subroutine gets past the code that drops the context;
a signal of an earlier run, and one that is built from such a signal by the class itself, names an earlier context;
and a host that meddles with the handle of a run has it drop the context of another one. -/
theorem transformClass_balanced_broken :
    (∀ cls ∈ [Balanced.straying, Balanced.rethrowing, Balanced.asking, Balanced.posing],
        ∀ m ∈ cls.methods, m.Plain) ∧
      Balanced.straying.observed (Host.nothing Unit) "(I)V" [.start [.int 1]] =
        [some (.completed none, [0], true)] ∧
      Balanced.rethrowing.observed (Host.nothing Unit) "(Ljava/lang/Object;)V"
          [.start [.null], .start [.object ⟨3⟩]] =
        [some (.paused ⟨0⟩, [0], true), some (.paused ⟨0⟩, [0, 1], true)] ∧
      Balanced.posing.observed (Host.nothing Unit) "(Ljava/lang/Object;)V"
          [.start [.null], .start [.object ⟨3⟩]] =
        [some (.paused ⟨0⟩, [0], true), some (.paused ⟨0⟩, [0, 1], true)] ∧
      Balanced.asking.observed (Balanced.meddling ⟨4⟩) "(I)V" [.start [.int 0], .start [.int 1]] =
        [some (.paused ⟨0⟩, [0], true), some (.completed none, [1], true)] := by
  refine ⟨by decide, ?_, ?_, ?_, ?_⟩
  all_goals decide +kernel

end Suspension
