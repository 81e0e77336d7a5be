import Suspension.Proofs.Weave.Blocks
import Suspension.Proofs.Weave.Labels

/-!
# Signals

A signal is built, thrown, and let through by every handler of the suspendable method, so it always
leaves the method.

## Main definitions
* `World.IsSignal`: an object that handlers let through.
* `Plan.building`: the code that builds a signal.
* `Weaving.Passes`, `Weaving.Passing`: the code that lets signals through.

## Main results
* `Plan.performs_building`: the signal carries the context and the payload.
* `World.isSignal_of_class`: the objects of the signal classes are signals, whoever runs the code.
* `Weaving.unwind_signal`: a signal passes only code that lets signals through, and leaves the method.
* `Weaving.signal_leaves`: so does a signal that the method throws.
-/

namespace Suspension

variable {σ : Type}

/-! ## The class of a signal -/

namespace World

variable {w : World σ} {host : Host σ} {target : String}

theorem extends?_builtin {c d : String} (h : builtinSuperclass c = some d) (n : Nat) :
    w.extends? host target (n + 1) c =
      if c = target then .ok true else w.extends? host target n d := by
  have next : w.superclass host c = some d := by simp [superclass, h]
  rw [World.extends?.eq_def]
  simp only [next]

theorem extends?_object (n : Nat) :
    w.extends? host target n objectClass = .ok (decide (objectClass = target)) := by
  have none : w.superclass host objectClass = none := by
    simp [superclass, show builtinSuperclass objectClass = none by decide]
  unfold extends?
  simp only [none]
  split <;> simp_all

/-- Every class tests a signal, and it is a signal. -/
theorem extends?_signal (kind : SiteKind) (n : Nat) :
    (∃ b, w.extends? host target (n + 5) kind.signalClass = .ok b) ∧
      w.extends? host Service.signalClass (n + 5) kind.signalClass = .ok true := by
  have first : builtinSuperclass kind.signalClass = some Service.signalClass := by
    cases kind <;> decide
  have chain : ∃ b, w.extends? host target (n + 4) Service.signalClass = .ok b := by
    rw [extends?_builtin (d := "java/lang/RuntimeException") (by decide),
      extends?_builtin (d := "java/lang/Exception") (by decide),
      extends?_builtin (d := "java/lang/Throwable") (by decide),
      extends?_builtin (d := objectClass) (by decide), extends?_object]
    repeat' split
    all_goals exact ⟨_, rfl⟩
  refine ⟨?_, ?_⟩
  · rw [extends?_builtin first]
    split
    · exact ⟨_, rfl⟩
    · exact chain
  · rw [extends?_builtin first, if_neg (by cases kind <;> decide), World.extends?.eq_def]
    exact if_pos rfl

theorem instanceOf_signal {exc : ObjectId} {kind : SiteKind} {fields : Std.ExtTreeMap String Value}
    (ho : w.heap.get? exc = some (.plain kind.signalClass fields)) (target : String) :
    (∃ b, w.instanceOf host exc target = .ok b) ∧
      w.instanceOf host exc Service.signalClass = .ok true := by
  have known : w.heap.classOf exc = .ok kind.signalClass := by
    simp only [Heap.classOf, Heap.get, ho]
    rfl
  have reach : host.reach + builtinReach = host.reach + 3 + 5 := rfl
  have signal : (∃ b, w.extends? host target (host.reach + 3 + 5) kind.signalClass = .ok b) ∧
      w.extends? host Service.signalClass (host.reach + 3 + 5) kind.signalClass = .ok true :=
    extends?_signal kind _
  unfold instanceOf
  simp only [known, reach, show ¬ Service.signalClass = objectClass by decide, if_false]
  refine ⟨?_, signal.2⟩
  by_cases ht : target = objectClass
  · exact ⟨true, by simp [ht]; rfl⟩
  · simp only [ht, if_false]
    exact signal.1

/-- An object that handlers let through: it is of the common superclass of the signals, and no question
about its class stays open. -/
structure IsSignal (w : World σ) (host : Host σ) (exc : ObjectId) : Prop where
  known : w.instanceOf host exc Service.signalClass = .ok true
  tested : ∀ target, ∃ b, w.instanceOf host exc target = .ok b

/-- The objects of the signal classes are signals, whoever runs the code. -/
theorem isSignal_of_class {exc : ObjectId} {kind : SiteKind} {fields : Std.ExtTreeMap String Value}
    (ho : w.heap.get? exc = some (.plain kind.signalClass fields)) : w.IsSignal host exc :=
  ⟨(instanceOf_signal ho objectClass).2, fun target => (instanceOf_signal ho target).1⟩

end World

/-! ## Building a signal -/

/-- The constructor of the signal of a site. -/
def SiteKind.constructor (kind : SiteKind) : MemberRef :=
  ⟨kind.signalClass, Service.constructorName, kind.constructorDescriptor⟩

/-- The parameters of the constructor. -/
def SiteKind.constructorParams (kind : SiteKind) : List Tag :=
  .ref Service.contextClass :: if kind.hasPayload then [.object] else []

theorem SiteKind.callSignature_constructor (kind : SiteKind) :
    callSignature kind.constructor.descriptor = .ok ⟨kind.constructorParams, none⟩ := by
  cases kind <;> exact eq_ok_of_toOption (by decide +kernel)

/-- The fields of a signal. -/
def signalFields (context : Value) (payload : Option Value) : Std.ExtTreeMap String Value :=
  match payload with
  | some v => (Std.ExtTreeMap.insert ∅ Service.contextField context).insert Service.payloadField v
  | none => Std.ExtTreeMap.insert ∅ Service.contextField context

theorem signalFields_context (context : Value) (payload : Option Value) :
    (signalFields context payload)[Service.contextField]? = some context := by
  have : compare Service.payloadField Service.contextField ≠ .eq := by decide
  cases payload with
  | none => simp [signalFields]
  | some v =>
    rw [signalFields, Std.ExtTreeMap.getElem?_insert, if_neg this]
    simp

theorem signalFields_payload (context : Value) (payload : Option Value) :
    (signalFields context payload)[Service.payloadField]? = payload := by
  have : compare Service.contextField Service.payloadField ≠ .eq := by decide
  cases payload with
  | some v => simp [signalFields]
  | none =>
    rw [signalFields, Std.ExtTreeMap.getElem?_insert, if_neg this]
    simp

/-- The code that builds a signal. -/
def Plan.building (p : Plan) (kind : SiteKind) (payload : Option Slot) : List Instr :=
  [.typed .new kind.signalClass, .plain (.shuffle .dup), p.loadContext]
    ++ (payload.map (.load .reference ·)).toList ++ [.invoke .special kind.constructor]

theorem Plan.throwSignal_eq (p : Plan) (kind : SiteKind) (payload : Option Slot) :
    p.throwSignal kind payload = p.building kind payload ++ [.plain .athrow] := by
  simp [Plan.throwSignal, Plan.building, SiteKind.constructor]

/-- The world in which a new signal has been given its fields. -/
def World.signalled (w : World σ) (kind : SiteKind) (context : Value) (payload : Option Value) :
    World σ :=
  w.withHeap ((w.heap.alloc (.new kind.signalClass)).2.set (w.heap.alloc (.new kind.signalClass)).1
    (.plain kind.signalClass (signalFields context payload)))

/-- The signal that is built next. -/
def World.nextSignal (w : World σ) (kind : SiteKind) : ObjectId :=
  (w.heap.alloc (.new kind.signalClass)).1

section

variable {w : World σ} {kind : SiteKind} {context : Value} {payload : Option Value}

theorem World.get?_signalled :
    (w.signalled kind context payload).heap.get? (w.nextSignal kind) =
      some (.plain kind.signalClass (signalFields context payload)) := by
  rw [signalled, World.withHeap, Heap.get?_set _ _ _ _ (by simp)]
  exact if_pos rfl

theorem World.grows_signalled : w.heap.Grows (w.signalled kind context payload).heap := by
  refine Heap.grows_of_kept (fun r o ho => ?_) rfl rfl
  have ne : r ≠ (w.heap.alloc (.new kind.signalClass)).1 := by
    rintro rfl
    have := Heap.index_lt_of_get? ho
    exact absurd this (Nat.lt_irrefl _)
  rw [signalled, World.withHeap, Heap.get?_set _ _ _ _ (by simp), if_neg ne]
  exact Heap.get?_alloc_of_get? ho

/-- The constructor of a signal notes the context and the payload. -/
theorem construct_signal :
    construct kind.constructor (some (.object (w.nextSignal kind))) (context :: payload.toList)
        (w.withHeap (w.heap.alloc (.new kind.signalClass)).2) =
      .ok () (w.signalled kind context payload) := by
  have owner : Service.siteOfSignal? kind.constructor.owner = some kind :=
    Service.siteOfSignal?_signalClass kind
  have first : World.setField (w.nextSignal kind) Service.contextField context
      (w.withHeap (w.heap.alloc (.new kind.signalClass)).2) = .ok () (w.signalled kind context none) :=
    World.setField_apply (Heap.setField_eq (Heap.get?_alloc_self ..) ..)
  have second (v : Value) : World.setField (w.nextSignal kind) Service.payloadField v
      (w.signalled kind context none) = .ok () (w.signalled kind context (some v)) := by
    rw [World.setField_apply (Heap.setField_eq World.get?_signalled ..)]
    simp only [World.signalled, World.withHeap, World.nextSignal, Heap.set_set, signalFields]
  cases payload with
  | none => simp [construct, Value.object, owner, argument, first]
  | some v => simp [construct, Value.object, owner, argument, first, second]

variable {cls : Class} {host : Host σ} {f : Frame} {v : Value} {rest : List Value}

/-- The constructor of a signal is called, unless the class that is run is the class of the signal.  Its
descriptor takes the context, and the payload if there is one. -/
theorem Carries.constructor (foreign : cls.callee? kind.constructor = none)
    (hp : payload.isSome = kind.hasPayload)
    (hstack : f.stack = payload.toList.reverse ++ context :: .object (w.nextSignal kind) :: rest) :
    (Instr.invoke .special kind.constructor).Carries cls host
      ⟨f, w.withHeap (w.heap.alloc (.new kind.signalClass)).2⟩
      ⟨f.moved 1 rest, w.signalled kind context payload⟩ := by
  refine ⟨fun fuel => ?_, rfl, rfl⟩
  have hlen : kind.constructorParams.length = (context :: payload.toList).length := by
    cases kind <;> cases payload <;> simp_all [SiteKind.hasPayload, SiteKind.constructorParams]
  have pops : Frame.popMany kind.constructorParams.length { f with pc := f.pc + 1 } =
      .ok (context :: payload.toList)
        ⟨f.method, f.locals, .object (w.nextSignal kind) :: rest, f.pc + 1⟩ := by
    rw [hlen]
    refine Frame.popMany_apply ?_
    simpa using hstack
  have notNull : Value.object (w.nextSignal kind) ≠ .null := by simp [Value.object, Value.null]
  have notService : ¬ (kind.constructor.owner = Service.contextClass ∨
      kind.constructor.owner = Service.storeClass) := by
    cases kind <;> decide
  have name : kind.constructor.name = Service.constructorName := rfl
  have built : construct kind.constructor (some (.object (w.nextSignal kind)))
      (context :: payload.toList)
      ((w.withHeap (w.heap.alloc (.new kind.signalClass)).2).paying fuel) =
      .ok () ((w.signalled kind context payload).paying fuel) :=
    construct_signal (w := w.paying fuel)
  simp [Instr.step, MemberRef.call, Situation.past, Situation.paying,
    kind.callSignature_constructor, pops, Frame.pop, InvokeKind.hasReceiver, notNull, notService,
    foreign, name, built, MemberRef.call.finish, Frame.receive]
  rfl

/-- The signal carries the context and the payload.  The new object is copied, so one is left after its
constructor took the other. -/
theorem Plan.performs_building (cls : Class) (host : Host σ) {p : Plan} {id : ContextId} {c : Context}
    {slot : Option Slot} (foreign : cls.callee? kind.constructor = none)
    (holds : f.Holds p.slots.context w id c) (hslot : slot.isSome = kind.hasPayload)
    (hpayload : ∀ s, slot = some s → ∃ v, f.locals[s]? = some v ∧ v.kind.mover = .reference) :
    ∃ exc fields w', Performs cls host (p.building kind slot) ⟨f, w⟩
        ⟨f.moved (p.building kind slot).length (.object exc :: f.stack), w'⟩ ∧
      w.Reaches id c w' ∧ w.heap.get? exc = none ∧
      w'.heap.get? exc = some (.plain kind.signalClass fields) ∧
      fields[Service.contextField]? = f.locals[p.slots.context]? ∧
      fields[Service.payloadField]? = slot.bind (f.locals[·]?) := by
  obtain ⟨r, hr, ho⟩ := holds.handle
  have opened : Performs cls host
      [.typed .new kind.signalClass, .plain (.shuffle .dup), p.loadContext] ⟨f, w⟩
      ⟨f.moved 3 (.object r :: .object (w.nextSignal kind) :: .object (w.nextSignal kind) :: f.stack),
        w.withHeap (w.heap.alloc (.new kind.signalClass)).2⟩ :=
    .cons (Carries.new _) (.cons (Carries.dup rfl rfl) (.one (carries_loadContext cls host hr)))
  have fresh : w.heap.get? (w.nextSignal kind) = none := Arena.get?_eq_none_of_le _ (Nat.le_refl _)
  cases slot with
  | none =>
    have built : (Instr.invoke .special kind.constructor).Carries cls host
        ⟨f.moved 3 (.object r :: .object (w.nextSignal kind) :: .object (w.nextSignal kind) :: f.stack),
          w.withHeap (w.heap.alloc (.new kind.signalClass)).2⟩
        ⟨f.moved 4 (.object (w.nextSignal kind) :: f.stack), w.signalled kind (.object r) none⟩ :=
      Carries.constructor foreign hslot rfl
    refine ⟨_, _, _, opened.append (.one built),
      World.reaches_withHeap holds.live World.grows_signalled, fresh, World.get?_signalled, ?_, ?_⟩
    · rw [signalFields_context, hr]
    · exact signalFields_payload ..
  | some s =>
    obtain ⟨v, hv, hk⟩ := hpayload s rfl
    have built : (Instr.invoke .special kind.constructor).Carries cls host
        ⟨f.moved 4 (v :: .object r :: .object (w.nextSignal kind) :: .object (w.nextSignal kind) ::
          f.stack), w.withHeap (w.heap.alloc (.new kind.signalClass)).2⟩
        ⟨f.moved 5 (.object (w.nextSignal kind) :: f.stack), w.signalled kind (.object r) (some v)⟩ :=
      Carries.constructor foreign hslot rfl
    refine ⟨_, _, _, opened.append (.cons (Carries.load hv hk) (.one built)),
      World.reaches_withHeap holds.live World.grows_signalled, fresh, World.get?_signalled, ?_, ?_⟩
    · rw [signalFields_context, hr]
    · rw [signalFields_payload, Option.bind_some, hv]

end

/-! ## A signal on its way out -/

namespace Run

/-- An exception that is thrown is taken to a handler. -/
theorem act_athrow {cls : Class} {host : Host σ} {f : Frame} {w : World σ} {exc : ObjectId}
    {rest : List Value} {cs : List Caller} (fetched : fetch f = .ok (.plain .athrow))
    (h : f.stack = .object exc :: rest) (fuel : Option Nat) :
    (Run.paying ⟨f, cs, w⟩ fuel).act cls host =
      unwind host (w.paying fuel) exc (f.moved 1 rest) cs := by
  obtain ⟨method, locals, stack, place⟩ := f
  obtain rfl : stack = .object exc :: rest := h
  have pops : Frame.popRef ⟨method, locals, .object exc :: rest, place + 1⟩ = .ok (some exc) _ :=
    Frame.popRef_apply rfl
  rw [act_eq (r := Run.paying ⟨⟨method, locals, .object exc :: rest, place⟩, cs, w⟩ fuel) fetched]
  simp [Instr.step, PlainOp.step, pops, go]
  rfl

/-- The next instruction lets an exception leave the method, and nothing else changes. -/
def Leaves (cls : Class) (host : Host σ) (r : Run σ) (exc : ObjectId) : Prop :=
  ∀ fuel, (r.paying fuel).act cls host = thrown host (r.world.paying fuel) exc r.callers

end Run

namespace Weaving

variable {W : Weaving} {cls : Class} {host : Host σ} {f : Frame} {w : World σ} {exc : ObjectId}

/-- A region of a suspendable method covers the pieces between two labels. -/
theorem covers_eq (hm : f.method = W.result) {r : Region} (hr : r ∈ W.method.code.regions)
    (place : Nat) :
    ∃ a b, W.instrs[a]? = some (.label r.start) ∧ W.instrs[b]? = some (.label r.stop) ∧
      f.covers r place = .ok (decide (W.placeOf a ≤ place ∧ place < W.placeOf b)) := by
  obtain ⟨g, hg⟩ := W.exists_graph
  obtain ⟨start, stop, -⟩ := Graph.mem_of_build hg hr
  obtain ⟨a, ha⟩ := List.mem_iff_getElem?.1 (mem_definedLabels.1 start)
  obtain ⟨b, hb⟩ := List.mem_iff_getElem?.1 (mem_definedLabels.1 stop)
  refine ⟨a, b, ha, hb, ?_⟩
  rw [Frame.covers, target_label hm ha, target_label hm hb]
  by_cases h : W.placeOf a ≤ place
  · simp [bind, Except.bind, h]
    rfl
  · simp [bind, Except.bind, h]
    rfl

/-- The handler of a region of a suspendable method. -/
theorem target_handler (hm : f.method = W.result) {r : Region} (hr : r ∈ W.method.code.regions) :
    ∃ j, W.instrs[j]? = some (.label r.handler) ∧ W.plan.isHandler r.handler = true ∧
      f.target r.handler = .ok (W.placeOf j) := by
  obtain ⟨g, hg⟩ := W.exists_graph
  obtain ⟨-, -, handler⟩ := Graph.mem_of_build hg hr
  obtain ⟨j, hj⟩ := List.mem_iff_getElem?.1 (mem_definedLabels.1 handler)
  refine ⟨j, hj, ?_, target_label hm hj⟩
  rw [Plan.isHandler, W.made.method_eq]
  exact List.any_eq_true.2 ⟨r, hr, by simp⟩

/-- No region covers the common rethrow. -/
theorem handlerFor_end (hm : f.method = W.result) {place : Nat}
    (hp : W.placeOf W.instrs.length ≤ place) {regions : List Region}
    (hr : ∀ r ∈ regions, r ∈ W.method.code.regions) :
    f.handlerFor host w place exc regions = .ok none := by
  induction regions with
  | nil => rfl
  | cons r rest ih =>
    obtain ⟨a, b, -, hb, covers⟩ := covers_eq hm (hr r (by simp)) place
    have last : W.placeOf b ≤ place :=
      Nat.le_trans (placeOf_mono (Nat.le_of_lt (List.getElem?_eq_some_iff.1 hb).1)) hp
    have : ¬ (W.placeOf a ≤ place ∧ place < W.placeOf b) := fun h => absurd h.2 (by omega)
    rw [Frame.handlerFor, covers, decide_eq_false this]
    exact ih fun r h => hr r (by simp [h])

/-- The search for the handler of a signal does not fail, and what it finds is a handler. -/
theorem handlerFor_signal (hm : f.method = W.result) (signal : w.IsSignal host exc) (place : Nat)
    {regions : List Region} (hr : ∀ r ∈ regions, r ∈ W.method.code.regions) :
    f.handlerFor host w place exc regions = .ok none ∨
      ∃ j l, W.instrs[j]? = some (.label l) ∧ W.plan.isHandler l = true ∧
        f.handlerFor host w place exc regions = .ok (some (W.placeOf j)) := by
  induction regions with
  | nil => exact .inl rfl
  | cons r rest ih =>
    obtain ⟨a, b, -, -, covers⟩ := covers_eq hm (hr r (by simp)) place
    have others := ih fun r h => hr r (by simp [h])
    have tested : ∃ caught, r.catches host w exc = .ok caught := by
      unfold Region.catches
      split
      · exact ⟨true, rfl⟩
      · exact signal.tested _
    obtain ⟨caught, hcaught⟩ := tested
    rw [Frame.handlerFor, covers, hcaught]
    by_cases h : W.placeOf a ≤ place ∧ place < W.placeOf b
    · rw [decide_eq_true h]
      cases caught with
      | false => exact others
      | true =>
        obtain ⟨j, hj, handler, target⟩ := target_handler hm (hr r (by simp))
        rw [target]
        exact .inr ⟨j, _, hj, handler, rfl⟩
    · rw [decide_eq_false h]
      exact others

/-! ## The code that lets signals through -/

/-- The instructions that a signal passes, with their places: the label of a handler, the check behind it,
and the common rethrow. -/
inductive Passes (W : Weaving) : Nat → Instr → Prop
  | handler {j : Nat} {l : Label} (here : W.instrs[j]? = some (.label l))
      (handler : W.plan.isHandler l = true) : Passes W (W.placeOf j) (.label l)
  | copy {j : Nat} {l : Label} (here : W.instrs[j]? = some (.label l))
      (handler : W.plan.isHandler l = true) : Passes W (W.placeOf j + 1) (.plain (.shuffle .dup))
  | test {j : Nat} {l : Label} (here : W.instrs[j]? = some (.label l))
      (handler : W.plan.isHandler l = true) :
      Passes W (W.placeOf j + 2) (.typed .instanceOf Service.signalClass)
  | branch {j : Nat} {l r : Label} (here : W.instrs[j]? = some (.label l))
      (handler : W.plan.isHandler l = true) (rethrow : W.plan.rethrow = .ok r) :
      Passes W (W.placeOf j + 3) (.jump (.ifZero .ne) r)
  | rethrow {r : Label} (rethrow : W.plan.rethrow = .ok r) :
      Passes W (W.placeOf W.instrs.length) (.label r)
  | again : Passes W (W.placeOf W.instrs.length + 1) (.plain .athrow)

/-- A frame in front of an instruction that lets signals through. -/
def Passing (W : Weaving) (f : Frame) : Prop := ∃ i, Run.fetch f = .ok i ∧ W.Passes f.pc i

theorem passing_of_piece {j : Nat} {l : Label} (hm : f.method = W.result)
    (hj : W.instrs[j]? = some (.label l)) (handler : W.plan.isHandler l = true)
    (low : W.placeOf j ≤ f.pc) (high : f.pc < W.placeOf j + 4) : W.Passing f := by
  obtain ⟨r, hr, hp⟩ := piece_handler hj handler
  have fetched {k : Nat} {i : Instr} (hk : f.pc = W.placeOf j + k) (hi : (W.piece j)[k]? = some i) :
      Run.fetch f = .ok i := fetch_eq hm (hk ▸ getElem?_placeOf_add hi)
  have place : f.pc = W.placeOf j ∨ f.pc = W.placeOf j + 1 ∨ f.pc = W.placeOf j + 2 ∨
      f.pc = W.placeOf j + 3 := by omega
  rcases place with hk | hk | hk | hk
  · exact ⟨_, fetched (k := 0) hk (by rw [hp]; rfl), by rw [hk]; exact .handler hj handler⟩
  · exact ⟨_, fetched hk (by rw [hp]; rfl), by rw [hk]; exact .copy hj handler⟩
  · exact ⟨_, fetched hk (by rw [hp]; rfl), by rw [hk]; exact .test hj handler⟩
  · exact ⟨_, fetched hk (by rw [hp]; rfl), by rw [hk]; exact .branch hj handler hr⟩

theorem epilogue_eq {j : Nat} {l r : Label} (hj : W.instrs[j]? = some (.label l))
    (handler : W.plan.isHandler l = true) (hr : W.plan.rethrow = .ok r) :
    W.plan.epilogue = [.label r, .plain .athrow] := by
  have some : (W.plan.method.code.instrs.any fun i =>
      (i.defined?.map W.plan.isHandler).getD false) = true := by
    rw [W.made.method_eq]
    exact List.any_eq_true.2 ⟨.label l, List.mem_of_getElem? hj, by simpa [Instr.defined?] using handler⟩
  rw [Plan.epilogue, if_pos some, hr]

theorem getElem?_epilogue {k : Nat} {i : Instr} (h : W.plan.epilogue[k]? = some i) :
    W.stream[W.placeOf W.instrs.length + k]? = some i := by
  rw [← List.getElem?_drop, drop_placeOf,
    List.drop_eq_nil_of_le (Nat.le_of_eq W.length_pieces)]
  exact h

/-- A handler takes a signal to the common rethrow, by way of code that lets signals through.  It copies and
tests the signal, jumps to the common label behind the method, and throws there. -/
theorem takes_rethrow (cls : Class) {j : Nat} {l : Label} (hm : f.method = W.result)
    (hpc : f.pc = W.placeOf j) (hj : W.instrs[j]? = some (.label l))
    (handler : W.plan.isHandler l = true) (signal : w.IsSignal host exc)
    (hstack : f.stack = [.object exc]) (cs : List Caller) :
    ∃ g : Frame, Run.Takes cls host W.Passing 5 ⟨f, cs, w⟩ ⟨g, cs, w⟩ ∧
      g.method = W.result ∧ g.locals = f.locals ∧ g.pc = W.placeOf W.instrs.length + 1 ∧
      g.stack = [.object exc] ∧ Run.fetch g = .ok (.plain .athrow) := by
  obtain ⟨r, hr, hp⟩ := piece_handler hj handler
  have epilogue := epilogue_eq hj handler hr
  have reads := reads_piece hm hpc (List.getElem?_eq_some_iff.1 hj).1
  rw [hp] at reads
  have behind : f.Reads ([.label l, .plain (.shuffle .dup), .typed .instanceOf Service.signalClass] ++
      [.jump (.ifZero .ne) r]) := reads
  have check : Performs cls host
      [.label l, .plain (.shuffle .dup), .typed .instanceOf Service.signalClass] ⟨f, w⟩
      ⟨f.moved 3 [.int 1, .object exc], w⟩ :=
    .cons (Carries.label l) (.cons (Carries.dup (f := f.moved 1 f.stack) hstack rfl)
      (.one (Carries.instanceOf (f := f.moved 2 [.object exc, .object exc]) rfl signal.known)))
  have rethrow : W.stream[W.placeOf W.instrs.length]? = some (.label r) :=
    getElem?_epilogue (k := 0) (by rw [epilogue]; rfl)
  have again : W.stream[W.placeOf W.instrs.length + 1]? = some (.plain .athrow) :=
    getElem?_epilogue (by rw [epilogue]; rfl)
  have jump : Run.Leads cls host ⟨f.moved 3 [.int 1, .object exc], cs, w⟩
      ⟨⟨f.method, f.locals, [.object exc], W.placeOf W.instrs.length⟩, cs, w⟩ :=
    Run.Leads.ifZero (f := f.moved 3 [.int 1, .object exc])
      (Frame.Reads.right (g := f.moved 3 [.int 1, .object exc]) behind rfl rfl).fetch rfl rfl
      (target_eq hm rethrow) cs
  have atLabel : Run.fetch ⟨f.method, f.locals, [.object exc], W.placeOf W.instrs.length⟩ =
      .ok (.label r) := fetch_eq (f := ⟨f.method, f.locals, [.object exc], _⟩) hm rethrow
  have label : Run.Leads cls host
      ⟨⟨f.method, f.locals, [.object exc], W.placeOf W.instrs.length⟩, cs, w⟩
      ⟨⟨f.method, f.locals, [.object exc], W.placeOf W.instrs.length + 1⟩, cs, w⟩ :=
    (Carries.label r).leads atLabel cs
  have inPiece {g : Frame} (same : g.method = f.method) (low : f.pc ≤ g.pc) (high : g.pc < f.pc + 4) :
      W.Passing g := passing_of_piece (same.trans hm) hj handler (hpc ▸ low) (hpc ▸ high)
  refine ⟨_, (check.takes behind.left cs fun g same low high _ => inPiece same low ?_).trans
    (.step (inPiece (g := f.moved 3 _) rfl ?_ ?_) jump (.one ⟨_, atLabel, .rethrow hr⟩ label)),
    hm, rfl, rfl, rfl, fetch_eq (f := ⟨f.method, f.locals, [.object exc],
      W.placeOf W.instrs.length + 1⟩) hm again⟩
  · exact Nat.lt_succ_of_lt high
  · exact Nat.le_add_right ..
  · exact Nat.lt_succ_self _

/-! ## Out of the method -/

/-- A signal passes only code that lets signals through, and leaves the method: at once, or by way of one
handler and the common rethrow. -/
theorem unwind_signal (cls : Class) (hm : f.method = W.result) (signal : w.IsSignal host exc)
    (cs : List Caller) :
    (∀ fuel, Run.unwind host (w.paying fuel) exc f cs = Run.thrown host (w.paying fuel) exc cs) ∨
      ∃ g h : Frame,
        (∀ fuel, Run.unwind host (w.paying fuel) exc f cs = .running ⟨g, cs, w.paying fuel⟩) ∧
        Run.Takes cls host W.Passing 5 ⟨g, cs, w⟩ ⟨h, cs, w⟩ ∧ W.Passing h ∧
        Run.Leaves cls host ⟨h, cs, w⟩ exc := by
  have search (fuel : Option Nat) :
      f.handlerFor host (w.paying fuel) (f.pc - 1) exc f.method.code.regions =
        f.handlerFor host w (f.pc - 1) exc W.method.code.regions := by
    have outside : (w.paying fuel).outside = w.outside := rfl
    rw [hm]
    exact Run.handlerFor_congr rfl outside rfl _ _
  rcases handlerFor_signal hm signal (f.pc - 1) (fun r h => h) with none | ⟨j, l, hj, handler, found⟩
  · refine .inl fun fuel => ?_
    rw [Run.unwind_eq, search, none]
  · obtain ⟨g, taken, hg, -, hpc, hgs, fetched⟩ := takes_rethrow cls
      (f := f.catching exc (W.placeOf j)) hm rfl hj handler signal rfl cs
    refine .inr ⟨_, g, fun fuel => ?_, taken, ⟨_, fetched, ?_⟩, fun fuel => ?_⟩
    · rw [Run.unwind_eq, search, found]
    · rw [hpc]
      exact .again
    · have free : (g.moved 1 []).handlerFor host (w.paying fuel) g.pc exc W.result.code.regions =
          .ok none := handlerFor_end (f := g.moved 1 []) hg (by omega) fun r h => h
      rw [Run.act_athrow fetched hgs, Run.unwind_eq, Frame.method_moved, hg, Frame.pc_moved,
        Nat.add_sub_cancel, free]

/-- A signal that is thrown leaves the method, whatever handlers there are. -/
theorem signal_leaves (hm : f.method = W.result) (fetched : Run.fetch f = .ok (.plain .athrow))
    {rest : List Value} (hstack : f.stack = .object exc :: rest) (signal : w.IsSignal host exc)
    (cs : List Caller) : ∃ n, Run.Throws cls host n ⟨f, cs, w⟩ w exc := by
  rcases unwind_signal cls (f := f.moved 1 rest) hm signal cs with out | ⟨g, h, caught, taken, -, leaves⟩
  · refine ⟨1, Run.throws_of_act fun fuel => ?_⟩
    rw [Run.act_athrow fetched hstack, out]
  · have first : Run.Leads cls host ⟨f, cs, w⟩ ⟨g, cs, w⟩ := fun fuel => by
      rw [Run.act_athrow fetched hstack, caught]
      rfl
    have whole : Run.Takes cls host (fun _ => True) 6 ⟨f, cs, w⟩ ⟨h, cs, w⟩ :=
      .step trivial first (taken.mono fun _ _ => trivial)
    exact ⟨_, whole.throws rfl (Run.throws_of_act leaves)⟩

end Weaving

end Suspension
