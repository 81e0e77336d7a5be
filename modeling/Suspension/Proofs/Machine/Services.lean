import Suspension.Proofs.Machine.Growth
import Suspension.Proofs.Success
import Suspension.Weave.Method

/-!
# The effect of services

What the instructions do that suspendable code is made of, in a frame that holds a handle of a live
context.

## Main results
* `Carries.load`, `Carries.store`, `Carries.pushInt`: instructions on the frame.
* `Carries.service`: a call on a handle, and from it `Carries.localVars`, `Carries.storeVar` and the like.
-/

namespace Suspension

variable {σ : Type}

/-- What the instructions of a storage move are the values of its kind, and return addresses move like
references. -/
theorem Value.movedBy_eq_ok {k : Storage} {v u : Value} :
    v.movedBy k = .ok u ↔ v.kind.mover = k ∧ u = v := by
  cases k <;> cases v <;>
    simp [movedBy, ofStorage, asReferenceLike, kind, Kind.mover, Storage.kind, eq_comm]

theorem toInt32_toInt8 {v : Int32} (low : -128 ≤ v) (high : v ≤ 127) : v.toInt8.toInt32 = v := by
  rw [Int32.le_iff_toInt_le] at low high
  have low : -128 ≤ v.toInt := low
  have high : v.toInt ≤ 127 := high
  apply Int32.toInt.inj
  rw [Int8.toInt_toInt32, Int32.toInt_toInt8]
  exact Int.bmod_eq_of_le (by omega) (by omega)

theorem toInt32_toInt16 {v : Int32} (low : -32768 ≤ v) (high : v ≤ 32767) :
    v.toInt16.toInt32 = v := by
  rw [Int32.le_iff_toInt_le] at low high
  have low : -32768 ≤ v.toInt := low
  have high : v.toInt ≤ 32767 := high
  apply Int32.toInt.inj
  rw [Int16.toInt_toInt32, Int32.toInt_toInt16]
  exact Int.bmod_eq_of_le (by omega) (by omega)

namespace World

/-- The same world with another context under an id. -/
def replace (w : World σ) (id : ContextId) (c : Context) : World σ :=
  { w with contexts := w.contexts.set id c }

/-- The same world with another heap. -/
def withHeap (w : World σ) (heap : Heap) : World σ := { w with heap }

variable {w : World σ} {id : ContextId} {c : Context}

theorem reaches_replace (c' : Context) : w.Reaches id c' (w.replace id c') :=
  ⟨rfl, .refl _, rfl, rfl, rfl⟩

theorem reaches_withHeap (h : w.contexts.get? id = some c) {heap : Heap} (grows : w.heap.Grows heap) :
    w.Reaches id c (w.withHeap heap) :=
  ⟨(Contexts.set_get? h).symm, grows, rfl, rfl, rfl⟩

theorem context_apply (h : w.contexts.get? id = some c) : context id w = .ok c w := by
  simp [context, Contexts.get, h]

theorem changeContext_apply (h : w.contexts.get? id = some c) (f : Context → Context) :
    changeContext id f w = .ok () (w.replace id (f c)) := by
  simp only [changeContext, changeContexts, Contexts.modify, Contexts.get, h, replace]
  rfl

end World

/-! ## Queued copies -/

namespace Contexts

/-- A context was added under a new id and queued. -/
structure Queues (copy : ContextId) (c : Context) (cs cs' : Contexts) : Prop where
  fresh : cs.get? copy = none
  get? : ∀ other, cs'.get? other = if other = copy then some c else cs.get? other
  pending : cs'.pending = some copy

variable {cs : Contexts} {id : ContextId} {c : Context}

theorem get?_add (cs : Contexts) (c : Context) (other : ContextId) :
    (cs.add c).2.get? other = if other = (cs.add c).1 then some c else cs.get? other := by
  have same : other.index = cs.table.nextId ↔ other = (cs.add c).1 := by
    cases other
    simp [add]
  refine (Arena.get?_push ..).trans ?_
  simp only [same]
  rfl

theorem queues_add (cs : Contexts) (c : Context) :
    Queues (cs.add c).1 c cs { (cs.add c).2 with pending := some (cs.add c).1 } :=
  ⟨Arena.get?_eq_none_of_le _ (Nat.le_refl _), get?_add cs c, rfl⟩

theorem resume_queues (h : cs.get? id = some c) :
    ∃ copy cs', cs.resume id = .ok (copy, cs') ∧
      Queues copy { c with parent := some id, registered := false } cs cs' := by
  refine ⟨_, _, ?_, queues_add cs _⟩
  simp only [resume, get, h]
  rfl

theorem answer_queues (h : cs.get? id = some c) (v : Value) :
    ∃ copy cs', cs.answer id v = .ok (copy, cs') ∧
      Queues copy { c with parent := some id, registered := false, callAnswer := some v } cs cs' := by
  obtain ⟨copy, cs', resumed, queued⟩ := resume_queues h
  have live := queued.get? copy
  rw [if_pos rfl] at live
  refine ⟨copy, cs'.set copy { c with parent := some id, registered := false, callAnswer := some v },
    ?_, queued.fresh, fun other => ?_, queued.pending⟩
  · simp only [answer, resumed, modify, get, bind, Except.bind, live]
    rfl
  · by_cases same : other = copy
    · rw [if_pos same, same, get?_set_self live]
    · rw [get?_set_ne same, queued.get?, if_neg same, if_neg same]

end Contexts

/-- A context was queued, and nothing else changed but for an announcement. -/
structure World.Queues (copy : ContextId) (c : Context) (w w' : World σ) : Prop where
  contexts : Contexts.Queues copy c w.contexts w'.contexts
  heap : w'.heap = w.heap
  statics : w'.statics = w.statics
  outside : w'.outside = w.outside
  fuel : w'.fuel = w.fuel

namespace World

variable {w : World σ} {id : ContextId} {c : Context}

/-- A context that is continued is copied. -/
theorem resume_queues (h : w.contexts.get? id = some c) :
    ∃ copy w', resume id w = .ok copy w' ∧
      w.Queues copy { c with parent := some id, registered := false } w' := by
  obtain ⟨copy, cs, resumed, queued⟩ := Contexts.resume_queues h
  refine ⟨copy, { w with contexts := cs, events := w.events ++ [Contexts.resumed id copy] }, ?_,
    queued, rfl, rfl, rfl, rfl⟩
  simp [resume, changeContexts, resumed, report]

/-- A context that is continued with an answer is copied, and the copy has the answer. -/
theorem answer_queues (h : w.contexts.get? id = some c) (v : Value) :
    ∃ copy w', answer id v w = .ok copy w' ∧
      w.Queues copy { c with parent := some id, registered := false, callAnswer := some v } w' := by
  obtain ⟨copy, cs, answered, queued⟩ := Contexts.answer_queues h v
  refine ⟨copy, { w with contexts := cs, events := w.events ++ [Contexts.resumed id copy] }, ?_,
    queued, rfl, rfl, rfl, rfl⟩
  simp [answer, changeContexts, answered, report]

end World

/-! ## The services as they are called -/

/-- What the typed getter of a storage answers. -/
def Store.recall (s : Store) (k : Storage) (index : Int32) : Value :=
  if k = .reference then s.getReferenceLike index else s.get k index

theorem Store.mover_recall (s : Store) (k : Storage) (index : Int32) :
    (s.recall k index).kind.mover = k := by
  unfold Store.recall
  split
  · next h =>
    subst h
    unfold getReferenceLike
    split <;> rfl
  · have := kind_read k (s.slot? index)
    rw [get, this]
    cases k <;> rfl

/-- The type by which services take and hand out values of a storage. -/
def Storage.serviceTag : Storage → Tag
  | .int => .int
  | .long => .long
  | .float => .float
  | .double => .double
  | .reference => .object

namespace StoreService

/-- The signature of a method of a store. -/
def signature : StoreService → Signature
  | .store k => ⟨[.int, k.serviceTag], none⟩
  | .get k => ⟨[.int], some k.serviceTag⟩
  | .push k => ⟨[k.serviceTag], none⟩
  | .pop k => ⟨[], some k.serviceTag⟩
  | .increment => ⟨[.int, .int], none⟩

theorem callSignature_ref (s : StoreService) : callSignature s.ref.descriptor = .ok s.signature := by
  cases s with
  | increment => exact eq_ok_of_toOption (by decide +kernel)
  | store k | get k | push k | pop k => cases k <;> exact eq_ok_of_toOption (by decide +kernel)

theorem ofName?_ref (s : StoreService) : ofName? s.ref.name = some s := by
  cases s with
  | increment => decide
  | store k | get k | push k | pop k => cases k <;> decide

theorem owner_ref (s : StoreService) : s.ref.owner = Service.storeClass := by
  cases s <;> rfl

variable {k : Storage} {v : Value} {index amount : Int32} {s : Store}

theorem apply_store (h : v.kind.mover = k) :
    (store k).apply [.int index, v] s = .ok (none, s.put index v) := by
  show (do let v ← v.movedBy k; return (none, s.put index v)) = _
  rw [Value.movedBy_eq_ok.2 ⟨h, rfl⟩]
  rfl

theorem apply_get : (get k).apply [.int index] s = .ok (some (s.recall k index), s) := rfl

theorem apply_push (h : v.kind.mover = k) : (push k).apply [v] s = .ok (none, s.push v) := by
  show (do let v ← v.movedBy k; return (none, s.push v)) = _
  rw [Value.movedBy_eq_ok.2 ⟨h, rfl⟩]
  rfl

theorem apply_pop : (pop k).apply [] s = .ok (some (s.top k), s.pop) := rfl

theorem apply_increment :
    increment.apply [.int index, .int amount] s = .ok (none, s.increment index amount) := rfl

theorem ref_ne (s : StoreService) : s.ref ≠ Service.createOrResetContext := by
  intro h
  have := s.owner_ref.symm.trans (congrArg MemberRef.owner h)
  exact absurd this (by decide)

end StoreService

namespace ContextService

/-- The signature of a method of a context. -/
def signature : ContextService → Signature
  | .getLabel => ⟨[], some .int⟩
  | .setLabel => ⟨[.int], none⟩
  | .clearLabel | .register | .deactivate => ⟨[], none⟩
  | .getLocalVars | .getLocalStack => ⟨[], some (.ref Service.storeClass)⟩
  | .getCallAnswer => ⟨[], some .object⟩

theorem callSignature_ref (s : ContextService) :
    callSignature s.ref.descriptor = .ok s.signature := by
  cases s <;> exact eq_ok_of_toOption (by decide +kernel)

theorem ofName?_ref (s : ContextService) : ofName? s.ref.name = some s := by
  cases s <;> decide

theorem owner_ref (s : ContextService) : s.ref.owner = Service.contextClass := by
  cases s <;> rfl

theorem ref_ne (s : ContextService) : s.ref ≠ Service.createOrResetContext := by
  cases s <;> decide

end ContextService

namespace Carries

variable {cls : Class} {host : Host σ} {f : Frame} {w w' : World σ} {v : Value} {rest : List Value}
  {slot : Slot} {k : Storage}

/-! ## Instructions on the frame -/

theorem load (h : f.locals[slot]? = some v) (hk : v.kind.mover = k) :
    (Instr.load k slot).Carries cls host ⟨f, w⟩ ⟨f.moved 1 (v :: f.stack), w⟩ := by
  refine ⟨fun fuel => ?_, rfl, rfl⟩
  have moved : v.movedBy k = .ok v := Value.movedBy_eq_ok.2 ⟨hk, rfl⟩
  simp [Instr.step, SlotOp.step, Frame.load, Situation.past, Situation.paying, h, moved]
  rfl

theorem store (h : f.stack = v :: rest) (hk : v.kind.mover = k) :
    (Instr.store k slot).Carries cls host ⟨f, w⟩ ⟨(f.setLocal slot v).moved 1 rest, w⟩ := by
  refine ⟨fun fuel => ?_, rfl, rfl⟩
  have moved : v.movedBy k = .ok v := Value.movedBy_eq_ok.2 ⟨hk, rfl⟩
  simp [Instr.step, SlotOp.step, Frame.store, Situation.past, Situation.paying, Frame.pop, h, moved]
  rfl

theorem iinc {n : Int32} {amount : Int16} (h : f.locals[slot]? = some (.int n)) :
    (Instr.iinc slot amount).Carries cls host ⟨f, w⟩
      ⟨(f.setLocal slot (.int (n + amount.toInt32))).moved 1 f.stack, w⟩ := by
  refine ⟨fun fuel => ?_, rfl, rfl⟩
  simp [Instr.step, Frame.increment, Situation.past, Situation.paying, h, Value.asInt]
  rfl

theorem pushInt (n : Int32) :
    (Suspension.pushInt n).Carries cls host ⟨f, w⟩ ⟨f.moved 1 (.int n :: f.stack), w⟩ := by
  refine ⟨fun fuel => ?_, rfl, rfl⟩
  unfold Suspension.pushInt
  split
  · rfl
  · split
    · next h => simp [Instr.step, Situation.past, Situation.paying, toInt32_toInt8 h.1 h.2]; rfl
    · split
      · next h => simp [Instr.step, Situation.past, Situation.paying, toInt32_toInt16 h.1 h.2]; rfl
      · rfl

theorem aconstNull :
    (Instr.plain .aconstNull).Carries cls host ⟨f, w⟩ ⟨f.moved 1 (.null :: f.stack), w⟩ :=
  ⟨fun _ => rfl, rfl, rfl⟩

theorem label (l : Label) :
    (Instr.label l).Carries cls host ⟨f, w⟩ ⟨f.moved 1 f.stack, w⟩ :=
  ⟨fun _ => rfl, rfl, rfl⟩

theorem new (className : String) :
    (Instr.typed .new className).Carries cls host ⟨f, w⟩
      ⟨f.moved 1 (.object (w.heap.alloc (.new className)).1 :: f.stack),
        w.withHeap (w.heap.alloc (.new className)).2⟩ :=
  ⟨fun _ => rfl, rfl, rfl⟩

theorem dup (h : f.stack = v :: rest) (one : v.width = .one) :
    (Instr.plain (.shuffle .dup)).Carries cls host ⟨f, w⟩ ⟨f.moved 1 (v :: v :: rest), w⟩ := by
  refine ⟨fun fuel => ?_, rfl, rfl⟩
  have words : v.words = 1 := by simp [Value.words, one, Width.words]
  simp [Instr.step, PlainOp.step, Frame.shuffle, Frame.dup, Frame.popWords, Frame.takeValues,
    Frame.pushAll, Situation.past, Situation.paying, h, words, Except.map]
  rfl

theorem pop (h : f.stack = v :: rest) (one : v.width = .one) :
    (Instr.plain (.shuffle .pop)).Carries cls host ⟨f, w⟩ ⟨f.moved 1 rest, w⟩ := by
  refine ⟨fun fuel => ?_, rfl, rfl⟩
  have words : v.words = 1 := by simp [Value.words, one, Width.words]
  simp [Instr.step, PlainOp.step, Frame.shuffle, Frame.popWords, Frame.takeValues,
    Situation.past, Situation.paying, h, words, Except.map]
  rfl

/-- A cast that is passed: null passes every cast. -/
theorem checkCast {target : String} (h : f.stack = v :: rest)
    (passes : v = .null ∨ ∃ r, v = .object r ∧ w.instanceOf host r target = .ok true) :
    (Instr.typed .checkCast target).Carries cls host ⟨f, w⟩ ⟨f.moved 1 f.stack, w⟩ := by
  refine ⟨fun fuel => ?_, rfl, rfl⟩
  obtain ⟨method, locals, stack, pc⟩ := f
  obtain rfl : stack = v :: rest := h
  rcases passes with rfl | ⟨r, rfl, hr⟩
  · have pops : Frame.popRef ⟨method, locals, .null :: rest, pc + 1⟩ = .ok none _ :=
      Frame.popRef_apply rfl
    simp [Instr.step, ClassOp.step, Situation.past, Situation.paying, pops, Frame.moved]
  · have pops : Frame.popRef ⟨method, locals, .object r :: rest, pc + 1⟩ = .ok (some r) _ :=
      Frame.popRef_apply rfl
    simp [Instr.step, ClassOp.step, Situation.past, Situation.paying, pops, World.isOf, hr,
      Frame.moved]

/-- The test of the class of an object. -/
theorem instanceOf {target : String} {r : ObjectId} {b : Bool} (h : f.stack = .object r :: rest)
    (is : w.instanceOf host r target = .ok b) :
    (Instr.typed .instanceOf target).Carries cls host ⟨f, w⟩
      ⟨f.moved 1 (.int (if b then 1 else 0) :: rest), w⟩ := by
  refine ⟨fun fuel => ?_, rfl, rfl⟩
  obtain ⟨method, locals, stack, pc⟩ := f
  obtain rfl : stack = .object r :: rest := h
  have pops : Frame.popRef ⟨method, locals, .object r :: rest, pc + 1⟩ = .ok (some r) _ :=
    Frame.popRef_apply rfl
  cases b <;>
    simp [Instr.step, ClassOp.step, Situation.past, Situation.paying, pops, World.isOf, is,
      Frame.moved]

/-- A jump on an int that is not taken. -/
theorem ifZero {t : Test} {l : Label} {n : Int32} (h : f.stack = .int n :: rest)
    (fails : t.holds n 0 = false) :
    (Instr.jump (.ifZero t) l).Carries cls host ⟨f, w⟩ ⟨f.moved 1 rest, w⟩ := by
  refine ⟨fun fuel => ?_, rfl, rfl⟩
  obtain ⟨method, locals, stack, pc⟩ := f
  obtain rfl : stack = .int n :: rest := h
  have pops : Frame.popInt ⟨method, locals, .int n :: rest, pc + 1⟩ = .ok n _ :=
    Frame.popInt_apply rfl
  simp [Instr.step, JumpOp.step, Situation.past, Situation.paying, pops, fails, Flow.branch,
    Frame.moved]

/-! ## Calls on handles -/

/-- What a call leaves on the stack: a result that is missing is zero. -/
def received (result : Option Tag) (v : Option Value) (rest : List Value) : List Value :=
  match result with
  | some t => v.getD t.zero :: rest
  | none => rest

theorem receive_eq (f : Frame) (result : Option Tag) (v : Option Value) :
    f.receive result v = { f with stack := received result v f.stack } := by
  cases result <;> rfl

section Services

variable {r : ObjectId} {id : ContextId} {face : ContextFace} {c : Context} {m : MemberRef}
  {sig : Signature} (args : List Value) {answer : Option Value}

/-- A call of a service on a handle.  It is carried out at once: the operands, the handle, the service, and the
answer. -/
theorem service (hsig : callSignature m.descriptor = .ok sig)
    (hlen : sig.params.length = args.length)
    (howner : m.owner = Service.contextClass ∨ m.owner = Service.storeClass)
    (hm : m ≠ Service.createOrResetContext) (hstack : f.stack = args.reverse ++ .object r :: rest)
    (hr : w.heap.get? r = some (.handle face id))
    (hcall : ∀ fuel, World.callHandle m args id face (w.paying fuel) =
      .ok answer (w'.paying fuel)) :
    (callService m).Carries cls host ⟨f, w⟩ ⟨f.moved 1 (received sig.result answer rest), w'⟩ := by
  refine ⟨fun fuel => ?_, rfl, rfl⟩
  have pops : Frame.popMany sig.params.length { f with pc := f.pc + 1 } =
      .ok args ⟨f.method, f.locals, .object r :: rest, f.pc + 1⟩ := by
    rw [hlen]
    exact Frame.popMany_apply hstack
  have notNull : Value.object r ≠ .null := by simp [Value.object, Value.null]
  have served : World.callService m (some (.object r)) args (w.paying fuel) =
      .ok answer (w'.paying fuel) := by
    have found : World.object r (w.paying fuel) = .ok (.handle face id) (w.paying fuel) :=
      World.object_apply hr
    simp [World.callService, hm, Value.object, Value.asRef, found, hcall]
  simp [callService, Instr.step, MemberRef.call, Situation.past, Situation.paying, hsig, pops,
    Frame.pop, InvokeKind.hasReceiver, notNull, howner, served, MemberRef.call.finish, receive_eq]
  rfl

/-- A call of a method of a context. -/
theorem contextService (s : ContextService) (hlen : s.signature.params.length = args.length)
    (hstack : f.stack = args.reverse ++ .object r :: rest)
    (hr : w.heap.get? r = some (.handle .context id))
    (hcall : ∀ fuel, s.apply args id (w.paying fuel) = .ok answer (w'.paying fuel)) :
    (callService s.ref).Carries cls host ⟨f, w⟩
      ⟨f.moved 1 (received s.signature.result answer rest), w'⟩ := by
  refine service args s.callSignature_ref hlen (.inl s.owner_ref) s.ref_ne hstack hr fun fuel => ?_
  rw [World.callHandle, s.ofName?_ref]
  exact hcall fuel

/-- A call of a method of the store of the local slots. -/
theorem varsService (s : StoreService) (hlen : s.signature.params.length = args.length)
    (hstack : f.stack = args.reverse ++ .object r :: rest)
    (hr : w.heap.get? r = some (.handle .localVars id)) (live : w.contexts.get? id = some c)
    {vars : Store} (hcall : s.apply args c.vars = .ok (answer, vars)) :
    (callService s.ref).Carries cls host ⟨f, w⟩
      ⟨f.moved 1 (received s.signature.result answer rest), w.replace id { c with vars }⟩ := by
  refine service args s.callSignature_ref hlen (.inr s.owner_ref) s.ref_ne hstack hr fun fuel => ?_
  have live' : (w.paying fuel).contexts.get? id = some c := live
  simp [World.callHandle, World.callStore, s.ofName?_ref, World.context_apply live', hcall,
    World.changeContext_apply live']
  rfl

/-- A call of a method of the store of the operand stack. -/
theorem stackService (s : StoreService) (hlen : s.signature.params.length = args.length)
    (hstack : f.stack = args.reverse ++ .object r :: rest)
    (hr : w.heap.get? r = some (.handle .localStack id)) (live : w.contexts.get? id = some c)
    {stack : Store} (hcall : s.apply args c.stack = .ok (answer, stack)) :
    (callService s.ref).Carries cls host ⟨f, w⟩
      ⟨f.moved 1 (received s.signature.result answer rest), w.replace id { c with stack }⟩ := by
  refine service args s.callSignature_ref hlen (.inr s.owner_ref) s.ref_ne hstack hr fun fuel => ?_
  have live' : (w.paying fuel).contexts.get? id = some c := live
  simp [World.callHandle, World.callStore, s.ofName?_ref, World.context_apply live', hcall,
    World.changeContext_apply live']
  rfl

end Services

end Carries

/-- A jump on an int that is taken. -/
theorem Run.Leads.ifZero {cls : Class} {host : Host σ} {f : Frame} {w : World σ} {t : Test}
    {l : Label} {n : Int32} {pc : Nat} {rest : List Value}
    (fetched : Run.fetch f = .ok (.jump (.ifZero t) l)) (h : f.stack = .int n :: rest)
    (holds : t.holds n 0 = true) (target : f.target l = .ok pc) (cs : List Caller) :
    Run.Leads cls host ⟨f, cs, w⟩ ⟨{ f with stack := rest, pc }, cs, w⟩ := by
  obtain ⟨method, locals, stack, place⟩ := f
  obtain rfl : stack = .int n :: rest := h
  have pops : Frame.popInt ⟨method, locals, .int n :: rest, place + 1⟩ = .ok n _ :=
    Frame.popInt_apply rfl
  refine Run.Leads.jump ⟨method, locals, rest, place + 1⟩ fetched (fun fuel => ?_) target cs
  simp [Instr.step, JumpOp.step, pops, holds, Flow.branch]

/-- A switch over consecutive keys. -/
theorem Run.Leads.tableSwitch {cls : Class} {host : Host σ} {f : Frame} {w : World σ}
    {low high key : Int32} {default : Label} {targets : List Label} {pc : Nat} {rest : List Value}
    (fetched : Run.fetch f = .ok (.tableSwitch low high default targets))
    (h : f.stack = .int key :: rest)
    (target : f.target (Suspension.tableTarget low high default targets key) = .ok pc)
    (cs : List Caller) :
    Run.Leads cls host ⟨f, cs, w⟩ ⟨{ f with stack := rest, pc }, cs, w⟩ := by
  obtain ⟨method, locals, stack, place⟩ := f
  obtain rfl : stack = .int key :: rest := h
  have pops : Frame.popInt ⟨method, locals, .int key :: rest, place + 1⟩ = .ok key _ :=
    Frame.popInt_apply rfl
  refine Run.Leads.jump ⟨method, locals, rest, place + 1⟩ fetched (fun fuel => ?_) target cs
  simp [Instr.step, pops]

end Suspension
