import Suspension.Proofs.Machine.Calm

/-!
# What single instructions do

What is known of the state behind an instruction that was carried out: what a push leaves on the stack, what
becomes of a call on a handle, and where an exception comes from.

## Main definitions
* `Instr.pushes`: instructions that push one value and do nothing else.
* `RaisesNew`: an operation that raises no exceptions but new ones.

## Main results
* `Instr.step_pushes`: what a push does.
* `Instr.step_callService`: a call of a service is a call on its handle.
* `Instr.raises`: what is raised was thrown, or is new.
-/

namespace Suspension

variable {σ : Type} {cls : Class} {host : Host σ} {s t : Situation σ} {f : Frame} {w : World σ}
  {flow : Flow}

/-! ## Steps of a run -/

namespace Run

/-- A run that goes on has carried out its next instruction. -/
theorem act_eq_running {r r' : Run σ} (h : r.act cls host = .running r') :
    ∃ i flow t, fetch r.frame = .ok i ∧
      i.step cls host ⟨r.frame.moved 1 r.frame.stack, r.world⟩ = .ok flow t ∧
      go host ⟨t.frame, r.callers, t.world⟩ flow = .running r' := by
  unfold act at h
  split at h
  · cases h
  · next i fetched =>
    split at h
    · next flow t step => exact ⟨i, flow, t, fetched, step, h⟩
    · cases h

theorem getElem?_of_fetch {f : Frame} {i : Instr} (h : fetch f = .ok i) :
    f.method.code.instrs[f.pc]? = some i := by
  unfold fetch at h
  split at h
  · next found =>
    cases h
    exact found
  · cases h

theorem fetch_eq_ok {f : Frame} {i : Instr} (h : f.method.code.instrs[f.pc]? = some i) : fetch f = .ok i := by
  rw [fetch, h]

theorem mem_of_fetch {f : Frame} {i : Instr} (h : fetch f = .ok i) : i ∈ f.method.code.instrs :=
  List.mem_of_getElem? (getElem?_of_fetch h)

/-- An exception that is not caught ends a run. -/
theorem unwind_eq_completed {w w' : World σ} {exc : ObjectId} {f : Frame} {cs : List Caller} {c : Completion}
    (h : unwind host w exc f cs = .completed c w') : c = .threw exc ∧ w' = w := by
  induction cs generalizing f with
  | nil =>
    rw [unwind_eq] at h
    split at h
    · cases h
    · cases h
    · cases h
      exact ⟨rfl, rfl⟩
  | cons caller cs ih =>
    rw [unwind_eq] at h
    split at h
    · cases h
    · cases h
    · exact ih h

/-- A run that ends with an exception has just raised it.  Only a raise that nothing handles ends a run so;
every other flow goes on or ends otherwise. -/
theorem act_eq_threw {r : Run σ} {exc : ObjectId} {w : World σ}
    (h : r.act cls host = .completed (.threw exc) w) :
    ∃ i t, fetch r.frame = .ok i ∧
      i.step cls host ⟨r.frame.moved 1 r.frame.stack, r.world⟩ = .ok (.raise exc) t ∧ t.world = w := by
  unfold act at h
  split at h
  · cases h
  · next i fetched =>
    split at h
    · next flow t step =>
      cases flow with
      | raise exc' =>
        obtain ⟨same, rfl⟩ := unwind_eq_completed h
        cases same
        exact ⟨i, t, fetched, step, rfl⟩
      | leave v =>
        unfold go leave at h
        simp only at h
        split at h <;> cases h
      | next | goTo => cases h
      | jump | enter =>
        unfold go at h
        simp only at h
        split at h <;> cases h
    · cases h

/-- An instruction that does not fail pays what it costs, and is carried out. -/
theorem exists_act {r : Run σ} (ends : ∀ e w, r.advance cls host ≠ .failed e w) :
    ∃ fuel, r.advance cls host = (r.paying fuel).act cls host := by
  rw [advance_eq] at ends ⊢
  split
  · exact ⟨r.world.fuel, rfl⟩
  · next empty =>
    rw [empty] at ends
    exact absurd rfl (ends _ _)
  · next fuel _ => exact ⟨some fuel, rfl⟩

/-- A run that goes on has paid for an instruction and carried it out. -/
theorem act_of_advance {r r' : Run σ} (h : r.advance cls host = .running r') :
    ∃ fuel, (r.paying fuel).act cls host = .running r' := by
  have ends : ∀ e w, r.advance cls host ≠ .failed e w := by
    rw [h]
    nofun
  obtain ⟨fuel, same⟩ := exists_act ends
  exact ⟨fuel, same ▸ h⟩

/-- A run that ends has taken a last step. -/
theorem exists_last {m : Nat} {r : Run σ} {c : Completion} {w : World σ}
    (h : r.follow cls host m = .completed c w) :
    ∃ n x, r.follow cls host n = .running x ∧ x.advance cls host = .completed c w := by
  induction m generalizing r with
  | zero => cases h
  | succ m ih =>
    rw [follow] at h
    split at h
    · next r' first =>
      obtain ⟨n, x, reached, last⟩ := ih h
      refine ⟨n + 1, x, ?_, last⟩
      rw [follow, first]
      exact reached
    · exact ⟨0, r, rfl, h⟩

/-- A run that has taken some steps takes the next one from where it has come to. -/
theorem follow_succ {k : Nat} {r x : Run σ} (reached : r.follow cls host k = .running x) :
    r.follow cls host (k + 1) = x.advance cls host := by
  rw [follow_add, reached]
  show x.follow cls host 1 = _
  rw [follow]
  cases x.advance cls host <;> rfl

/-- A run that has taken some steps has taken a last one. -/
theorem exists_before {k : Nat} {r r' : Run σ} (reached : r.follow cls host (k + 1) = .running r') :
    ∃ x, r.follow cls host k = .running x ∧ x.advance cls host = .running r' := by
  cases before : r.follow cls host k with
  | running x => exact ⟨x, rfl, (follow_succ before).symm.trans reached⟩
  | completed | failed =>
    rw [follow_add, before] at reached
    cases reached

/-- Every state that a run goes through is of a sort. -/
def Throughout (cls : Class) (host : Host σ) (P : Run σ → Prop) (r : Run σ) : Prop :=
  ∀ n x, r.follow cls host n = .running x → P x

theorem Throughout.here {P : Run σ → Prop} {r : Run σ} (h : r.Throughout cls host P) : P r := h 0 r rfl

theorem Throughout.next {P : Run σ → Prop} {r r' : Run σ} (h : r.Throughout cls host P)
    (first : r.advance cls host = .running r') : r'.Throughout cls host P := fun n x reached =>
  h (n + 1) x (by rw [follow, first]; exact reached)

/-- What no instruction changes, and what does not depend on the budget, is so in every state. -/
theorem throughout_of_act {P : Run σ → Prop} (pays : ∀ x fuel, P x → P (x.paying fuel))
    (step : ∀ x y, P x → x.act cls host = .running y → P y) {r : Run σ} (h : P r) : r.Throughout cls host P := by
  intro n
  induction n generalizing r with
  | zero =>
    rintro x ⟨⟩
    exact h
  | succ n ih =>
    intro x reached
    rw [follow] at reached
    split at reached
    · next r' first =>
      obtain ⟨fuel, act⟩ := act_of_advance first
      exact ih (step _ _ (pays r fuel h) act) x reached
    · next ended => exact absurd reached (ended x)

end Run

/-- The method that a call means is one of the class, and has the name and the descriptor of the call. -/
theorem Class.callee?_eq_some {cls : Class} {m : MemberRef} {callee : Method}
    (h : cls.callee? m = some callee) :
    callee ∈ cls.methods ∧ callee.name = m.name ∧ callee.descriptor = m.descriptor := by
  unfold callee? at h
  split at h
  · have found := (Option.filter_eq_some_iff.1 h).1
    have same := List.find?_some found
    simp only [Bool.and_eq_true, beq_iff_eq] at same
    exact ⟨List.mem_of_find?_eq_some found, same⟩
  · cases h

/-! ## Single instructions -/

namespace Instr

/-- A subroutine is left for the address in a slot. -/
theorem step_ret_eq_ok {slot : Slot} (h : (Instr.slot .ret slot).step cls host s = .ok flow t) :
    ∃ pc, s.frame.locals[slot]? = some (.address pc) ∧ flow = .goTo pc := by
  cases hv : s.frame.locals[slot]? with
  | none => simp [step, SlotOp.step, Frame.getLocal, hv] at h
  | some v =>
    cases v with
    | address pc =>
      simp [step, SlotOp.step, Frame.getLocal, hv] at h
      exact ⟨pc, rfl, h.1.symm⟩
    | _ => simp [step, SlotOp.step, Frame.getLocal, hv] at h

/-- A return leaves with the value on top of the stack, or without one. -/
theorem value_of_leave {k : Option Storage}
    (h : (Instr.plain (.leave k)).step cls host s = .ok flow t) :
    flow = .leave (k.bind fun _ => s.frame.stack.head?) ∧ t.world = s.world := by
  cases k with
  | none =>
    cases h
    exact ⟨rfl, rfl⟩
  | some k =>
    cases hs : s.frame.stack with
    | nil => simp [step, PlainOp.step, Frame.popOf, Frame.pop, hs] at h
    | cons v rest =>
      by_cases same : v.kind = k.kind
      · simp [step, PlainOp.step, Frame.popOf, Frame.pop, hs, Value.ofStorage, same] at h
        obtain ⟨rfl, rfl⟩ := h
        exact ⟨rfl, rfl⟩
      · simp [step, PlainOp.step, Frame.popOf, Frame.pop, hs, Value.ofStorage, same] at h

/-- A return leaves, with its value if there is one. -/
theorem step_leave_eq_ok {k : Option Storage} (h : (Instr.plain (.leave k)).step cls host s = .ok flow t) :
    ∃ v, flow = .leave v ∧ t.world = s.world :=
  ⟨_, value_of_leave h⟩

/-- A return leaves with the value on top of the stack if it is of the kind of the return. -/
theorem step_leave_of_value (cls : Class) (host : Host σ) {k : Option Storage} {f : Frame} {w : World σ}
    (value : ∀ s, k = some s → ∃ v rest, f.stack = v :: rest ∧ v.kind = s.kind) :
    ∃ g, (Instr.plain (.leave k)).step cls host ⟨f, w⟩ = .ok (.leave (k.bind fun _ => f.stack.head?)) ⟨g, w⟩ := by
  cases k with
  | none => exact ⟨f, rfl⟩
  | some s =>
    obtain ⟨v, rest, stack, kind⟩ := value s rfl
    refine ⟨{ f with stack := rest }, ?_⟩
    rw [stack]
    simp [step, PlainOp.step, Frame.popOf, Frame.pop, Value.ofStorage, kind, stack]

/-- A store takes a value of its storage from the stack. -/
theorem step_store_eq_ok {k : Storage} {slot : Slot}
    (h : (Instr.store k slot).step cls host s = .ok flow t) :
    ∃ v rest, s.frame.stack = v :: rest ∧ v.kind.mover = k := by
  cases hs : s.frame.stack with
  | nil => simp [step, SlotOp.step, Frame.store, Frame.pop, hs] at h
  | cons v rest =>
    cases moved : v.movedBy k with
    | error e => simp [step, SlotOp.step, Frame.store, Frame.pop, hs, moved] at h
    | ok u => exact ⟨v, rest, rfl, (Value.movedBy_eq_ok.1 moved).1⟩

/-- An increment adds to an int. -/
theorem step_iinc_eq_ok {slot : Slot} {amount : Int16}
    (h : (Instr.iinc slot amount).step cls host s = .ok flow t) :
    ∃ n, s.frame.locals[slot]? = some (.int n) := by
  cases hv : s.frame.locals[slot]? with
  | none => simp [step, Frame.increment, hv] at h
  | some v =>
    cases v with
    | int n => exact ⟨n, rfl⟩
    | _ => simp [step, Frame.increment, hv, Value.asInt] at h

/-- A throw never goes on. -/
theorem step_athrow_eq_ok (h : (Instr.plain .athrow).step cls host s = .ok flow t) :
    ∃ exc, flow = .raise exc := by
  cases popped : Frame.popRef s.frame with
  | error e f => simp [step, PlainOp.step, popped] at h
  | ok r f =>
    cases r with
    | some exc =>
      simp [step, PlainOp.step, popped] at h
      exact ⟨exc, h.1.symm⟩
    | none =>
      simp [step, PlainOp.step, popped, raiseNew] at h
      exact ⟨_, h.1.symm⟩

/-- A value that passes a cast stays where it is.  Null passes every cast, an object one to a class it is of;
nothing else goes on. -/
theorem step_checkCast_eq_ok {c : String}
    (h : (Instr.typed .checkCast c).step cls host s = .ok .next t) : t = s := by
  obtain ⟨⟨method, locals, stack, pc⟩, w⟩ := s
  cases popped : Frame.popRef ⟨method, locals, stack, pc⟩ with
  | error e g => simp [step, ClassOp.step, popped] at h
  | ok r g =>
    obtain ⟨_, rest, rfl, rfl, rfl⟩ := Frame.pops_popRef _ _ _ popped
    cases r with
    | none =>
      simp [step, ClassOp.step, popped] at h
      exact h.symm
    | some r =>
      simp [step, ClassOp.step, popped, World.isOf] at h
      cases is : w.instanceOf host r c with
      | error e => simp [is] at h
      | ok passes =>
        cases passes with
        | true =>
          simp [is] at h
          exact h.symm
        | false => simp [is, raiseNew] at h

end Instr

/-! ## Pushes -/

/-- Whether an instruction pushes one value and does nothing else. -/
def Instr.pushes : Instr → Bool
  | .plain .aconstNull | .iconst _ | .bipush _ | .sipush _ | .ldc (.int _) | .slot (.load _) _ => true
  | _ => false

theorem Instr.pushes_pushInt (n : Int32) : (pushInt n).pushes = true := by
  unfold pushInt
  repeat' split
  all_goals rfl

/-- The situation with one more value on the stack. -/
def Situation.pushed (s : Situation σ) (v : Value) : Situation σ :=
  ⟨{ s.frame with stack := v :: s.frame.stack }, s.world⟩

/-- A load pushes what is in the slot. -/
theorem Instr.step_load {k : Storage} {slot : Slot} (h : (Instr.load k slot).step cls host s = .ok flow t) :
    ∃ v, s.frame.locals[slot]? = some v ∧ flow = .next ∧ t = s.pushed v := by
  cases hv : s.frame.locals[slot]? with
  | none => simp [step, SlotOp.step, Frame.load, hv] at h
  | some v =>
    cases moved : v.movedBy k with
    | error e => simp [step, SlotOp.step, Frame.load, hv, moved] at h
    | ok u =>
      obtain rfl := (Value.movedBy_eq_ok.1 moved).2
      simp [step, SlotOp.step, Frame.load, hv, moved] at h
      exact ⟨u, rfl, h.1.symm, h.2.symm⟩

theorem Instr.not_callsService_of_pushes {i : Instr} (pushes : i.pushes = true) : i.callsService = false := by
  cases i with
  | invoke => cases pushes
  | _ => rfl

/-- A push goes on to the next instruction. -/
theorem Instr.step_pushes {i : Instr} (pushes : i.pushes = true) (h : i.step cls host s = .ok flow t) :
    flow = .next ∧ ∃ v, t = s.pushed v := by
  unfold Instr.pushes at pushes
  split at pushes
  · cases h
    exact ⟨rfl, _, rfl⟩
  · cases h
    exact ⟨rfl, _, rfl⟩
  · cases h
    exact ⟨rfl, _, rfl⟩
  · cases h
    exact ⟨rfl, _, rfl⟩
  · cases h
    exact ⟨rfl, _, rfl⟩
  · obtain ⟨v, -, rfl, rfl⟩ := step_load h
    exact ⟨rfl, v, rfl⟩
  · cases pushes

/-- An instruction that is carried out whatever the budget. -/
theorem Instr.Carries.eq {i : Instr} {f' : Frame} {w' : World σ} (h : i.Carries cls host ⟨f, w⟩ ⟨f', w'⟩) :
    i.step cls host ⟨f.moved 1 f.stack, w⟩ = .ok .next ⟨f', w'.paying w.fuel⟩ :=
  h.step w.fuel

/-! ## Calls on handles -/

/-- There is nothing to hand out a context for. -/
theorem Instr.step_createOrReset_nil (empty : f.stack = []) :
    (Instr.invoke .static Service.createOrResetContext).step cls host ⟨f, w⟩ =
      .error .stackUnderflow ⟨f, w⟩ := by
  have sig : callSignature Service.createOrResetContext.descriptor =
      .ok ⟨[.object], some (.ref Service.contextClass)⟩ := eq_ok_of_toOption (by decide +kernel)
  have pops : Frame.popMany 1 f = .error .stackUnderflow f := by
    simp [Frame.popMany, empty]
  simp [step, MemberRef.call, sig, pops]

/-- A call of a service is a call on the handle beneath its arguments. -/
theorem Instr.step_callService {m : MemberRef} {sig : Signature} {args rest : List Value} {r : ObjectId}
    {face : ContextFace} {id : ContextId} (service : m.isService = true)
    (other : m ≠ Service.createOrResetContext) (hsig : callSignature m.descriptor = .ok sig)
    (stack : f.stack = args.reverse ++ .object r :: rest) (length : args.length = sig.params.length)
    (ho : w.heap.get? r = some (.handle face id)) :
    (callService m).step cls host ⟨f, w⟩ =
      match World.callHandle m args id face w with
      | .ok a w' => .ok .next ⟨{ f with stack := Carries.received sig.result a rest }, w'⟩
      | .error e w' => .error e ⟨{ f with stack := rest }, w'⟩ := by
  have pops : Frame.popMany sig.params.length f = .ok args { f with stack := .object r :: rest } := by
    rw [← length]
    exact Frame.popMany_apply stack
  have notNull : Value.object r ≠ .null := by simp [Value.object, Value.null]
  have owner : m.owner = Service.contextClass ∨ m.owner = Service.storeClass := by
    simpa [MemberRef.isService] using service
  have served : World.callService m (some (.object r)) args w = World.callHandle m args id face w := by
    simp [World.callService, other, Value.object, Value.asRef, World.object_apply ho]
  cases called : World.callHandle m args id face w <;>
    simp [callService, step, MemberRef.call, hsig, pops, Frame.pop, InvokeKind.hasReceiver, notNull, owner,
      served, called, MemberRef.call.finish, Carries.receive_eq]

/-! ## Where exceptions come from -/

/-- Every exception that is raised is a new one. -/
def RaisesNew (x : StepM σ Flow) : Prop :=
  ∀ s exc t, x s = .ok (.raise exc) t → ∃ e : BuiltinException, t.world.heap.get? exc = some (.new e.className)

namespace RaisesNew

theorem pure {flow : Flow} (h : ∀ exc, flow ≠ .raise exc) : RaisesNew (pure flow : StepM σ Flow) := by
  rintro s exc t ⟨⟩
  exact absurd rfl (h exc)

theorem throw (e : ExecError) : RaisesNew (throw e : StepM σ Flow) := by
  rintro s exc t ⟨⟩

theorem seq {α : Type} {x : StepM σ α} {f : α → StepM σ Flow} (h : ∀ a, RaisesNew (f a)) :
    RaisesNew (x >>= f) := by
  intro s exc t e
  obtain ⟨a, u, -, second⟩ := bind_apply_eq_ok e
  exact h a u exc t second

theorem andNext {α : Type} {x : StepM σ α} : RaisesNew (do let _ ← x; return Flow.next) :=
  seq fun _ => pure nofun

theorem new (e : BuiltinException) : RaisesNew (raiseNew e : StepM σ Flow) := by
  rintro s exc t ⟨⟩
  exact ⟨e, Heap.get?_alloc_self ..⟩

theorem branch (condition : Bool) (l : Label) : RaisesNew (Pure.pure (Flow.branch condition l) : StepM σ Flow) :=
  pure (by cases condition <;> exact nofun)

end RaisesNew

open RaisesNew in
theorem ArithOp.raisesNew (op : ArithOp) (k : NumKind) : RaisesNew (op.step k : StepM σ Flow) := by
  cases k with
  | int | long =>
    refine seq fun _ => seq fun _ => ?_
    split
    · exact andNext
    · exact new _
  | float | double => exact seq fun _ => seq fun _ => andNext

open RaisesNew in
theorem raisesNew_loadElement : RaisesNew (loadElement : StepM σ Flow) := by
  refine seq fun _ => seq fun r => ?_
  split
  · exact new _
  · refine seq fun o => ?_
    split
    · split
      · exact andNext
      · exact new _
    · exact throw _

open RaisesNew in
theorem raisesNew_storeElement (k : ElemKind) : RaisesNew (storeElement k : StepM σ Flow) := by
  refine seq fun _ => seq fun _ => seq fun r => ?_
  split
  · exact new _
  · refine seq fun o => ?_
    split
    · refine seq fun _ => ?_
      split
      · refine seq fun b => ?_
        split
        · exact pure nofun
        · exact new _
      · exact new _
    · exact throw _

open RaisesNew in
theorem raisesNew_newArray (descriptor : String) (dims : Nat) :
    RaisesNew (newArray descriptor dims : StepM σ Flow) := by
  refine seq fun vs => seq fun counts => ?_
  split
  · exact new _
  · split
    · exact new _
    · exact seq fun _ => andNext

open RaisesNew in
theorem raisesNew_measureArray : RaisesNew (measureArray : StepM σ Flow) := by
  refine seq fun r => ?_
  split
  · exact new _
  · refine seq fun o => ?_
    split
    · exact andNext
    · exact throw _

open RaisesNew in
theorem raisesNew_lock : RaisesNew (lock : StepM σ Flow) := by
  refine seq fun r => ?_
  split
  · exact new _
  · exact pure nofun

open RaisesNew in
theorem PlainOp.raisesNew {op : PlainOp} (other : op ≠ .athrow) : RaisesNew (op.step : StepM σ Flow) := by
  cases op with
  | nop => exact pure nofun
  | aconstNull | shuffle | bits | compare => exact andNext
  | arrayLoad _ => exact raisesNew_loadElement
  | arrayStore k => exact raisesNew_storeElement k
  | arith op k => exact op.raisesNew k
  | neg k => exact seq fun _ => andNext
  | convert c => exact seq fun _ => seq fun _ => andNext
  | leave k =>
    cases k with
    | none => exact pure nofun
    | some k => exact seq fun _ => pure nofun
  | arrayLength => exact raisesNew_measureArray
  | athrow => exact absurd rfl other
  | monitorEnter | monitorExit => exact raisesNew_lock

open RaisesNew in
theorem SlotOp.raisesNew (op : SlotOp) (slot : Slot) : RaisesNew (op.step slot : StepM σ Flow) := by
  cases op with
  | load | store => exact andNext
  | ret =>
    refine seq fun v => ?_
    split
    · exact pure nofun
    · exact throw _

open RaisesNew in
theorem JumpOp.raisesNew (op : JumpOp) (l : Label) : RaisesNew (op.step l : StepM σ Flow) := by
  cases op with
  | ifZero | ifNull => exact seq fun _ => branch _ _
  | ifInts | ifRefs => exact seq fun _ => seq fun _ => branch _ _
  | goto => exact pure nofun
  | jsr => exact seq fun _ => seq fun _ => pure nofun

open RaisesNew in
theorem FieldOp.raisesNew (op : FieldOp) (m : MemberRef) : RaisesNew (op.step m : StepM σ Flow) := by
  cases op with
  | getStatic =>
    refine seq fun _ => ?_
    split
    · exact andNext
    · exact seq fun _ => andNext
  | putStatic => exact seq fun _ => andNext
  | getField =>
    refine seq fun r => ?_
    split
    · exact new _
    · refine seq fun _ => ?_
      split
      · exact andNext
      · exact seq fun _ => andNext
  | putField =>
    refine seq fun _ => seq fun r => ?_
    split
    · exact new _
    · exact andNext

open RaisesNew in
theorem ClassOp.raisesNew (op : ClassOp) (className : String) : RaisesNew (op.step host className) := by
  cases op with
  | new => exact seq fun _ => andNext
  | newArray => exact raisesNew_newArray _ _
  | checkCast =>
    refine seq fun r => ?_
    split
    · exact andNext
    · refine seq fun b => ?_
      split
      · exact andNext
      · exact RaisesNew.new _
  | instanceOf =>
    refine seq fun r => ?_
    split
    · exact andNext
    · exact seq fun _ => andNext

open RaisesNew in
theorem MemberRef.raisesNew (m : MemberRef) (kind : InvokeKind) : RaisesNew (m.call cls host kind) := by
  refine seq fun s => seq fun args => ?_
  extract_lets called
  have rest (receiver : Option Value) : RaisesNew (called receiver) := by
    unfold called
    split
    · exact new _
    · split
      · exact seq fun _ => andNext
      · split
        · exact pure nofun
        · split
          · exact seq fun _ => andNext
          · exact seq fun _ => andNext
  split <;> exact seq rest

open RaisesNew in
/-- What is raised was thrown, or is new. -/
theorem Instr.raisesNew {i : Instr} (other : i ≠ .plain .athrow) : RaisesNew (i.step cls host) := by
  cases i with
  | plain op => exact op.raisesNew fun e => other (e ▸ rfl)
  | iconst | lconst | fconst | dconst | bipush | sipush | ldc | iinc => exact andNext
  | slot op s => exact op.raisesNew s
  | jump op l => exact op.raisesNew l
  | tableSwitch | lookupSwitch => exact seq fun _ => pure nofun
  | field op m => exact op.raisesNew m
  | invoke kind m => exact m.raisesNew kind
  | invokeDynamic => exact seq fun _ => seq fun _ => seq fun _ => andNext
  | typed op className => exact op.raisesNew className
  | newArray | multiNewArray => exact raisesNew_newArray _ _
  | label => exact pure nofun

/-- A throw raises an exception. -/
theorem Instr.exists_raise (h : (Instr.plain .athrow).step cls host s = .ok flow t) : ∃ exc, flow = .raise exc := by
  obtain ⟨exc, s', -, h⟩ := bind_apply_eq_ok h
  cases exc with
  | some exc =>
    cases h
    exact ⟨exc, rfl⟩
  | none =>
    obtain ⟨exc, s'', -, h⟩ := bind_apply_eq_ok h
    cases h
    exact ⟨exc, rfl⟩

/-- What is raised lay on top of the stack, or is new. -/
theorem Instr.raises {i : Instr} {exc : ObjectId} (h : i.step cls host s = .ok (.raise exc) t) :
    (i = .plain .athrow ∧ t.world = s.world ∧ ∃ rest, s.frame.stack = .object exc :: rest) ∨
      ∃ e : BuiltinException, t.world.heap.get? exc = some (.new e.className) := by
  by_cases thrown : i = .plain .athrow
  · subst thrown
    cases popped : Frame.popRef s.frame with
    | error e g => simp [step, PlainOp.step, popped] at h
    | ok r g =>
      obtain ⟨_, rest, stack, rfl, rfl⟩ := Frame.pops_popRef _ _ _ popped
      cases r with
      | none =>
        simp [step, PlainOp.step, popped] at h
        exact .inr (RaisesNew.new .nullPointer _ _ _ h)
      | some r =>
        simp [step, PlainOp.step, popped] at h
        obtain ⟨rfl, rfl⟩ := h
        exact .inl ⟨rfl, rfl, rest, stack⟩
  · exact .inr (Instr.raisesNew thrown _ _ _ h)

end Suspension
