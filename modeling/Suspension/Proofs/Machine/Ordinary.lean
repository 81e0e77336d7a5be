import Suspension.Proofs.Machine.Keeps

/-!
# What instructions leave alone

Every instruction leaves the handles on the heap alone.  Local slots change only by the two instructions
that store into one, and contexts only by calls of services.

## Main definitions
* `Instr.written?`: the slot that an instruction stores into.
* `MemberRef.isService`: whether a call goes to one of the service classes.
* `Instr.MayLead`: where control may go after an instruction.

## Main results
* `Instr.does_step`: what an instruction may change, and where it leads.
-/

namespace Suspension

/-- The slot that an instruction stores into. -/
def Instr.written? : Instr → Option Slot
  | .slot (.store _) s => some s
  | .iinc s _ => some s
  | _ => none

/-- Whether a call goes to one of the service classes. -/
def MemberRef.isService (m : MemberRef) : Bool :=
  m.owner = Service.contextClass || m.owner = Service.storeClass

/-- Whether an instruction calls a service. -/
def Instr.callsService : Instr → Bool
  | .invoke _ m => m.isService
  | _ => false

/-- Where control may go after an instruction. -/
def Instr.MayLead (cls : Class) (i : Instr) : Flow → Prop
  | .next | .raise _ => True
  | .jump l => l ∈ i.targets
  | .goTo _ => ∃ s, i = .slot .ret s
  | .leave _ => i.isReturn = true
  | .enter callee args _ => ∃ kind m s receiver params, i = .invoke kind m ∧
      cls.callee? m = some callee ∧ callSignature m.descriptor = .ok s ∧
      args = Option.toList receiver ++ params ∧ params.length = s.params.length ∧
      receiver.isSome = kind.hasReceiver

variable {σ α : Type} {L : Keeping LocalValues} {C : Keeping Contexts}

/-! ## Operations on a frame -/

namespace Frame

variable {f : Frame}

/-- An operation on the operand stack alone. -/
theorem keeping_withStack (f : Frame) (stack : List Value) :
    (Frame.keeping L).rel f { f with stack } :=
  ⟨rfl, rfl, L.refl _⟩

theorem keeps_push (v : Value) : Keeps (Frame.keeping L) (push v) where
  ok := by
    rintro f _ _ ⟨⟩
    exact ⟨f.keeping_withStack _, trivial⟩
  error := by rintro _ _ _ ⟨⟩

theorem keeps_pushAll (vs : List Value) : Keeps (Frame.keeping L) (pushAll vs) where
  ok := by
    rintro f _ _ ⟨⟩
    exact ⟨f.keeping_withStack _, trivial⟩
  error := by rintro _ _ _ ⟨⟩

theorem keeps_pop : Keeps (Frame.keeping L) pop where
  ok := by
    intro f v g e
    unfold pop at e
    split at e
    · cases e
    · cases e
      exact ⟨f.keeping_withStack _, trivial⟩
  error := by
    intro f v g e
    unfold pop at e
    split at e
    · cases e
      exact (Frame.keeping L).refl f
    · cases e

/-- As many values are popped as were asked for. -/
theorem does_popMany (n : Nat) : Does (Frame.keeping L) (·.length = n) (popMany n) where
  ok := by
    intro f vs g e
    unfold popMany at e
    split at e
    · next enough =>
      cases e
      exact ⟨f.keeping_withStack _, by simp [Nat.min_eq_left enough]⟩
    · cases e
  error := by
    intro f v g e
    unfold popMany at e
    split at e
    · cases e
    · cases e
      exact (Frame.keeping L).refl f

theorem keeps_popWords (n : Nat) : Keeps (Frame.keeping L) (popWords n) where
  ok := by
    intro f vs g e
    unfold popWords at e
    split at e
    · cases e
      exact ⟨f.keeping_withStack _, trivial⟩
    · cases e
  error := by
    intro f v g e
    unfold popWords at e
    split at e
    · cases e
    · cases e
      exact (Frame.keeping L).refl f

theorem keeps_popOf (k : Storage) : Keeps (Frame.keeping L) (popOf k) :=
  keeps_pop.seq fun _ => keeps_except _

theorem keeps_popInt : Keeps (Frame.keeping L) popInt := keeps_pop.seq fun _ => keeps_except _

theorem keeps_popLong : Keeps (Frame.keeping L) popLong := keeps_pop.seq fun _ => keeps_except _

theorem keeps_popFloat : Keeps (Frame.keeping L) popFloat := keeps_pop.seq fun _ => keeps_except _

theorem keeps_popDouble : Keeps (Frame.keeping L) popDouble := keeps_pop.seq fun _ => keeps_except _

theorem keeps_popRef : Keeps (Frame.keeping L) popRef := keeps_pop.seq fun _ => keeps_except _

theorem keeps_dup (words under : Nat) : Keeps (Frame.keeping L) (dup words under) :=
  (keeps_popWords _).seq fun _ => (keeps_popWords _).seq fun _ => keeps_pushAll _

theorem keeps_shuffle (s : Shuffle) : Keeps (Frame.keeping L) (shuffle s) := by
  cases s with
  | pop | pop2 => exact (keeps_popWords _).seq fun _ => keeps_pure _
  | swap => exact keeps_pop.seq fun _ => keeps_pop.seq fun _ => (keeps_push _).seq fun _ => keeps_push _
  | _ => exact keeps_dup ..

theorem keeps_getLocal (s : Slot) : Keeps (Frame.keeping L) (getLocal s) where
  ok := by
    intro f v g e
    rw [getLocal_apply] at e
    split at e
    · cases e
      exact ⟨(Frame.keeping L).refl f, trivial⟩
    · cases e
  error := by
    intro f v g e
    rw [getLocal_apply] at e
    split at e
    · cases e
    · cases e
      exact (Frame.keeping L).refl f

theorem keeps_load (k : Storage) (s : Slot) : Keeps (Frame.keeping L) (load k s) :=
  (keeps_getLocal s).seq fun _ => (keeps_except _).seq fun _ => keeps_push _

variable {s : Slot} (may : ∀ (l : LocalValues) v, L.rel l (l.store s v))
include may

theorem keeps_putLocal (v : Value) : Keeps (Frame.keeping L) (putLocal s v) where
  ok := by
    rintro f _ _ ⟨⟩
    exact ⟨⟨rfl, rfl, may ..⟩, trivial⟩
  error := by rintro _ _ _ ⟨⟩

theorem keeps_store (k : Storage) : Keeps (Frame.keeping L) (store k s) :=
  keeps_pop.seq fun _ => (keeps_except _).seq fun _ => keeps_putLocal may _

theorem keeps_increment (amount : Int32) : Keeps (Frame.keeping L) (increment s amount) :=
  (keeps_getLocal s).seq fun _ => (keeps_except _).seq fun _ => keeps_putLocal may _

end Frame

open Suspension.Frame

/-! ## Numbers -/

theorem BitOp.keeps_step (op : BitOp) (k : WholeKind) : Keeps (Frame.keeping L) (op.step k) := by
  cases k with
  | int => exact keeps_popInt.seq fun _ => keeps_popInt.seq fun _ => keeps_push _
  | long =>
    unfold BitOp.step
    simp only
    split
    · exact keeps_popInt.seq fun _ => keeps_popLong.seq fun _ => keeps_push _
    · exact keeps_popLong.seq fun _ => keeps_popLong.seq fun _ => keeps_push _

theorem Comparison.keeps_step (c : Comparison) : Keeps (Frame.keeping L) c.step := by
  cases c with
  | long => exact keeps_popLong.seq fun _ => keeps_popLong.seq fun _ => keeps_push _
  | floatLow | floatHigh => exact keeps_popFloat.seq fun _ => keeps_popFloat.seq fun _ => keeps_push _
  | doubleLow | doubleHigh =>
    exact keeps_popDouble.seq fun _ => keeps_popDouble.seq fun _ => keeps_push _

section

variable {i : Instr} {cls : Class}

/-- Control goes on, or an exception is thrown. -/
theorem Flow.mayLead_raise (e : BuiltinException) :
    Does (Situation.keeping L C) (i.MayLead cls) (raiseNew e : StepM σ Flow) :=
  (keeps_alloc _).inWorld.seq fun _ => does_pure trivial

theorem Does.andNext {x : StepM σ α} (h : Keeps (Situation.keeping L C) x) :
    Does (Situation.keeping L C) (i.MayLead cls) (do let _ ← x; return Flow.next) :=
  h.seq fun _ => does_pure trivial

theorem Flow.mayLead_branch {l : Label} (h : l ∈ i.targets) (condition : Bool) :
    i.MayLead cls (Flow.branch condition l) := by
  cases condition
  · exact trivial
  · exact h

theorem ArithOp.does_step (op : ArithOp) (k : NumKind) :
    Does (Situation.keeping L C) (i.MayLead cls) (op.step k : StepM σ Flow) := by
  cases k with
  | int =>
    refine keeps_popInt.onFrame.seq fun _ => keeps_popInt.onFrame.seq fun _ => ?_
    split
    · exact (keeps_push _).onFrame.andNext
    · exact Flow.mayLead_raise _
  | long =>
    refine keeps_popLong.onFrame.seq fun _ => keeps_popLong.onFrame.seq fun _ => ?_
    split
    · exact (keeps_push _).onFrame.andNext
    · exact Flow.mayLead_raise _
  | float =>
    exact keeps_popFloat.onFrame.seq fun _ => keeps_popFloat.onFrame.seq fun _ =>
      (keeps_push _).onFrame.andNext
  | double =>
    exact keeps_popDouble.onFrame.seq fun _ => keeps_popDouble.onFrame.seq fun _ =>
      (keeps_push _).onFrame.andNext

/-! ## Arrays -/

theorem does_loadElement : Does (Situation.keeping L C) (i.MayLead cls) (loadElement : StepM σ Flow) := by
  refine keeps_popInt.onFrame.seq fun _ => keeps_popRef.onFrame.seq fun r => ?_
  split
  · exact Flow.mayLead_raise _
  · refine (keeps_object _).inWorld.seq fun o => ?_
    split
    · split
      · exact (keeps_push _).onFrame.andNext
      · exact Flow.mayLead_raise _
    · exact does_throw _

theorem does_storeElement (k : ElemKind) :
    Does (Situation.keeping L C) (i.MayLead cls) (storeElement k : StepM σ Flow) := by
  refine keeps_pop.onFrame.seq fun _ => keeps_popInt.onFrame.seq fun _ =>
    keeps_popRef.onFrame.seq fun r => ?_
  split
  · exact Flow.mayLead_raise _
  · refine (keeps_object _).inWorld.seq fun o => ?_
    split
    · refine (keeps_except _).seq fun _ => ?_
      split
      · refine (keeps_changeHeap Heap.keepsHandles_setElement).inWorld.seq fun b => ?_
        split
        · exact does_pure trivial
        · exact Flow.mayLead_raise _
      · exact Flow.mayLead_raise _
    · exact does_throw _

theorem does_newArray (descriptor : String) (dims : Nat) :
    Does (Situation.keeping L C) (i.MayLead cls) (newArray descriptor dims : StepM σ Flow) := by
  refine (does_popMany dims).onFrame.bind fun vs _ =>
    (keeps_mapM (fun v => keeps_except _) vs).seq fun counts => ?_
  split
  · exact Flow.mayLead_raise _
  · split
    · exact Flow.mayLead_raise _
    · exact (keeps_changeHeap Heap.keepsHandles_allocArray).inWorld.seq fun _ =>
        (keeps_push _).onFrame.andNext

theorem does_measureArray :
    Does (Situation.keeping L C) (i.MayLead cls) (measureArray : StepM σ Flow) := by
  refine keeps_popRef.onFrame.seq fun r => ?_
  split
  · exact Flow.mayLead_raise _
  · refine (keeps_object _).inWorld.seq fun o => ?_
    split
    · exact (keeps_push _).onFrame.andNext
    · exact does_throw _

/-! ## Instructions without operand -/

theorem does_lock : Does (Situation.keeping L C) (i.MayLead cls) (lock : StepM σ Flow) := by
  refine keeps_popRef.onFrame.seq fun r => ?_
  split
  · exact Flow.mayLead_raise _
  · exact does_pure trivial

/-- Each operation takes its operands, may fail or raise, and pushes what it has made. -/
theorem PlainOp.does_step (op : PlainOp) :
    Does (Situation.keeping L C) ((Instr.plain op).MayLead cls) (op.step : StepM σ Flow) := by
  cases op with
  | nop => exact does_pure trivial
  | aconstNull => exact (keeps_push _).onFrame.andNext
  | arrayLoad _ => exact does_loadElement
  | arrayStore k => exact does_storeElement k
  | shuffle s => exact (keeps_shuffle s).onFrame.andNext
  | arith op k => exact op.does_step k
  | neg k => exact (keeps_popOf k.storage).onFrame.seq fun _ => (keeps_push _).onFrame.andNext
  | bits op k => exact (op.keeps_step k).onFrame.andNext
  | convert c =>
    exact keeps_pop.onFrame.seq fun _ => (keeps_except _).seq fun _ => (keeps_push _).onFrame.andNext
  | compare c => exact c.keeps_step.onFrame.andNext
  | leave k =>
    cases k with
    | none => exact does_pure rfl
    | some k => exact (keeps_popOf k).onFrame.seq fun _ => does_pure rfl
  | arrayLength => exact does_measureArray
  | athrow =>
    refine keeps_popRef.onFrame.seq fun r => ?_
    split
    · exact does_pure trivial
    · exact Flow.mayLead_raise _
  | monitorEnter | monitorExit => exact does_lock

/-! ## Instructions with an operand -/

theorem SlotOp.does_step (op : SlotOp) (s : Slot)
    (may : ∀ t, (Instr.slot op s).written? = some t → ∀ (l : LocalValues) v, L.rel l (l.store t v)) :
    Does (Situation.keeping L C) ((Instr.slot op s).MayLead cls) (op.step s : StepM σ Flow) := by
  cases op with
  | load k => exact (keeps_load k s).onFrame.andNext
  | store k => exact (keeps_store (may s rfl) k).onFrame.andNext
  | ret =>
    refine (keeps_getLocal s).onFrame.seq fun v => ?_
    split
    · exact does_pure ⟨s, rfl⟩
    · exact does_throw _

theorem JumpOp.does_step (op : JumpOp) (l : Label) :
    Does (Situation.keeping L C) ((Instr.jump op l).MayLead cls) (op.step l : StepM σ Flow) := by
  have target : l ∈ (Instr.jump op l).targets := List.mem_singleton.2 rfl
  cases op with
  | ifZero t =>
    exact keeps_popInt.onFrame.seq fun _ => does_pure (Flow.mayLead_branch target _)
  | ifInts t =>
    exact keeps_popInt.onFrame.seq fun _ => keeps_popInt.onFrame.seq fun _ =>
      does_pure (Flow.mayLead_branch target _)
  | ifRefs equal =>
    exact keeps_popRef.onFrame.seq fun _ => keeps_popRef.onFrame.seq fun _ =>
      does_pure (Flow.mayLead_branch target _)
  | ifNull null =>
    exact keeps_popRef.onFrame.seq fun _ => does_pure (Flow.mayLead_branch target _)
  | goto => exact does_pure target
  | jsr => exact keeps_get.seq fun _ => (keeps_push _).onFrame.seq fun _ => does_pure target

theorem FieldOp.does_step (op : FieldOp) (f : MemberRef) :
    Does (Situation.keeping L C) (i.MayLead cls) (op.step f : StepM σ Flow) := by
  cases op with
  | getStatic =>
    refine keeps_get.seq fun _ => ?_
    split
    · exact (keeps_push _).onFrame.andNext
    · exact (keeps_except _).seq fun _ => (keeps_push _).onFrame.andNext
  | putStatic => exact keeps_pop.onFrame.seq fun _ => (keeps_setStatic ..).inWorld.andNext
  | getField =>
    refine keeps_popRef.onFrame.seq fun r => ?_
    split
    · exact Flow.mayLead_raise _
    · refine keeps_get.seq fun _ => ?_
      split
      · exact (keeps_push _).onFrame.andNext
      · exact (keeps_except _).seq fun _ => (keeps_push _).onFrame.andNext
  | putField =>
    refine keeps_pop.onFrame.seq fun _ => keeps_popRef.onFrame.seq fun r => ?_
    split
    · exact Flow.mayLead_raise _
    · exact (keeps_setField ..).inWorld.andNext

theorem ClassOp.does_step (host : Host σ) (op : ClassOp) (className : String) :
    Does (Situation.keeping L C) (i.MayLead cls) (op.step host className) := by
  cases op with
  | new => exact (keeps_alloc _).inWorld.seq fun _ => (keeps_push _).onFrame.andNext
  | newArray => exact does_newArray ..
  | checkCast =>
    refine keeps_popRef.onFrame.seq fun r => ?_
    split
    · exact (keeps_push _).onFrame.andNext
    · refine (keeps_isOf ..).inWorld.seq fun b => ?_
      split
      · exact (keeps_push _).onFrame.andNext
      · exact Flow.mayLead_raise _
  | instanceOf =>
    refine keeps_popRef.onFrame.seq fun r => ?_
    split
    · exact (keeps_push _).onFrame.andNext
    · exact (keeps_isOf ..).inWorld.seq fun b => (keeps_push _).onFrame.andNext

theorem Constant.keeps_step (c : Constant) : Keeps (Situation.keeping L C) (c.step : StepM σ Unit) := by
  cases c with
  | int | float | long | double => exact (keeps_push _).onFrame
  | string s => exact (keeps_intern s).inWorld.seq fun _ => (keeps_push _).onFrame
  | classRef name => exact (keeps_alloc _).inWorld.seq fun _ => (keeps_push _).onFrame

/-! ## Calls -/

theorem keeps_receive (result : Option Tag) (v : Option Value) :
    Keeps (Situation.keeping L C)
      (modify fun s => { s with frame := s.frame.receive result v } : StepM σ PUnit) := by
  refine keeps_modify fun s => ⟨?_, (World.keeping C).refl _⟩
  cases result
  · exact (Frame.keeping L).refl _
  · exact s.frame.keeping_withStack _

/-- The signature and the arguments come first, whatever is called. -/
theorem MemberRef.does_call {host : Host σ} (leaves : host.LeavesHandles) (kind : InvokeKind)
    (m : MemberRef)
    (served : m.isService = true → ∀ receiver args,
      Keeps (World.keeping C) (World.callService m receiver args : WorldM σ (Option Value))) :
    Does (Situation.keeping L C) ((Instr.invoke kind m).MayLead cls) (m.call cls host kind) := by
  have finish (result : Option Tag) (v : Option Value) :
      Does (Situation.keeping L C) ((Instr.invoke kind m).MayLead cls)
        (MemberRef.call.finish result v : StepM σ Flow) :=
    (keeps_receive result v).andNext
  refine Does.bind (does_except fun s hs => hs) fun s hs =>
    (does_popMany s.params.length).onFrame.bind fun args hargs => ?_
  extract_lets called
  have rest (receiver : Option Value) (hr : receiver.isSome = kind.hasReceiver) :
      Does (Situation.keeping L C) ((Instr.invoke kind m).MayLead cls) (called receiver) := by
    unfold called
    split
    · exact Flow.mayLead_raise _
    · split
      · next service =>
        have service : m.isService = true := by simpa [isService] using service
        exact (served service receiver args).inWorld.seq fun _ => finish ..
      · split
        · next callee found =>
          exact does_pure ⟨kind, m, s, receiver, args, rfl, found, hs, rfl, hargs, hr⟩
        · split
          · exact (keeps_construct ..).inWorld.seq fun _ => finish ..
          · exact (keeps_askHost leaves ..).inWorld.seq fun _ => finish ..
  split
  · next has =>
    refine Does.bind (P := fun r : Option Value => r.isSome = kind.hasReceiver) ?_ rest
    exact keeps_pop.onFrame.seq fun _ => does_pure has.symm
  · next none => exact (does_pure (by simpa using none)).bind rest

end

/-! ## Every instruction -/

theorem mem_of_tableTarget (low high : Int32) (default : Label) (targets : List Label) (key : Int32) :
    tableTarget low high default targets key ∈ targets ++ [default] := by
  unfold tableTarget
  split
  · cases h : targets[(key.toInt - low.toInt).toNat]? with
    | none => simp
    | some l => simp [List.mem_of_getElem? h]
  · simp

theorem mem_of_lookup {β : Type} [BEq α] {pairs : List (α × β)} {key : α} {default : β} :
    (pairs.lookup key).getD default ∈ pairs.map (·.2) ++ [default] := by
  induction pairs with
  | nil => simp
  | cons e rest ih =>
    obtain ⟨k, v⟩ := e
    rw [List.lookup_cons]
    split
    · simp
    · simp only [List.map_cons, List.cons_append, List.mem_cons]
      exact .inr ih

/-- Whether an instruction is a call. -/
def Instr.isCall : Instr → Bool
  | .invoke .. | .invokeDynamic .. => true
  | _ => false

/-- What an instruction other than a call may change, and where it leads. -/
theorem Instr.does_step_of_noCall (cls : Class) (host : Host σ) {i : Instr} (noCall : i.isCall = false)
    (may : ∀ t, i.written? = some t → ∀ (l : LocalValues) v, L.rel l (l.store t v)) :
    Does (Situation.keeping L C) (i.MayLead cls) (i.step cls host) := by
  cases i with
  | plain op => exact op.does_step
  | iconst | lconst | fconst | dconst | bipush | sipush => exact (keeps_push _).onFrame.andNext
  | ldc c => exact c.keeps_step.andNext
  | slot op s => exact op.does_step s may
  | iinc s amount => exact (keeps_increment (may s rfl) _).onFrame.andNext
  | jump op l => exact op.does_step l
  | tableSwitch low high default targets =>
    exact keeps_popInt.onFrame.seq fun _ => does_pure (mem_of_tableTarget ..)
  | lookupSwitch default pairs =>
    exact keeps_popInt.onFrame.seq fun _ => does_pure mem_of_lookup
  | field op f => exact op.does_step f
  | invoke | invokeDynamic => cases noCall
  | typed op className => exact op.does_step host className
  | newArray k => exact does_newArray ..
  | multiNewArray descriptor dims => exact does_newArray ..
  | label l => exact does_pure trivial

/-- What an instruction may change, and where it leads. -/
theorem Instr.does_step (cls : Class) {host : Host σ} (leaves : host.LeavesHandles) (i : Instr)
    (may : ∀ t, i.written? = some t → ∀ (l : LocalValues) v, L.rel l (l.store t v))
    (served : ∀ kind m, i = .invoke kind m → m.isService = true → ∀ receiver args,
      Keeps (World.keeping C) (World.callService m receiver args : WorldM σ (Option Value))) :
    Does (Situation.keeping L C) (i.MayLead cls) (i.step cls host) := by
  cases i with
  | invoke kind m => exact m.does_call leaves kind (served kind m rfl)
  | invokeDynamic name descriptor =>
    exact (keeps_except _).seq fun s => (does_popMany _).onFrame.bind fun args _ =>
      (keeps_askHost leaves ..).inWorld.seq fun _ => (keeps_receive ..).andNext
  | _ => exact does_step_of_noCall cls host rfl may

end Suspension
