import Suspension.Machine.Script
import Suspension.Proofs.Machine.Sessions
import Suspension.Proofs.Weave.Stepping

/-!
# The mirror of the local slots in every session

Whatever a runner is asked to do, whenever the machine is about to execute an instruction of the method, the
context of the frame repeats the slots of the frame.

## Main definitions
* `Request.Fits`: a start passes no more arguments than there are parameters.
* `Weaving.AtInstruction`: a frame in front of an instruction of the method, other than a return.

## Main results
* `mirror_invariant`: contexts repeat the slots of their frames.
* `mirror_invariant_broken`: what the premises are for.
-/

namespace Suspension

variable {σ : Type}

/-- A start passes no more arguments than there are parameters. -/
def Request.Fits (m : Method) : Request → Prop
  | .start params => ∀ s, m.signature = .ok s → params.length ≤ s.params.length
  | .resume _ | .answer .. => True

namespace Weaving

/-- A frame in front of an instruction of the method, other than a return. -/
def AtInstruction (W : Weaving) (f : Frame) : Prop :=
  f.method = W.result ∧ ∃ i ins, W.instrs[i]? = some ins ∧ f.pc = W.placeOf i ∧ Run.fetch f = .ok ins ∧
    ins.isReturn = false

variable {W : Weaving} {r : Runner} {host : Host σ} {w : World σ} {request : Request} {x : Run σ}

theorem exists_signature (W : Weaving) : ∃ s, W.method.signature = .ok s := by
  obtain ⟨s, hs, -⟩ := Plan.prologue_eq_ok W.opened
  rw [W.made.method_eq] at hs
  exact ⟨s, hs⟩

/-- The run that a request begins settles. -/
theorem settles_opens (entry : r.entry = .ok W.result) (U : W.Undisturbed r.cls host)
    (session : r.Session host w) (fits : request.Fits W.method) (opens : r.Opens w request x) :
    W.Settles r.cls host x := by
  obtain ⟨params, w', method, frame, queued, entry', entered, rfl⟩ := opens
  obtain rfl : method = W.result := Except.ok.inj (entry'.symm.trans entry)
  obtain ⟨sig, hsig⟩ := W.exists_signature
  have intact : w'.heap.HandlesIntact :=
    (request.keeps_queue.ok queued).1.2.intact (session.intact U.leaves)
  have length : (r.arguments W.result params).length = W.method.receiverSlots + params.length := by
    have static : W.result.isStatic = W.method.isStatic := rfl
    rw [Runner.arguments, List.length_append, Method.receiverSlots, static]
    split <;> rfl
  rcases Request.alone_of_queue queued with ⟨rfl, none⟩ | rfl
  · refine settles_entry .nil U.roomy intact hsig entered ?_ (.inl none)
    rw [length]
    exact Nat.add_le_add_left (fits sig hsig) _
  · refine settles_entry .nil U.roomy intact hsig entered ?_ (.inr ⟨rfl, Nat.le_of_eq length⟩)
    rw [length]
    exact Nat.le_add_right ..

end Weaving

/-- Contexts repeat the slots of their frames. -/
theorem mirror_invariant {className : String} {method result : Method} {config : Config}
    (transformed : (method.transform className config).result = .ok (some result)) :
    ∃ W : Weaving, W.className = className ∧ W.method = method ∧ W.config = config ∧
      W.result = result ∧
      ∀ {σ : Type} (r : Runner) (host : Host σ), r.entry = .ok result → W.Undisturbed r.cls host →
        ∀ (w : World σ) (request : Request), r.Session host w → request.Fits method →
          (∀ x, r.Visits host w request x → W.Homing x.frame) →
          ∀ x, r.Visits host w request x → W.AtInstruction x.frame →
            ∃ id, W.Mirrored x.frame x.world id := by
  obtain ⟨W, rfl, hmethod, rfl, rfl⟩ := Weaving.exists_of_transform transformed
  refine ⟨W, rfl, hmethod, rfl, rfl, ?_⟩
  intro σ r host entry U w request session fits homing x visits atInstruction
  subst hmethod
  obtain ⟨sig, hsig⟩ := W.exists_signature
  obtain ⟨x₀, n, opens, follow⟩ := visits
  obtain ⟨own, i, ins, -, hpc, -⟩ := atInstruction
  have settles := W.settles_opens entry U session fits opens
  refine (Weaving.settles_follow U (Runner.mem_of_entry entry) hsig settles ?_ follow).exists_mirrored
    own hpc
  intro m lt y hy
  exact homing y ⟨x₀, m, opens, hy⟩

/-! ### A mirror after a pause -/

namespace Mirroring

/-- Counts its parameter down and pauses at every number. -/
def counting : Method where
  access := staticFlag
  name := "execute"
  descriptor := "(I)V"
  maxLocals := 1
  code.instrs := [.label 0, .slot (.load .int) 0, .jump (.ifZero .eq) 1,
    .pause, .iinc 0 (-1), .jump .goto 0, .label 1, .plain (.leave none)]

/-- Its entry is called with an int. -/
def config : Config := { entryDescriptor := "(I)V" }

/-- A runner of a class of one method. -/
def runner (m : Method) : Runner := (Runner.create ⟨1, "app/C", some objectClass, [], [m]⟩ config 1000 ()).1

/-- The world that it starts in. -/
def world : World Unit :=
  (Runner.create ⟨1, "app/C", some objectClass, [], []⟩ config 1000 ()).2

/-- The world after the first pause, and the state in front of the second number. -/
def secondNumber (m : Method) : Option (World Unit × Run Unit) :=
  match (runner m).start (Host.nothing Unit) [.int 2] world with
  | .ok (.paused id) w => ((runner m).look (Host.nothing Unit) w (.resume id) 21).map (w, ·)
  | _ => none

/-- No instruction of a method leaves a subroutine, or calls a method of the name of the entry. -/
def direct (m : Method) : Bool :=
  m.code.instrs.all fun
    | .slot .ret _ => false
    | .invoke _ r => r.name ≠ config.entryName
    | _ => true

/-- What is known of the method. -/
def countingShape : Option Shape := do
  let m ← (Metrics.measure "app/C" counting config).toOption
  (Shape.ofMethod "app/C" counting config m).result.toOption

/-- Nothing is known of slots behind the first one. -/
def narrow (s : Shape) : Bool :=
  (s.sites.all (·.all (·.locals.toList.all fun e => e.1.toNat + e.2.words ≤ 1))) &&
    s.labels.toList.all (·.2.types.locals.toList.all fun e => e.1.toNat + e.2.words ≤ 1)

variable {W : Weaving} (hclass : W.className = "app/C") (hmethod : W.method = counting)
  (hconfig : W.config = config)
include hclass hmethod hconfig

theorem roomy : W.Roomy := by
  have shaped : countingShape = some W.shape := by
    rw [countingShape, ← hclass, ← hmethod, ← hconfig, W.measured]
    exact congrArg Except.toOption W.shaped
  have checked : countingShape.map narrow = some true := by decide +kernel
  rw [shaped] at checked
  simp only [Option.map_some, Option.some.injEq, narrow, Bool.and_eq_true, List.all_eq_true,
    Option.all_eq_true, decide_eq_true_eq] at checked
  have room : (0 : Slot).toNat + 1 ≤ W.base :=
    Weaving.slot_le_base (i := .load .int 0) (by rw [Weaving.instrs, hmethod]; decide) rfl
  constructor
  · intro k S hS s t hs
    have mem := List.mem_of_getElem? (Option.join_eq_some_iff.1 hS)
    exact Nat.le_trans
      (checked.1 _ mem S rfl _ (Std.ExtTreeMap.mem_toList_iff_getElem?_eq_some.2 hs)) room
  · intro l x hx s t hs
    have mem := Std.ExtTreeMap.mem_toList_iff_getElem?_eq_some.2 hx
    exact Nat.le_trans (checked.2 _ mem _ (Std.ExtTreeMap.mem_toList_iff_getElem?_eq_some.2 hs)) room

theorem undisturbed (plain : direct W.result = true) :
    W.Undisturbed (runner W.result).cls (Host.nothing Unit) where
  leaves := Host.leavesHandles_nothing _
  roomy := roomy hclass hmethod hconfig
  own := by
    rw [Weaving.instrs, hmethod]
    decide
  others m mem other := absurd (List.mem_singleton.1 mem) other
  receiver _ m mem kind ref called found := by
    obtain rfl := List.mem_singleton.1 mem
    have name : W.result.name = config.entryName := congrArg (·.name) hmethod
    have other := List.all_eq_true.1 plain _ called
    simp only [decide_eq_true_eq] at other
    exact absurd ((Class.callee?_eq_some found).2.1.symm.trans name) other

omit hclass hmethod hconfig

/-- What is to be seen of the second number: the loop of the entry starts over, and the slot holds it. -/
def atSecondNumber (m : Method) (x : Run Unit) : Bool :=
  (runner m).entry.toOption = some m ∧ x.frame.method = m ∧ (Run.fetch x.frame).toOption = some (.label 0) ∧
    (x.frame.target 0).toOption = some x.frame.pc ∧ x.frame.locals[(0 : Slot)]? = some (.int 1)

theorem secondNumber_eq_some {m : Method} {w : World Unit} {x : Run Unit}
    (h : secondNumber m = some (w, x)) :
    ∃ id, (runner m).Session (Host.nothing Unit) w ∧
      (runner m).Visits (Host.nothing Unit) w (.resume id) x := by
  unfold secondNumber at h
  split at h
  · next id w' started =>
    obtain ⟨x', looked, e⟩ := Option.map_eq_some_iff.1 h
    cases e
    have served : (runner m).serve (Host.nothing Unit) (.start [.int 2]) world = .ok (.paused id) w :=
      started
    exact ⟨id, .served (.begun rfl) served, Runner.visits_of_look looked⟩
  · cases h

theorem homing (plain : direct W.result = true) (f : Frame) : W.Homing f := by
  intro own s pc fetched _
  have mem := Run.mem_of_fetch fetched
  rw [own] at mem
  cases List.all_eq_true.1 plain _ mem

end Mirroring

/-- The parameter was counted down to one, in a run that was resumed. -/
theorem counting_mirrored :
    ∃ (W : Weaving) (x : Run Unit) (id : ContextId), W.method = Mirroring.counting ∧
      x.frame.locals[(0 : Slot)]? = some (.int 1) ∧ W.Mirrored x.frame x.world id := by
  obtain ⟨result, transformed⟩ : ∃ result,
      (Mirroring.counting.transform "app/C" Mirroring.config).result = .ok (some result) :=
    exists_ok_some (by decide +kernel)
  obtain ⟨W, hclass, hmethod, hconfig, rfl, invariant⟩ := mirror_invariant transformed
  have checked : (Mirroring.counting.transform "app/C" Mirroring.config).result.toOption.join.any
      (fun m => Mirroring.direct m &&
        (Mirroring.secondNumber m).any fun p => Mirroring.atSecondNumber m p.2) = true := by
    decide +kernel
  rw [transformed] at checked
  obtain ⟨plain, seen⟩ := Bool.and_eq_true_iff.1 checked
  obtain ⟨⟨w, x⟩, second, observed⟩ := (Option.any_eq_true _ _).1 seen
  obtain ⟨entry, own, fetched, target, held⟩ := of_decide_eq_true observed
  obtain ⟨id, session, visits⟩ := Mirroring.secondNumber_eq_some second
  have first : W.instrs[0]? = some (.label 0) := by
    rw [Weaving.instrs, hmethod]
    rfl
  have place : x.frame.pc = W.placeOf 0 :=
    Except.ok.inj ((eq_ok_of_toOption target).symm.trans (Weaving.target_label own first))
  obtain ⟨copy, mirrored⟩ := invariant (Mirroring.runner W.result) (Host.nothing Unit)
    (eq_ok_of_toOption entry) (Mirroring.undisturbed hclass hmethod hconfig plain) w (.resume id) session trivial
    (fun y _ => Mirroring.homing plain y.frame) x visits
    ⟨own, 0, .label 0, first, place, eq_ok_of_toOption fetched, rfl⟩
  exact ⟨W, x, copy, hmethod, held, mirrored⟩

/-! ### What the premises are for -/

namespace Mirroring

/-- What is to be seen when a start has come to a number of instructions: the next one, what a slot of the
frame holds, and what the context in another slot recalls for it. -/
def seen (others : List Method) (m : Method) (script : Script) (params : List Value) (n : Nat)
    (slot context : Slot) : Option (Instr × Value × Option Value) := do
  let config : Config := { entryDescriptor := m.descriptor }
  let result ← (m.transform "app/C" config).result.toOption.join
  let (r, w) := Runner.create ⟨1, "app/C", some objectClass, [], result :: others⟩ config 1000 []
  let x ← r.look script.host w (.start params) n
  let i ← (Run.fetch x.frame).toOption
  let v ← x.frame.locals[slot]?
  let recalled : Option Value := do
    match ← x.frame.locals[context]? with
    | .object handle =>
      match ← x.world.heap.get? handle with
      | .handle .context id => (x.world.contexts.get? id).map (·.vars.recall v.kind.mover (slotIndex slot))
      | _ => none
    | _ => none
  return (i, v, recalled)

/-- Stores an int and returns. -/
def leaving : Method where
  access := staticFlag
  name := "execute"
  descriptor := "()V"
  maxLocals := 1
  code.instrs := [.iconst 7, .slot (.store .int) 0, .slot (.load .int) 0, .jump (.ifZero .eq) 0,
    .plain (.leave none), .label 0, .pause, .plain (.leave none)]

/-- On a path that is never taken, a long is stored as if it had one word, and its second word is the slot
of the context. -/
def wide : Method where
  access := staticFlag
  name := "execute"
  descriptor := "()V"
  maxLocals := 2
  code := {
    instrs := [.iconst 0, .jump (.ifZero .eq) 1,
      .label 0, .lconst 5, .slot (.store .reference) 1, .jump .goto 2,
      .label 1, .iconst 1, .iconst 0, .plain (.arith .div .int), .plain (.shuffle .pop),
      .label 2, .plain (.leave none),
      .label 3, .slot (.store .reference) 0, .plain .nop, .pause, .plain (.leave none)]
    regions := [⟨0, 2, 3, none⟩] }

/-- A static method that calls itself on a receiver, which takes the slot of the parameter. -/
def received : Method where
  access := staticFlag
  name := "execute"
  descriptor := "(Ljava/lang/Object;)V"
  maxLocals := 2
  code.instrs := [.slot (.load .reference) 0, .jump (.ifNull false) 0,
    .typed .new "app/C", .typed .new "app/A",
    .invoke .virtual ⟨"app/C", "execute", "(Ljava/lang/Object;)V"⟩, .plain (.leave none),
    .label 0, .plain .nop, .pause, .plain (.leave none)]

/-- Hands a reference that it got from the host to another method of its class. -/
def trusting : Method where
  access := staticFlag
  name := "execute"
  descriptor := "()V"
  maxLocals := 1
  code.instrs := [.iconst 7, .slot (.store .int) 0,
    .invoke .static ⟨"app/H", "leak", "()Ljava/lang/Object;"⟩,
    .invoke .static ⟨"app/C", "meddle", "(Ljava/lang/Object;)V"⟩, .plain .nop, .pause,
    .plain (.leave none)]

/-- Takes that reference for a context, and stores another int in it. -/
def meddling : Method where
  access := staticFlag
  name := "meddle"
  descriptor := "(Ljava/lang/Object;)V"
  maxLocals := 1
  code.instrs := [.slot (.load .reference) 0, callService Service.getLocalVars, .iconst 0, .iconst 1,
    callService (Service.store .int), .plain (.leave none)]

/-- Goes to an address that a subroutine call of another method has left. -/
def stray : Method where
  access := staticFlag
  name := "execute"
  descriptor := "()V"
  maxLocals := 2
  code.instrs := [.plain .nop, .iconst 7, .slot (.store .int) 0, .plain .aconstNull,
    .invoke .static ⟨"app/C", "leak", "()V"⟩,
    .field .getStatic ⟨"app/C", "x", "Ljava/lang/Object;"⟩, .slot (.store .reference) 1,
    .slot .ret 1, .label 0, .pause, .plain (.leave none)]

/-- Leaves an address in a static field. -/
def leaking : Method where
  access := staticFlag
  name := "leak"
  descriptor := "()V"
  maxLocals := 0
  code.instrs := [.jump .jsr 0, .label 0, .field .putStatic ⟨"app/C", "x", "Ljava/lang/Object;"⟩,
    .plain (.leave none)]

end Mirroring

/-- None of the premises can be dropped: in front of a return the context is gone, and it is overwritten by a
value that does not end below the reserved slots; the parameter of a static method that is called on a
receiver is not copied, other code may store into the context, and a stray return from a subroutine takes a
new one. -/
theorem mirror_invariant_broken :
    Mirroring.seen [] Mirroring.leaving {} [] 20 0 1 = some (.plain (.leave none), .int 7, none) ∧
      Mirroring.seen [] Mirroring.wide {} [] 34 0 2 = some (.plain .nop, .object ⟨2⟩, none) ∧
      Mirroring.seen [] Mirroring.received {} [.null] 32 1 2 =
        some (.plain .nop, .object ⟨4⟩, some .null) ∧
      Mirroring.seen [Mirroring.meddling] Mirroring.trusting
        { rules := [(("app/H", "leak"), .supply (.value (.object ⟨1⟩)))] } [] 22 0 1 =
          some (.plain .nop, .int 7, some (.int 1)) ∧
      Mirroring.seen [Mirroring.leaking] Mirroring.stray {} [] 35 0 2 =
        some (.plain .nop, .int 7, some (.int 0)) := by
  decide +kernel

end Suspension
