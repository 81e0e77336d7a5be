import Suspension.Proofs.Transform.Again
import Suspension.Proofs.Weave.Relaying

/-!
# Suspendable methods are accepted

A method without handlers that was made suspendable is measured and analysed like any other, and passes: its
code is made of sections, so it has a typing, so it has a shape.  What the analysis does not look at has to be
in order on the paths of the method, which is what `Method.Tame` says.

## Main results
* `Weaving.exists_traced`: what is known of a method that was made suspendable.
* `woven_accepted`: a suspendable method is accepted, and all of its paths can be interpreted.
-/

namespace Suspension

variable {className : String} {config : Config}

/-- A method that was made suspendable was analysed under the policy to reject what diverges. -/
theorem Weaving.exists_traced (W : Weaving) {root : SymFrame} (reject : W.config.joinPolicy = .reject)
    (regions : W.method.code.regions = []) (snapshots : none ∉ W.shape.sites)
    (rooted : SymFrame.root W.className W.method = .ok root)
    (tame : W.method.Tame W.className W.config root (W.method.reserved W.metrics)) :
    ∃ g widened p, W.Traced root g widened p := by
  have nonempty : W.instrs ≠ [] := by
    obtain ⟨i, hi, -⟩ := (Metrics.needsWeaving_iff W.measured).1 W.needed
    exact List.ne_nil_of_mem hi
  obtain ⟨g, widened, p, accepted, shape⟩ :=
    Method.Accepted.of_shape regions nonempty reject W.shaped rooted tame.loads
  exact ⟨g, widened, p, accepted, rooted, shape, snapshots, W.base_eq ▸ tame⟩

/-- A method without handlers that was made suspendable is accepted when it is measured and analysed again, and
every path of it can be interpreted: there are enough operands everywhere, no value is split, and no slot is
read before it is set, those of the inserted code included.  Where paths may join they bring values of the same
kinds on their stacks. -/
theorem woven_accepted {m m' : Method} {metrics : Metrics} {shape : Shape} {root : SymFrame}
    (reject : config.joinPolicy = .reject) (regions : m.code.regions = [])
    (measured : (Metrics.ofMethod className m config).result = .ok metrics)
    (shaped : (Shape.ofMethod className m config metrics).result = .ok shape) (snapshots : none ∉ shape.sites)
    (rooted : SymFrame.root className m = .ok root) (tame : m.Tame className config root (m.reserved metrics))
    (transformed : (m.transform className config).result = .ok (some m')) :
    ∃ metrics' shape', (Metrics.ofMethod className m' config).result = .ok metrics' ∧
      (Shape.ofMethod className m' config metrics').result = .ok shape' ∧
      SymFrame.root className m' = .ok root ∧
      (∀ place i f, m'.code.instrs[place]? = some i → m'.Reaches className config root place f →
        ∃ f', Step.run (i.steps className config) f = .ok f') ∧
      ∀ place f f', place < m'.code.instrs.length → m'.Opens place → m'.Reaches className config root place f →
        m'.Reaches className config root place f' → f.stack.map Tag.kind = f'.stack.map Tag.kind := by
  obtain ⟨W, rfl, rfl, rfl, rfl⟩ := Weaving.exists_of_transform transformed
  rw [Metrics.result_ofMethod] at measured
  cases W.measured.symm.trans measured
  cases W.shaped.symm.trans shaped
  obtain ⟨g, widened, p, T⟩ := W.exists_traced reject regions snapshots rooted tame
  have typing := T.sections.typing
  obtain ⟨metrics', measured'⟩ := W.exists_measured
  obtain ⟨g', built⟩ := W.exists_graph_again regions
  have nonempty : W.result.code.instrs ≠ [] := by
    obtain ⟨i, there⟩ : ∃ i, W.stream[(W.plan.obtaining ++ W.plan.dispatch).length]? = some i := ⟨_, Weaving.label_start⟩
    exact List.ne_nil_of_mem (List.mem_of_getElem? there)
  have rooted' : SymFrame.root W.className W.result = .ok root := rooted
  obtain ⟨shape', shaped'⟩ := typing.exists_shape regions nonempty rooted' built (Metrics.siteCount_eq measured')
  refine ⟨metrics', shape', (Metrics.result_ofMethod _).trans measured', shaped', rooted', ?_, ?_⟩
  · intro place i f here reaches
    obtain ⟨f', ran, -⟩ := typing.step place i f here (typing.of_reaches reaches (List.getElem?_eq_some_iff.1 here).1)
    exact ⟨f', ran⟩
  · intro place f f' lt opens reaches reaches'
    exact typing.operands place f f' opens (typing.of_reaches reaches lt) (typing.of_reaches reaches' lt)

/-! ### A method that is accepted -/

/-- In code that does not jump there is one path. -/
theorem Method.Reaches.straight {m : Method} {root f : SymFrame} {place : Nat}
    (reaches : m.Reaches className config root place f) (stays : ∀ i ∈ m.code.instrs, i.targets = []) :
    Step.run (stepsOf className config (m.code.instrs.take place)) root = .ok f := by
  induction reaches with
  | entry => rfl
  | @step place j i f f' kind before here ran leads regular ih =>
    cases leads with
    | on =>
      rw [stepsOf_take_succ here, Step.run_append, ih]
      exact ran
    | jump mem =>
      rw [stays i (List.mem_of_getElem? here)] at mem
      cases mem
    | caught => exact absurd rfl regular

namespace Accepted

/-- An instance method that calls its own pause with the parameter on the stack. -/
def waiting : Method where
  access := 1
  name := "execute"
  descriptor := "(I)V"
  maxLocals := 2
  code.instrs := [.load .int 1, .load .reference 0, .invoke .virtual ⟨"app/C", "pause", "()V"⟩,
    .plain (.shuffle .pop), .plain (.leave none)]

/-- The receiver is on top of the stack where the method pauses. -/
theorem tame_waiting {root : SymFrame} (rooted : SymFrame.root "app/C" waiting = .ok root) (reserved : Nat) :
    waiting.Tame "app/C" {} root reserved where
  loads place i f here _ := by
    have none : ∀ i ∈ waiting.code.instrs, ∀ s ∈ i.steps "app/C" {}, s.op ≠ .aaload := by decide +kernel
    exact .of_none (none i (List.mem_of_getElem? here)) f
  stores place slot f t rest here := by
    have := List.mem_of_getElem? here
    simp [waiting] at this
  receivers place kind callee sig f here _ parsed reaches _ t ht := by
    have paused : (SymFrame.root "app/C" waiting).toOption.bind (fun root =>
        (Step.run (stepsOf "app/C" {} (waiting.code.instrs.take 2)) root).toOption.map (·.stack)) =
        some [.ref "app/C", .int] := by decide +kernel
    have ran := reaches.straight (by decide)
    obtain ⟨rfl, rfl⟩ : place = 2 ∧ callee = ⟨"app/C", "pause", "()V"⟩ := by
      rcases place with _ | _ | _ | _ | _ | place <;> simp [waiting] at here ⊢
      exact here.2.symm
    have quiet : Signature.parse "()V" = .ok ⟨[], none⟩ := eq_ok_of_toOption (by decide +kernel)
    cases parsed.symm.trans quiet
    rw [rooted, Except.toOption, Option.bind_some, ran] at paused
    have stack : f.stack = [.ref "app/C", .int] := Option.some.inj paused
    rw [stack] at ht
    cases ht
    rfl
  receiver _ k slot here := by simp [waiting] at here

end Accepted

/-- The method that was made suspendable is accepted. -/
theorem waiting_woven :
    ∃ m' metrics' shape', (Accepted.waiting.transform "app/C" {}).result = .ok (some m') ∧
      (Metrics.ofMethod "app/C" m' {}).result = .ok metrics' ∧
      (Shape.ofMethod "app/C" m' {} metrics').result = .ok shape' := by
  obtain ⟨m', transformed⟩ : ∃ m', (Accepted.waiting.transform "app/C" {}).result = .ok (some m') :=
    exists_ok_some (by decide +kernel)
  obtain ⟨root, rooted⟩ : ∃ root, SymFrame.root "app/C" Accepted.waiting = .ok root := exists_ok (by decide +kernel)
  have known : ((Metrics.ofMethod "app/C" Accepted.waiting {}).result.toOption.bind fun metrics =>
      (Shape.ofMethod "app/C" Accepted.waiting {} metrics).result.toOption.map fun shape =>
        decide (none ∉ shape.sites)) = some true := by decide +kernel
  obtain ⟨metrics, measured, known⟩ := Option.bind_eq_some_iff.1 known
  obtain ⟨shape, shaped, snapshots⟩ := Option.map_eq_some_iff.1 known
  obtain ⟨metrics', shape', measured', shaped', -⟩ := woven_accepted rfl rfl (eq_ok_of_toOption measured)
    (eq_ok_of_toOption shaped) (of_decide_eq_true snapshots) rooted (Accepted.tame_waiting rooted _) transformed
  exact ⟨m', metrics', shape', transformed, measured', shaped'⟩

/-! ### Methods that are not tame -/

namespace Accepted

/-- Calls its pause on a value of two words. -/
def misled : Method where
  access := staticFlag
  name := "execute"
  descriptor := "()V"
  maxLocals := 0
  code.instrs := [.lconst 0, .invoke .virtual ⟨"app/C", "pause", "()V"⟩, .plain (.leave none)]

/-- Stores a value of two words as a reference in its last slot. -/
def spilling : Method where
  access := staticFlag
  name := "execute"
  descriptor := "()V"
  maxLocals := 1
  code.instrs := [.lconst 0, .store .reference 0, .invoke .static ⟨"app/C", "pause", "()V"⟩, .plain (.leave none)]

/-- A static method without handlers and subroutines, and without loads from arrays, is accepted with a
snapshot of each site and made suspendable, but what it became is refused. -/
def Refused (m : Method) (e : AnalysisError) : Prop :=
  (m.code.regions = [] ∧ m.isStatic = true) ∧
    (∀ i ∈ m.code.instrs, i.targets = [] ∧ (∀ slot, i ≠ .slot .ret slot) ∧
      ∀ s ∈ i.steps "app/C" {}, s.op ≠ .aaload) ∧
    ∃ m' metrics shape metrics', (Metrics.ofMethod "app/C" m {}).result = .ok metrics ∧
      (Shape.ofMethod "app/C" m {} metrics).result = .ok shape ∧ none ∉ shape.sites ∧
      (m.transform "app/C" { joinPolicy := .reject }).result = .ok (some m') ∧
      (Metrics.ofMethod "app/C" m' {}).result = .ok metrics' ∧
      (Shape.ofMethod "app/C" m' {} metrics').result = .error e

/-- Whether all sites of a method have snapshots. -/
def covered (m : Method) : Option Bool :=
  (Metrics.ofMethod "app/C" m {}).result.toOption.bind fun metrics =>
    (Shape.ofMethod "app/C" m {} metrics).result.toOption.map fun shape => decide (none ∉ shape.sites)

/-- Whether what a method becomes is refused with an error. -/
def refusedWith (m : Method) (e : AnalysisError) : Option Bool :=
  (m.transform "app/C" {}).result.toOption.join.bind fun m' =>
    (Metrics.ofMethod "app/C" m' {}).result.toOption.map fun metrics' =>
      decide ((Shape.ofMethod "app/C" m' {} metrics').result = .error e)

theorem exists_refusal {m : Method} {e : AnalysisError} (known : covered m = some true)
    (refused : refusedWith m e = some true) :
    ∃ m' metrics shape metrics', (Metrics.ofMethod "app/C" m {}).result = .ok metrics ∧
      (Shape.ofMethod "app/C" m {} metrics).result = .ok shape ∧ none ∉ shape.sites ∧
      (m.transform "app/C" { joinPolicy := .reject }).result = .ok (some m') ∧
      (Metrics.ofMethod "app/C" m' {}).result = .ok metrics' ∧
      (Shape.ofMethod "app/C" m' {} metrics').result = .error e := by
  obtain ⟨metrics, measured, known⟩ := Option.bind_eq_some_iff.1 known
  obtain ⟨shape, shaped, snapshots⟩ := Option.map_eq_some_iff.1 known
  obtain ⟨m', transformed, refused⟩ := Option.bind_eq_some_iff.1 refused
  obtain ⟨metrics', measured', refused⟩ := Option.map_eq_some_iff.1 refused
  exact ⟨m', metrics, shape, metrics', eq_ok_of_toOption measured, eq_ok_of_toOption shaped,
    of_decide_eq_true snapshots, eq_ok_of_toOption (Option.join_eq_some_iff.1 transformed),
    eq_ok_of_toOption measured', of_decide_eq_true refused⟩

end Accepted

/-- What two methods become is refused.  The first calls its pause on a value of two words, which is dropped as
a value of one.  The second stores such a value as a reference in its last slot, which takes the slot of the
context as well. -/
theorem untamed_refused :
    Accepted.Refused Accepted.misled (.wideValueSplit 8) ∧ Accepted.Refused Accepted.spilling (.undefinedLocal 9 1) := by
  have loads : ∀ i ∈ Accepted.misled.code.instrs ++ Accepted.spilling.code.instrs,
      i.targets = [] ∧ ∀ s ∈ i.steps "app/C" {}, s.op ≠ .aaload := by decide +kernel
  refine ⟨⟨⟨rfl, rfl⟩, fun i hi => ?_, Accepted.exists_refusal (by decide +kernel) (by decide +kernel)⟩,
    ⟨rfl, rfl⟩, fun i hi => ?_, Accepted.exists_refusal (by decide +kernel) (by decide +kernel)⟩
  · obtain ⟨targets, arrays⟩ := loads i (List.mem_append_left _ hi)
    refine ⟨targets, ?_, arrays⟩
    rintro slot rfl
    simp [Accepted.misled] at hi
  · obtain ⟨targets, arrays⟩ := loads i (List.mem_append_right _ hi)
    refine ⟨targets, ?_, arrays⟩
    rintro slot rfl
    simp [Accepted.spilling] at hi

end Suspension
