import Suspension.Proofs.Symbolic.Complete

/-!
# Stacks at joins

Slots may disagree at a join if the policy says so, but stacks may not: on every edge other than those of
exceptions the stack is compared with the one that the target was entered with.  Handlers are left out of
this.  A handler is interpreted with the exception alone on the stack, whatever an edge brings there, so code
that runs into a handler with another stack is accepted.

## Main results
* `Pass.edge_stack`: what a checked edge delivers to a block that is no handler.
* `stacks_agree`: what holds at the joins of an accepted method.
* `intrusion_accepted`: a method that comes to its handler with an int is accepted.
-/

namespace Suspension

namespace Pass

variable {g : Graph} {metrics : Metrics} {widened : Widenings} {root : SymFrame} {p : Pass} {live : Liveness}
  {policy : JoinPolicy}

/-- A checked edge delivers the kinds of values that its target was interpreted with. -/
theorem edge_stack {asked : Widenings}
    (checked : (p.check g live policy (List.range g.blocks.length)).result = .ok asked) {place : Nat}
    {b : Block} {v u : Visit} (hb : g.block? place = some b) (hv : p.visits[place]? = some v) {e : Edge}
    (he : e ∈ b.edges) (regular : e.kind ≠ .exception) {target : Block}
    (htarget : g.block? e.target = some target) (noHandler : target.handler = false) {entry : Entry}
    (hentry : p.entries[e.target]? = some entry) (opened : u.opening = target.opening metrics entry.frame)
    (made : entry.via = some (place, e.kind) →
      entry.frame = widened.forget e.target (e.kind.deliver v.trail.frame)) :
    u.opening.stack.map Tag.kind = (e.kind.deliver v.trail.frame).stack.map Tag.kind := by
  rw [opened, Block.opening_regular noHandler]
  by_cases first : entry.via = some (place, e.kind)
  · rw [made first]
    exact (SymFrame.Alike.forget (S := fun _ => True) _ widened e.target).stack.symm
  · have inRange : place < g.blocks.length := (List.getElem?_eq_some_iff.1 hb).1
    obtain ⟨own, hown, -⟩ := exists_checkEdge_of_check checked (List.mem_range.2 inRange) hb hv he
    exact kinds_of_checkEdge hown hentry htarget regular noHandler first

end Pass

/-- In a method that is accepted, under either policy, every edge out of a visited block that is not one of
exceptions delivers to a block that is no handler a stack of the height and the kinds that the block was
interpreted with.  A handler was interpreted with exactly one reference, of the class that it catches. -/
theorem stacks_agree {className : String} {method : Method} {config : Config} {metrics : Metrics} {s : Shape}
    (accepted : (Shape.ofMethod className method config metrics).result = .ok s) :
    ∃ (g : Graph) (root : SymFrame) (widened : Widenings) (p : Pass),
      Graph.build className method config = .ok g ∧ SymFrame.root className method = .ok root ∧
      (Pass.ofGraph g metrics widened root).result = .ok p ∧ s = p.shape g ∧
      ∀ {place : Nat} {b : Block} {v : Visit}, g.block? place = some b → p.visits[place]? = some v →
        ∀ e ∈ b.edges, e.kind ≠ .exception → ∃ (target : Block) (u : Visit), g.block? e.target = some target ∧
          p.visits[e.target]? = some u ∧ target.interpret u.opening = .ok u ∧
          (target.handler = false →
            u.opening.stack.map Tag.kind = (e.kind.deliver v.trail.frame).stack.map Tag.kind) ∧
          (target.handler = true →
            u.opening.stack = [.ref ((target.label.bind metrics.caughtBy).getD throwableClass)]) := by
  obtain ⟨g, root, widened, p, asked, built, hroot, hp, checked, rfl⟩ := Shape.exists_pass accepted
  refine ⟨g, root, widened, p, built, hroot, hp, rfl, fun {place b v} hb hv e he regular => ?_⟩
  have complete := Pass.complete_ofGraph (Graph.closed_of_build built) hp
  obtain ⟨entry, target, u, hentry, htarget, hu, interpreted, opened, made⟩ := complete.edge_visited hb hv he
  refine ⟨target, u, htarget, hu, interpreted, fun noHandler => ?_, fun handler => ?_⟩
  · exact Pass.edge_stack checked hb hv he regular htarget noHandler hentry opened made
  · rw [opened, Block.opening, if_pos handler]

/-- Comes to its own handler with an int, behind what the handler protects. -/
def intrusion : Method where
  access := staticFlag
  name := "execute"
  descriptor := "()V"
  maxLocals := 0
  code := {
    instrs := [.label 0, .plain .nop, .label 1, .iconst 1, .label 2, .plain (.shuffle .pop), .plain (.leave none)]
    regions := [⟨0, 1, 2, none⟩] }

/-- The graph of the intrusion. -/
def intrusionGraph : Graph where
  blocks := [
    ⟨some 0, 0, false, [], [⟨2, .exception⟩], some 1⟩,
    ⟨some 1, 2, false, [⟨3, .push .int⟩], [], some 2⟩,
    ⟨some 2, 4, true, [⟨5, .popWords 1⟩], [], none⟩]
  sites := []

/-- What is measured of it. -/
def intrusionMetrics : Metrics := { caught := [(2, throwableClass)] }

/-- The one edge of the intrusion that does not lead to its handler brings the stack that is expected. -/
theorem intrusion_agrees :
    ∃ (s : Shape) (p : Pass) (v u : Visit),
      (Shape.ofMethod "app/C" intrusion {} intrusionMetrics).result = .ok s ∧ s = p.shape intrusionGraph ∧
      p.visits[0]? = some v ∧ p.visits[1]? = some u ∧
      u.opening.stack.map Tag.kind = v.trail.frame.stack.map Tag.kind := by
  obtain ⟨s, accepted⟩ : ∃ s, (Shape.ofMethod "app/C" intrusion {} intrusionMetrics).result = .ok s :=
    exists_ok (by decide +kernel)
  obtain ⟨g, root, widened, p, built, -, hp, hs, agree⟩ := stacks_agree accepted
  have known : Graph.build "app/C" intrusion {} = .ok intrusionGraph := eq_ok_of_toOption (by decide +kernel)
  cases built.symm.trans known
  have complete := Pass.complete_ofGraph (Graph.closed_of_build built) hp
  obtain ⟨b, v, hb, hv, -⟩ := complete.visit 0 _ complete.entry
  cases hb
  obtain ⟨target, u, ⟨⟩, hu, -, same, -⟩ := agree rfl hv ⟨1, .fallthrough⟩ (by decide) (by decide)
  exact ⟨s, p, v, u, accepted, hs, hv, hu, same rfl⟩

/-- The intrusion is accepted under both policies, although the block in front of the handler hands it an int
and the handler is interpreted with a reference. -/
theorem intrusion_accepted :
    ∃ (s : Shape) (p : Pass) (root : SymFrame) (v u : Visit),
      Metrics.measure "app/C" intrusion {} = .ok intrusionMetrics ∧
      (Shape.ofMethod "app/C" intrusion {} intrusionMetrics).result = .ok s ∧
      (Shape.ofMethod "app/C" intrusion { joinPolicy := .firstPredecessor } intrusionMetrics).result = .ok s ∧
      Graph.build "app/C" intrusion {} = .ok intrusionGraph ∧
      SymFrame.root "app/C" intrusion = .ok root ∧
      (Pass.ofGraph intrusionGraph intrusionMetrics [] root).result = .ok p ∧ s = p.shape intrusionGraph ∧
      p.visits[1]? = some v ∧ (EdgeKind.fallthrough.deliver v.trail.frame).stack = [.int] ∧
      p.visits[2]? = some u ∧ u.opening.stack = [.ref throwableClass] := by
  have built : Graph.build "app/C" intrusion {} = .ok intrusionGraph := eq_ok_of_toOption (by decide +kernel)
  have measured : Metrics.measure "app/C" intrusion {} = .ok intrusionMetrics :=
    eq_ok_of_toOption (by decide +kernel)
  have shaped (policy : JoinPolicy) : (SymFrame.root "app/C" intrusion).toOption.bind (fun root =>
      (Pass.ofGraph intrusionGraph intrusionMetrics [] root).result.toOption.map fun p => p.shape intrusionGraph) =
      (Shape.ofMethod "app/C" intrusion { joinPolicy := policy } intrusionMetrics).result.toOption := by
    cases policy <;> decide +kernel
  have visited : ((SymFrame.root "app/C" intrusion).toOption.bind fun root =>
      (Pass.ofGraph intrusionGraph intrusionMetrics [] root).result.toOption.bind fun p =>
        (p.visits[1]?).bind fun v => (p.visits[2]?).map fun u =>
          ((EdgeKind.fallthrough.deliver v.trail.frame).stack, u.opening.stack)) =
      some ([.int], [.ref throwableClass]) := by decide +kernel
  obtain ⟨root, hroot, visited⟩ := Option.bind_eq_some_iff.1 visited
  obtain ⟨p, hp, visited⟩ := Option.bind_eq_some_iff.1 visited
  obtain ⟨v, hv, visited⟩ := Option.bind_eq_some_iff.1 visited
  obtain ⟨u, hu, visited⟩ := Option.map_eq_some_iff.1 visited
  simp only [hroot, hp, Option.bind_some, Option.map_some] at shaped
  exact ⟨p.shape intrusionGraph, p, root, v, u, measured, eq_ok_of_toOption (shaped .reject).symm,
    eq_ok_of_toOption (shaped .firstPredecessor).symm, built, eq_ok_of_toOption hroot, eq_ok_of_toOption hp, rfl,
    hv, (Prod.mk.inj visited).1, hu, (Prod.mk.inj visited).2⟩

end Suspension
