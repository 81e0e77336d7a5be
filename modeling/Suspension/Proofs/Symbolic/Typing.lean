import Suspension.Proofs.Symbolic.Complete

/-!
# Typings

A typing of a graph admits some frames at each of its blocks.  If a method has one, then its analysis
succeeds: the frames that the traversal meets are admitted, so every block can be interpreted, and two
frames that are admitted at the same block agree on all that a check compares.

Frames that are admitted at a block may differ in a slot, but then the block must be able to do without:
some frame is admitted that does not have the slot at all, so nothing behind the block reads it.

## Main definitions
* `Graph.Typing`: the frames that are admitted at the blocks of a graph.

## Main results
* `Graph.Typing.mem_of_live`: every admitted frame has the slots that are live.
* `Shape.exists_of_typing`: a method with a typing has a shape.
-/

namespace Suspension

/-- The frames that are admitted at the blocks of a graph without handlers, among them `root` at the first
block. -/
structure Graph.Typing (g : Graph) (root : SymFrame) (admits : Nat → SymFrame → Prop) : Prop where
  root : admits 0 root
  noHandler : ∀ b ∈ g.blocks, b.handler = false
  regular : ∀ b ∈ g.blocks, ∀ e ∈ b.edges, e.kind ≠ .exception
  run : ∀ n b f, g.block? n = some b → admits n f → ∃ exit, Step.run b.steps f = .ok exit ∧
    ∀ e ∈ b.edges, admits e.target (e.kind.deliver exit)
  widen : ∀ n (w : Widening) f, admits n f → admits n (w.apply f)
  operands : ∀ n f f', admits n f → admits n f' → f.stack.map Tag.kind = f'.stack.map Tag.kind
  slots : ∀ n f f', admits n f → admits n f' → ∀ s : Slot,
    f.locals[s]?.map Tag.kind = f'.locals[s]?.map Tag.kind ∨ ∃ f, admits n f ∧ s ∉ f.locals

namespace Graph.Typing

variable {g : Graph} {metrics : Metrics} {root : SymFrame} {admits : Nat → SymFrame → Prop} {n : Nat}
  {f f' : SymFrame}

/-- A traversal meets admitted frames only. -/
theorem keepsAt (h : g.Typing root admits) : g.KeepsAt metrics admits where
  run n b hb f exit hf ran e he := by
    obtain ⟨exit', ran', delivered⟩ := h.run n b f hb hf
    cases ran.symm.trans ran'
    exact delivered e he
  opening n b hb f hf := by
    rw [Block.opening_regular (h.noHandler b (List.mem_of_getElem? hb))]
    exact hf
  widen := h.widen

/-- Every admitted frame has the slots that are live, since whatever reads them succeeds. -/
theorem mem_of_live (h : g.Typing root admits) {s : Slot} (live : s ∈ (Liveness.compute g).liveIn n)
    (hf : admits n f) : s ∈ f.locals := by
  refine Liveness.of_mem_compute (P := fun n s => ∀ f, admits n f → s ∈ f.locals) ?_ ?_ live f hf
  · intro n b s hb used f hf
    obtain ⟨exit, ran, -⟩ := h.run n b f hb hf
    exact Step.mem_of_uses ran used (by simp)
  · intro n b e s hb he behind undefined f hf
    obtain ⟨exit, ran, delivered⟩ := h.run n b f hb hf
    have regular := h.regular b (List.mem_of_getElem? hb) e he
    have there := behind _ (delivered e he)
    refine Step.mem_before ran ?_ (undefined.resolve_left regular)
    cases kind : e.kind <;> rw [kind] at there <;> exact there

/-- Frames that are admitted at the same block agree on what is live there. -/
theorem alike (h : g.Typing root admits) (hf : admits n f) (hf' : admits n f') :
    f.Alike (· ∈ (Liveness.compute g).liveIn n) f' where
  stack := h.operands n f f' hf hf'
  slots s live := (h.slots n f f' hf hf' s).resolve_right fun ⟨_, hf'', missing⟩ =>
    missing (h.mem_of_live live hf'')

end Graph.Typing

namespace Pass

variable {g : Graph} {metrics : Metrics} {root : SymFrame} {admits : Nat → SymFrame → Prop} {p : Pass}
  {live : Liveness} {policy : JoinPolicy} {place : Nat} {exit : SymFrame}

theorem checkSlots_eq_ok {entry incoming : SymFrame} {slots : List Slot}
    (h : ∀ s ∈ slots, agree entry.locals[s]? incoming.locals[s]? = true) :
    (checkSlots policy place entry incoming slots).result = .ok () := by
  induction slots with
  | nil => rfl
  | cons s rest ih =>
    unfold checkSlots
    simp only [h s List.mem_cons_self, if_true]
    exact ih fun x hx => h x (List.mem_cons_of_mem _ hx)

/-- An edge passes the check if it delivers a frame that looks like the one that its target was entered with.
It is checked only if the target was entered and is no handler; then kinds have to agree. -/
theorem exists_checkEdge {e : Edge} (h : ∀ entry, p.entries[e.target]? = some entry →
    entry.frame.Alike (· ∈ live.liveIn e.target) (e.kind.deliver exit)) :
    ∃ asked, (p.checkEdge g live policy place exit e).result = .ok asked := by
  unfold checkEdge
  split
  · next entry target hentry htarget =>
    obtain ⟨stack, slots⟩ := h entry hentry
    split
    · exact ⟨_, rfl⟩
    · dsimp only
      split
      · exact ⟨_, rfl⟩
      · have same : sameKinds entry.frame.stack (e.kind.deliver exit).stack = true := by
          simpa [sameKinds] using stack
        have agreed : (checkSlots policy target.start entry.frame (e.kind.deliver exit)
            (live.liveIn e.target).toList).result = .ok () :=
          checkSlots_eq_ok fun s hs => agree_iff.2 (slots s (Std.ExtTreeSet.mem_toList.1 hs))
        simp only [same, Bool.not_true, Bool.and_false, Bool.false_eq_true, if_false]
        simp only [Reported.result_bind]
        exact ⟨_, bind_eq_ok.2 ⟨(), agreed, rfl⟩⟩
  · exact ⟨_, rfl⟩

theorem exists_checkEdges {edges : List Edge}
    (h : ∀ e ∈ edges, ∃ asked, (p.checkEdge g live policy place exit e).result = .ok asked) :
    ∃ asked, (p.checkEdges g live policy place exit edges).result = .ok asked := by
  induction edges with
  | nil => exact ⟨[], rfl⟩
  | cons e rest ih =>
    obtain ⟨first, hfirst⟩ := h e List.mem_cons_self
    obtain ⟨others, later⟩ := ih fun x hx => h x (List.mem_cons_of_mem _ hx)
    rw [checkEdges]
    simp only [Reported.result_bind]
    exact ⟨first ++ others, bind_eq_ok.2 ⟨first, hfirst, bind_eq_ok.2 ⟨others, later, rfl⟩⟩⟩

/-- The edges out of all visited blocks pass the check. -/
theorem exists_check (h : g.Typing root admits) (every : p.Every g admits) (places : List Nat) :
    ∃ asked, (p.check g (Liveness.compute g) policy places).result = .ok asked := by
  induction places with
  | nil => exact ⟨[], rfl⟩
  | cons place rest ih =>
    obtain ⟨others, later⟩ := ih
    rw [check]
    split
    · next v b hv hb =>
      obtain ⟨b', -, hb', opening, interpreted⟩ := every.visits place v hv
      cases hb.symm.trans hb'
      have ran := Trail.run_of_foldlM (Block.interpret_eq_ok interpreted).2
      have delivered := (h.keepsAt : g.KeepsAt {} admits).run place b hb _ _ opening ran
      have passed : ∃ asked,
          (p.checkEdges g (Liveness.compute g) policy place v.trail.frame b.edges).result = .ok asked :=
        exists_checkEdges fun e he =>
          exists_checkEdge fun entry hentry => h.alike (every.entries _ entry hentry) (delivered e he)
      obtain ⟨first, hfirst⟩ := passed
      simp only [Reported.result_bind]
      exact ⟨first ++ others, bind_eq_ok.2 ⟨first, hfirst, bind_eq_ok.2 ⟨others, later, rfl⟩⟩⟩
    · simp only [Reported.result_bind]
      exact ⟨[] ++ others, bind_eq_ok.2 ⟨[], rfl, bind_eq_ok.2 ⟨others, later, rfl⟩⟩⟩

/-- A graph with a typing can be traversed. -/
theorem exists_ofGraph (h : g.Typing root admits) (widened : Widenings) :
    ∃ p, (ofGraph g metrics widened root).result = .ok p ∧ p.Every g admits := by
  have start : (({} : Pass).enter widened 0 root none).Every g admits :=
    every_start (h.keepsAt : g.KeepsAt metrics admits) h.root
  have runs (n : Nat) (b : Block) (f : SymFrame) (hb : g.block? n = some b) (hf : admits n f) :
      ∃ exit, Step.run b.steps f = .ok exit := (h.run n b f hb hf).imp fun _ ran => ran.1
  obtain ⟨p, hp⟩ := exists_traverse (n := g.blocks.length + 1) (h.keepsAt : g.KeepsAt metrics admits) runs start
  exact ⟨p, hp, every_ofGraph h.keepsAt h.root hp⟩

/-- A graph with a typing can be traversed, and what the traversal found passes the check. -/
theorem exists_checked (metrics : Metrics) (policy : JoinPolicy) (h : g.Typing root admits) (widened : Widenings) :
    ∃ p asked, (ofGraph g metrics widened root).result = .ok p ∧
      (p.check g (Liveness.compute g) policy (List.range g.blocks.length)).result = .ok asked := by
  obtain ⟨p, hp, every⟩ := exists_ofGraph h widened
  obtain ⟨asked, checked⟩ := exists_check h every (List.range g.blocks.length)
  exact ⟨p, asked, hp, checked⟩

end Pass

namespace Shape

variable {g : Graph} {metrics : Metrics} {root : SymFrame} {admits : Nat → SymFrame → Prop} {method : Method}

theorem exists_rounds_of_typing {policy : JoinPolicy} (h : g.Typing root admits) (n : Nat)
    (widened : Widenings) :
    ∃ s, (rounds g (Liveness.compute g) method metrics policy root n widened).result = .ok s := by
  induction n generalizing widened with
  | zero =>
    obtain ⟨p, asked, hp, checked⟩ := Pass.exists_checked metrics policy h widened
    rw [rounds.eq_def]
    simp only [Reported.result_bind]
    exact ⟨_, bind_eq_ok.2 ⟨p, hp, bind_eq_ok.2 ⟨asked, checked, rfl⟩⟩⟩
  | succ n ih =>
    obtain ⟨p, asked, hp, checked⟩ := Pass.exists_checked metrics policy h widened
    obtain ⟨s, again⟩ := ih (widened.add asked)
    rw [rounds.eq_def]
    simp only [Reported.result_bind]
    by_cases settled : widened.add asked = widened
    · refine ⟨p.shape g, bind_eq_ok.2 ⟨p, hp, bind_eq_ok.2 ⟨asked, checked, ?_⟩⟩⟩
      rw [if_pos settled]
      rfl
    · refine ⟨s, bind_eq_ok.2 ⟨p, hp, bind_eq_ok.2 ⟨asked, checked, ?_⟩⟩⟩
      rw [if_neg settled]
      exact again

/-- A method with a typing has a shape, if its sites were counted as its graph counts them. -/
theorem exists_of_typing {className : String} {config : Config} (h : g.Typing root admits)
    (built : Graph.build className method config = .ok g) (hroot : SymFrame.root className method = .ok root)
    (counted : g.sites.length = metrics.siteCount) :
    ∃ s, (ofMethod className method config metrics).result = .ok s := by
  have settled : ∃ s, (rounds g (Liveness.compute g) method metrics config.joinPolicy root (roundBound g)
      []).result = .ok s :=
    exists_rounds_of_typing h (roundBound g) []
  obtain ⟨s, hs⟩ := settled
  refine ⟨s, ?_⟩
  unfold ofMethod Graph.ofMethod
  simp only [Reported.result_bind, Reported.result_ofExcept]
  refine bind_eq_ok.2 ⟨g, bind_eq_ok.2 ⟨g, built, rfl⟩, ?_⟩
  rw [if_neg (not_not_intro counted)]
  simp only [Reported.result_bind, Reported.result_ofExcept]
  exact bind_eq_ok.2 ⟨root, hroot, hs⟩

end Shape

end Suspension
