import Suspension.Proofs.Symbolic.Recall

/-!
# Every round goes the way of the first

A round differs from the first one in the classes that it forgets, and in nothing else: it enters the same
blocks by the same edges and in the same order, and each with a frame that recalls the one of the first round.
So a place in a frame, be it a slot or a stack entry counted from the bottom, means the same in every round.
With what is known of the places that rounds ask for, the search for a shape comes to an end.

## Main definitions
* `Pass.Retraces`: a traversal goes the way of another one.

## Main results
* `Pass.Retraces.traverse`: a traversal goes on the way that the other one goes on.
* `Pass.exists_retracing`: every round goes the way of the first one.
* `shape_found_in_rounds`: rounds come to an end, each asks for new places, and all find the same kinds.
-/

namespace Suspension

namespace SymFrame.Recalls

variable {S : Slot → Prop} {f g : SymFrame}

/-- To forget some classes is to recall less. -/
theorem forget (h : f.Recalls S g) (widened : Widenings) (place : Nat) : (widened.forget place f).Recalls S g := by
  unfold Widenings.forget
  induction widened.filter (·.1 = place) generalizing f with
  | nil => exact h
  | cons w rest ih => exact ih (h.widen w.2)

/-- What a handler finds on its stack does not depend on the frame that it is entered with. -/
theorem opening (h : f.Recalls S g) (b : Block) (metrics : Metrics) :
    (b.opening metrics f).Recalls S (b.opening metrics g) := by
  unfold Block.opening
  split
  · exact ⟨⟨.cons ⟨rfl, recalled_lasting.refl _⟩ .nil, h.related.slots⟩, h.alike.withStack rfl⟩
  · exact h

end SymFrame.Recalls

namespace Pass

variable {g : Graph} {metrics : Metrics} {widened : Widenings} {root : SymFrame} {p p' q q' : Pass}

/-- A traversal goes the way of another one: the same blocks were entered, by the same edges, and wait in the
same order; each was entered with a frame that recalls the one that the other traversal entered it with. -/
structure Retraces (p q : Pass) : Prop where
  pending : p.pending = q.pending
  via : ∀ place : Nat, p.entries[place]?.map Entry.via = q.entries[place]?.map Entry.via
  frames : ∀ (place : Nat) (e e' : Entry), p.entries[place]? = some e → q.entries[place]? = some e' →
    e.frame.Recalls (fun _ => True) e'.frame

namespace Retraces

theorem mem_iff (h : p.Retraces q) (place : Nat) : place ∈ p.entries ↔ place ∈ q.entries := by
  rw [Std.ExtTreeMap.mem_iff_isSome_getElem?, Std.ExtTreeMap.mem_iff_isSome_getElem?,
    ← Option.isSome_map (f := Entry.via), h.via, Option.isSome_map]

/-- Both enter the same block. -/
theorem enter (h : p.Retraces q) (widened : Widenings) (place : Nat) {f f' : SymFrame}
    (recalls : f.Recalls (fun _ => True) f') (via : Option (Nat × EdgeKind)) :
    (p.enter widened place f via).Retraces (q.enter [] place f' via) := by
  refine ⟨?_, fun other => ?_, fun other e e' he he' => ?_⟩
  · simp only [Pass.enter, h.pending]
  · simp only [Pass.enter, Std.ExtTreeMap.getElem?_insert]
    split
    · rfl
    · exact h.via other
  · simp only [Pass.enter, Std.ExtTreeMap.getElem?_insert] at he he'
    split at he
    · next same =>
      rw [if_pos same] at he'
      cases he
      cases he'
      exact recalls.forget widened place
    · next other' =>
      rw [if_neg other'] at he'
      exact h.frames other e e' he he'

/-- Both follow the same edges out of a block. -/
theorem spread (h : p.Retraces q) (widened : Widenings) (place : Nat) {exit exit' : SymFrame}
    (recalls : exit.Recalls (fun _ => True) exit') (edges : List Edge) :
    (p.spread widened place exit edges).Retraces (q.spread [] place exit' edges) := by
  unfold Pass.spread
  induction edges generalizing p q with
  | nil => exact h
  | cons e rest ih =>
    rw [List.foldl_cons, List.foldl_cons]
    apply ih
    by_cases known : e.target ∈ q.entries
    · rw [if_pos ((h.mem_iff e.target).2 known), if_pos known]
      exact h
    · rw [if_neg fun there => known ((h.mem_iff e.target).1 there), if_neg known]
      exact h.enter widened e.target (recalls.deliver e.kind) _

end Retraces

/-! ## One visit after the other -/

/-- The next block that waits is visited, and the edges out of it are followed. -/
theorem result_traverse {place : Nat} {pending : List Nat} (first : p.pending = place :: pending) {b : Block}
    {entry : Entry} (hb : g.block? place = some b) (hentry : p.entries[place]? = some entry) (n : Nat) :
    (traverse g metrics widened (n + 1) p).result = (b.interpret (b.opening metrics entry.frame) >>= fun v =>
      (traverse g metrics widened n (Pass.spread ⟨p.entries, p.visits.insert place v, pending⟩ widened place
        v.trail.frame b.edges)).result) := by
  rw [traverse, first]
  simp only [hb, hentry, Reported.result_bind, Reported.result_report, Reported.result_ofExcept]
  rfl

/-- What has been visited is not visited again. -/
theorem Underway.visits_kept (closed : g.Closed) {n : Nat} (h : p.Underway g metrics widened root)
    (done : (traverse g metrics widened n p).result = .ok p') {place : Nat} {v : Visit}
    (hv : p.visits[place]? = some v) : p'.visits[place]? = some v := by
  induction n generalizing p with
  | zero =>
    cases done
    exact hv
  | succ n ih =>
    rcases h.traverse_cases done with
      ⟨-, rfl⟩ | ⟨next, pending, b, entry, u, first, hb, hentry, hu, done⟩
    · exact hv
    · refine ih (h.visit closed first hb hentry hu) done ?_
      have ne : next ≠ place := by
        rintro rfl
        exact (h.pending next (by simp [first])).2 (Std.ExtTreeMap.getElem?_eq_some_iff.1 hv).1
      rw [(spread_spec widened next u.trail.frame b.edges _).visits, Std.ExtTreeMap.getElem?_insert,
        if_neg (by simpa using ne)]
      exact hv

/-- A traversal goes on the way that another one goes on which forgets no classes.  They go in lockstep, one
visit of each at a time, and open each block with frames of the same kinds, of which one only knows more
classes. -/
theorem Retraces.traverse (closed : g.Closed) {n : Nat} (h : p.Retraces q) (underway : q.Underway g metrics [] root)
    (done : (traverse g metrics [] n q).result = .ok q')
    (loads : ∀ (place : Nat) (v : Visit), q'.visits[place]? = some v →
      Step.LoadReferences (g.steps place) v.opening) :
    ∃ p', (Pass.traverse g metrics widened n p).result = .ok p' ∧ p'.Retraces q' := by
  induction n generalizing p q with
  | zero =>
    cases done
    exact ⟨p, rfl, h⟩
  | succ n ih =>
    rcases underway.traverse_cases done with
      ⟨first, rfl⟩ | ⟨place, pending, b, entry', v', first, hb, hentry', hv', done⟩
    · refine ⟨p, ?_, h⟩
      rw [Pass.traverse, h.pending, first]
      rfl
    · obtain ⟨entry, hentry⟩ := Option.isSome_iff_exists.1 (Std.ExtTreeMap.isSome_getElem?_iff_mem.2
        ((h.mem_iff place).2 (Std.ExtTreeMap.getElem?_eq_some_iff.1 hentry').1))
      have later := underway.visit closed first hb hentry' hv'
      have kept : q'.visits[place]? = some v' := by
        refine later.visits_kept closed done ?_
        rw [(spread_spec [] place v'.trail.frame b.edges _).visits, Std.ExtTreeMap.getElem?_insert_self]
      obtain ⟨opened', trail'⟩ := Block.interpret_eq_ok hv'
      have loads' : Step.LoadReferences b.steps (b.opening metrics entry'.frame) := by
        rw [← Graph.steps_eq hb, ← opened']
        exact loads place v' kept
      have recalls : (b.opening metrics entry.frame).Recalls (fun s => True ∨ s ∈ ({} : Accesses).defs)
          (b.opening metrics entry'.frame) :=
        ((h.frames place entry entry' hentry hentry').opening b metrics).mono fun _ _ => trivial
      obtain ⟨exit, ran, left⟩ :=
        Step.run_recalls recalls (fun _ _ => trivial) loads' (Trail.run_of_foldlM trail')
      obtain ⟨v, hv⟩ := Block.exists_interpret ran
      have exit_eq : v.trail.frame = exit :=
        Except.ok.inj ((Trail.run_of_foldlM (Block.interpret_eq_ok hv).2).symm.trans ran)
      have left : v.trail.frame.Recalls (fun _ => True) v'.trail.frame :=
        exit_eq ▸ left.mono fun _ _ => .inl trivial
      have visited : Pass.Retraces ⟨p.entries, p.visits.insert place v, pending⟩
          ⟨q.entries, q.visits.insert place v', pending⟩ := ⟨rfl, h.via, h.frames⟩
      obtain ⟨p', done', retraces⟩ := ih (visited.spread widened place left b.edges) later done
      refine ⟨p', ?_, retraces⟩
      rw [result_traverse (h.pending.trans first) hb hentry]
      exact bind_eq_ok.2 ⟨v, hv, done'⟩

/-- Whatever classes are forgotten, a traversal goes the way of the one that forgets none, unless an array of
primitives is taken for one of references. -/
theorem exists_retracing (closed : g.Closed) (done : (ofGraph g metrics [] root).result = .ok q)
    (loads : ∀ (place : Nat) (v : Visit), q.visits[place]? = some v →
      Step.LoadReferences (g.steps place) v.opening) (widened : Widenings) :
    ∃ p, (ofGraph g metrics widened root).result = .ok p ∧ p.Retraces q := by
  have nothing : ({} : Pass).Retraces {} := ⟨rfl, fun _ => rfl, fun _ _ _ he _ => by simp at he⟩
  exact (nothing.enter widened 0 (.refl _ root) none).traverse closed (underway_start closed) done loads

end Pass

/-- The search for a shape ends, for every method.  It ends before the first round for want of a graph of as many
sites as were measured, or of a frame to start with; or else with the first round that fails or asks for nothing
more, however many rounds there are.  Every other round asks for a place that no round before it asked for, since
the class that was there has been forgotten where the block is entered, and there are only so many places.  If the
first round takes no array of primitives for one of references, then every round enters the same blocks, with the
same kinds in the same slots and on the stack. -/
theorem shape_found_in_rounds (className : String) (method : Method) (config : Config) (metrics : Metrics) :
    (∃ e, (Shape.ofMethod className method config metrics).result = .error e ∧
      (Graph.build className method config = .error e ∨ ∃ g, Graph.build className method config = .ok g ∧
        (g.sites.length ≠ metrics.siteCount ∧ e = .siteCountMismatch metrics.siteCount g.sites.length ∨
          SymFrame.root className method = .error e))) ∨
    ∃ g root, Graph.build className method config = .ok g ∧ SymFrame.root className method = .ok root ∧
      Shape.Ends g (Liveness.compute g) metrics config.joinPolicy root
        (Shape.ofMethod className method config metrics).result ∧
      (∀ k widened, Shape.Repeats g (Liveness.compute g) metrics config.joinPolicy root k widened →
        k ≤ widened.length ∧ widened.Nodup ∧ widened ⊆ g.places) ∧
      (∀ widened p asked,
        Shape.round g (Liveness.compute g) metrics config.joinPolicy root widened = .ok (p, asked) →
          p.pending = [] ∧
          (∀ (place : Nat) (entry : Entry) (w : Widening), p.entries[place]? = some entry → (place, w) ∈ widened →
            ¬ w.Narrow entry.frame) ∧
          (∀ w ∈ asked, w ∉ widened ∧ w ∈ g.places) ∧ (widened.add asked = widened ↔ asked = [])) ∧
      ∀ q, (Pass.ofGraph g metrics [] root).result = .ok q →
        (∀ (place : Nat) (v : Visit), q.visits[place]? = some v → Step.LoadReferences (g.steps place) v.opening) →
        ∀ widened, ∃ p, (Pass.ofGraph g metrics widened root).result = .ok p ∧ ∀ place : Nat,
          (place ∈ p.entries ↔ place ∈ q.entries) ∧
          ∀ entry entry', p.entries[place]? = some entry → q.entries[place]? = some entry' →
            entry.frame.Alike (fun _ => True) entry'.frame := by
  unfold Shape.ofMethod Graph.ofMethod
  simp only [Reported.result_bind, Reported.result_ofExcept]
  cases built : Graph.build className method config with
  | error e => exact .inl ⟨e, rfl, .inl rfl⟩
  | ok g =>
    by_cases count : g.sites.length = metrics.siteCount
    · cases hroot : SymFrame.root className method with
      | error e => exact .inl ⟨e, by simp [count, ok_bind, error_bind], .inr ⟨g, rfl, .inr rfl⟩⟩
      | ok root =>
        have small := Shape.small_of_build built
        have empty := SymFrame.stack_root hroot
        have closed := Graph.closed_of_build built
        refine .inr ⟨g, root, rfl, rfl, ?_, ?_, ?_, ?_⟩
        · have ends := Shape.ends_of_build built hroot metrics (Liveness.compute g) config.joinPolicy
          simpa [count, ok_bind, error_bind] using ends
        · intro k widened repeats
          exact ⟨repeats.le_length, repeats.nodup, repeats.subset_places small empty⟩
        · intro widened p asked went
          obtain ⟨traversed, -⟩ := Shape.round_eq_ok.1 went
          refine ⟨(Pass.underway_ofGraph closed traversed).2, ?_, fun w => Shape.fresh_of_round small empty went,
            Shape.add_eq_self_iff small empty went⟩
          intro place entry w entered old
          obtain ⟨f, hf, -⟩ := Pass.entered_ofGraph small empty traversed place entry entered
          rw [hf]
          exact Widenings.not_narrow_forget old f
        · intro q first loads widened
          obtain ⟨p, traversed, retraces⟩ := Pass.exists_retracing closed first loads widened
          refine ⟨p, traversed, fun place => ⟨retraces.mem_iff place, fun entry entry' he he' => ?_⟩⟩
          exact (retraces.frames place entry entry' he he').alike
    · exact .inl ⟨_, by simp [count, ok_bind, error_bind], .inr ⟨g, rfl, .inl ⟨count, rfl⟩⟩⟩

/-- Stores an object of one class or of another one, and loads it where both ways join. -/
def twoClasses : Method where
  access := staticFlag
  name := "execute"
  descriptor := "(I)V"
  maxLocals := 2
  code := {
    instrs := [.slot (.load .int) 0, .jump (.ifZero .eq) 1,
      .typed .new "app/A", .slot (.store .reference) 1, .jump .goto 2,
      .label 1, .typed .new "app/B", .slot (.store .reference) 1,
      .label 2, .slot (.load .reference) 1, .plain (.shuffle .pop), .plain (.leave none)]
    regions := [] }

/-- The graph of these two ways. -/
def twoClassesGraph : Graph where
  blocks := [
    ⟨none, 0, false, [⟨0, .get 0 (some .int)⟩, ⟨1, .pop⟩], [⟨2, .branch⟩], some 1⟩,
    ⟨none, 2, false, [⟨2, .push (.ref "app/A")⟩, ⟨3, .set 1 none⟩], [⟨3, .branch⟩], none⟩,
    ⟨some 1, 5, false, [⟨6, .push (.ref "app/B")⟩, ⟨7, .set 1 none⟩], [], some 3⟩,
    ⟨some 2, 8, false, [⟨9, .get 1 none⟩, ⟨10, .popWords 1⟩], [], none⟩]
  sites := []

/-- One round asks for the class of the slot to be forgotten at the join, and the next one asks for nothing: it
enters the join with the same kinds. -/
theorem two_classes_repeat :
    ∃ (root : SymFrame) (q p : Pass) (entry entry' : Entry),
      SymFrame.root "app/C" twoClasses = .ok root ∧ Graph.build "app/C" twoClasses {} = .ok twoClassesGraph ∧
      Shape.Repeats twoClassesGraph (Liveness.compute twoClassesGraph) {} .reject root 1 [(3, .slot 1)] ∧
      Shape.round twoClassesGraph (Liveness.compute twoClassesGraph) {} .reject root [(3, .slot 1)] = .ok (p, []) ∧
      (Pass.ofGraph twoClassesGraph {} [] root).result = .ok q ∧
      q.entries[(3 : Nat)]? = some entry' ∧ entry'.frame.locals[(1 : Slot)]? = some (.ref "app/A") ∧
      p.entries[(3 : Nat)]? = some entry ∧ entry.frame.locals[(1 : Slot)]? = some .object ∧
      entry.frame.Alike (fun _ => True) entry'.frame := by
  have built : Graph.build "app/C" twoClasses {} = .ok twoClassesGraph := eq_ok_of_toOption (by decide +kernel)
  let outcome (widened : Widenings) (root : SymFrame) : Option (Widenings × Tag) :=
    (Shape.round twoClassesGraph (Liveness.compute twoClassesGraph) {} .reject root widened).toOption.bind fun went =>
      went.1.entries[(3 : Nat)]?.bind fun entry => entry.frame.locals[(1 : Slot)]?.map (went.2, ·)
  have first : (SymFrame.root "app/C" twoClasses).toOption.bind (outcome []) =
      some ([(3, .slot 1)], .ref "app/A") := by decide +kernel
  have second : (SymFrame.root "app/C" twoClasses).toOption.bind (outcome [(3, .slot 1)]) =
      some ([], .object) := by decide +kernel
  have known {widened asked : Widenings} {root : SymFrame} {tag : Tag} (h : outcome widened root = some (asked, tag)) :
      ∃ p entry, Shape.round twoClassesGraph (Liveness.compute twoClassesGraph) {} .reject root widened =
        .ok (p, asked) ∧ p.entries[(3 : Nat)]? = some entry ∧ entry.frame.locals[(1 : Slot)]? = some tag := by
    obtain ⟨⟨p, asked'⟩, went, h⟩ := Option.bind_eq_some_iff.1 h
    obtain ⟨entry, entered, h⟩ := Option.bind_eq_some_iff.1 h
    obtain ⟨tag', there, same⟩ := Option.map_eq_some_iff.1 h
    cases same
    exact ⟨p, entry, eq_ok_of_toOption went, entered, there⟩
  obtain ⟨root, hroot, first⟩ := Option.bind_eq_some_iff.1 first
  rw [hroot, Option.bind_some] at second
  obtain ⟨q, entry', went, entered', narrow⟩ := known first
  obtain ⟨p, entry, settled, entered, object⟩ := known second
  have hroot := eq_ok_of_toOption hroot
  have traversed := (Shape.round_eq_ok.1 went).1
  have none : ∀ b ∈ twoClassesGraph.blocks, ∀ s ∈ b.steps, s.op ≠ .aaload := by decide
  refine ⟨root, q, p, entry, entry', hroot, built, .again .start went (by decide), settled, traversed, entered',
    narrow, entered, object, ?_⟩
  rcases shape_found_in_rounds "app/C" twoClasses {} {} with ⟨e, -, failed⟩ | ⟨g, root', hg, hroot', -, -, -, same⟩
  · rcases failed with failed | ⟨g, hg, failed⟩
    · cases built.symm.trans failed
    · cases built.symm.trans hg
      rcases failed with ⟨count, -⟩ | failed
      · exact absurd rfl count
      · cases hroot.symm.trans failed
  · cases built.symm.trans hg
    cases hroot.symm.trans hroot'
    obtain ⟨p', traversed', entries⟩ := same q traversed (fun place v _ => .block none place v.opening) [(3, .slot 1)]
    cases (Shape.round_eq_ok.1 settled).1.symm.trans traversed'
    exact (entries 3).2 entry entry' entered entered'

end Suspension
