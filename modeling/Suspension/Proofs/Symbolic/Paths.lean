import Suspension.Proofs.Symbolic.Complete

/-!
# Paths through a graph

The shape of a method is found by visiting each block once.  What was found stands for all paths: whatever
path leads to a block, interpreting the operations on it succeeds, and the frame that it ends in looks like
the one that the block was visited with.

## Main definitions
* `Graph.Path`: a path that meets no handler behind its start.
* `Graph.follow`: interpreting the operations on a path.
* `Graph.Arrives`: a frame in which a path comes to a suspension site.

## Main results
* `Pass.follow_alike`: interpreting a path next to the visits of its blocks.
* `paths_look_alike`: what was recorded stands for all paths.
* `null_join_narrows`: but not for the classes on them.
-/

namespace Suspension

namespace Graph

/-- The operations of the block at a place. -/
def steps (g : Graph) (place : Nat) : List Step := ((g.block? place).map Block.steps).getD []

theorem steps_eq {g : Graph} {place : Nat} {b : Block} (h : g.block? place = some b) :
    g.steps place = b.steps := by
  rw [steps, h]
  rfl

/-- A path from a block to another, along edges other than those of exceptions, that meets no handler
behind its start. -/
inductive Path (g : Graph) : Nat → List Edge → Nat → Prop
  | done {place : Nat} : Path g place [] place
  | along {place last : Nat} {b target : Block} {e : Edge} {rest : List Edge} (here : g.block? place = some b)
      (out : e ∈ b.edges) (regular : e.kind ≠ .exception) (there : g.block? e.target = some target)
      (noHandler : target.handler = false) (more : Path g e.target rest last) :
      Path g place (e :: rest) last

/-- The frame in which a path comes to its last block. -/
def follow (g : Graph) : Nat → List Edge → SymFrame → Except Fault SymFrame
  | _, [], f => .ok f
  | place, e :: rest, f => do
    let exit ← Step.run (g.steps place) f
    follow g e.target rest (e.kind.deliver exit)

/-- No operation on a path, its last block included, takes an array of primitives for one of
references. -/
def LoadReferences (g : Graph) : Nat → List Edge → SymFrame → Prop
  | place, [], f => Step.LoadReferences (g.steps place) f
  | place, e :: rest, f => Step.LoadReferences (g.steps place) f ∧
    ∀ exit, Step.run (g.steps place) f = .ok exit → LoadReferences g e.target rest (e.kind.deliver exit)

/-- A path from the entry along branches and fallthroughs comes to a suspension site in a frame. -/
def Arrives (g : Graph) (root : SymFrame) (site : Nat) (f : SymFrame) : Prop :=
  ∃ es last entered before place rest, g.Path 0 es last ∧
    (∀ e ∈ es, e.kind = .branch ∨ e.kind = .fallthrough) ∧ g.follow 0 es root = .ok entered ∧
    g.steps last = before ++ ⟨place, .suspend site⟩ :: rest ∧ Step.run before entered = .ok f

end Graph

theorem Step.LoadReferences.of_none {steps : List Step} (none : ∀ s ∈ steps, s.op ≠ .aaload) (f : SymFrame) :
    LoadReferences steps f := by
  induction steps generalizing f with
  | nil => trivial
  | cons s rest ih =>
    exact ⟨fun h => absurd h (none s (by simp)), fun f' _ => ih (fun x hx => none x (by simp [hx])) f'⟩

theorem Step.LoadReferences.block {g : Graph} (none : ∀ b ∈ g.blocks, ∀ s ∈ b.steps, s.op ≠ .aaload)
    (place : Nat) (f : SymFrame) : LoadReferences (g.steps place) f := by
  refine .of_none (fun s hs => ?_) f
  cases hb : g.block? place with
  | none => simp [Graph.steps, hb] at hs
  | some b => exact none b (List.mem_of_getElem? hb) s (Graph.steps_eq hb ▸ hs)

theorem Graph.LoadReferences.of_none {g : Graph} (none : ∀ b ∈ g.blocks, ∀ s ∈ b.steps, s.op ≠ .aaload)
    (place : Nat) (es : List Edge) (f : SymFrame) : g.LoadReferences place es f := by
  induction es generalizing place f with
  | nil => exact .block none place f
  | cons e rest ih => exact ⟨.block none place f, fun exit _ => ih e.target (e.kind.deliver exit)⟩

namespace Pass

variable {g : Graph} {metrics : Metrics} {widened asked : Widenings} {root : SymFrame} {p : Pass}

/-- Where a path starts: at the entry, in the frame of the method, or at a handler, in the frame that it
is interpreted from. -/
inductive Start (p : Pass) (g : Graph) (root : SymFrame) : Nat → SymFrame → Prop
  | entry {b : Block} (block : g.block? 0 = some b) (noHandler : b.handler = false) : Start p g root 0 root
  | handler {place : Nat} {b : Block} {v : Visit} (block : g.block? place = some b)
      (handler : b.handler = true) (visited : p.visits[place]? = some v) : Start p g root place v.opening

/-- No array of primitives is taken for one of references, neither when blocks are visited nor on a path. -/
structure LoadReferences (p : Pass) (g : Graph) (root : SymFrame) : Prop where
  visits : ∀ (place : Nat) (v : Visit), p.visits[place]? = some v →
    Step.LoadReferences (g.steps place) v.opening
  paths : ∀ place f es last, p.Start g root place f → g.Path place es last → g.LoadReferences place es f

/-- A frame looks like the one that the block at a place was visited with, on its live slots. -/
def Resembles (p : Pass) (g : Graph) (place : Nat) (f : SymFrame) : Prop :=
  ∃ b v, g.block? place = some b ∧ p.visits[place]? = some v ∧ b.interpret v.opening = .ok v ∧
    v.opening.Alike (· ∈ (Liveness.compute g).liveIn place) f

/-- What the visit of a block has done is done to every frame that looks like the one that it started from, and
what is live behind the block looks alike behind it.  Nothing is defined on entry, so frames that are alike
where slots are live are alike enough to run the block. -/
theorem Resembles.run {place : Nat} {f : SymFrame} {b : Block} {v : Visit} (hb : g.block? place = some b)
    (interpreted : b.interpret v.opening = .ok v)
    (alike : v.opening.Alike (· ∈ (Liveness.compute g).liveIn place) f)
    (loads : Step.LoadReferences (g.steps place) v.opening) (loads' : Step.LoadReferences (g.steps place) f) :
    ∃ exit, Step.run (g.steps place) f = .ok exit ∧ ∀ e ∈ b.edges, e.kind ≠ .exception →
      (e.kind.deliver v.trail.frame).Alike (· ∈ (Liveness.compute g).liveIn e.target)
        (e.kind.deliver exit) := by
  rw [Graph.steps_eq hb] at loads loads' ⊢
  have recorded : Step.run b.steps v.opening = .ok v.trail.frame :=
    Trail.run_of_foldlM (Block.interpret_eq_ok interpreted).2
  have start : v.opening.Alike
      (fun s => s ∈ (Liveness.compute g).liveIn place ∨ s ∈ ({} : Accesses).defs) f :=
    alike.mono fun s hs => hs.resolve_right (by simp)
  have uses : ∀ s ∈ (({} : Accesses).after b.steps).uses, s ∈ (Liveness.compute g).liveIn place :=
    fun s hs => Liveness.mem_compute_of_uses hb hs
  obtain ⟨exit, ran, alike'⟩ := Step.run_alike start uses loads loads' recorded
  refine ⟨exit, ran, fun e he regular => (alike'.mono fun s hs => ?_).deliver e.kind⟩
  by_cases defined : s ∈ b.accesses.defs
  · exact .inr defined
  · exact .inl (Liveness.mem_compute_of_edge hb he regular hs defined)

/-- A path from a frame that looks like that of a visit can be interpreted, and so can its last block; the
frame in which it comes there looks like that of a visit again. -/
theorem follow_alike (complete : p.Complete g metrics widened root)
    (checked : (p.check g (Liveness.compute g) .reject (List.range g.blocks.length)).result = .ok asked)
    (loads : ∀ (place : Nat) (v : Visit), p.visits[place]? = some v →
      Step.LoadReferences (g.steps place) v.opening)
    {place last : Nat} {es : List Edge} (path : g.Path place es last) {f : SymFrame}
    (start : p.Resembles g place f) (loads' : g.LoadReferences place es f) :
    ∃ f' exit, g.follow place es f = .ok f' ∧ p.Resembles g last f' ∧
      Step.run (g.steps last) f' = .ok exit := by
  induction path generalizing f with
  | done =>
    obtain ⟨b, v, hb, hv, interpreted, alike⟩ := start
    obtain ⟨exit, ran, -⟩ := Resembles.run hb interpreted alike (loads _ v hv) loads'
    exact ⟨f, exit, rfl, ⟨b, v, hb, hv, interpreted, alike⟩, ran⟩
  | @along place last b target e rest here out regular there noHandler more ih =>
    obtain ⟨b', v, hb, hv, interpreted, alike⟩ := start
    cases here.symm.trans hb
    obtain ⟨exit, ran, delivered⟩ := Resembles.run hb interpreted alike (loads _ v hv) loads'.1
    obtain ⟨u, hu, interpreted', entered⟩ :=
      edge_alike complete checked hb hv out regular there noHandler
    have next : p.Resembles g e.target (e.kind.deliver exit) :=
      ⟨target, u, there, hu, interpreted', entered.trans (delivered e out regular)⟩
    obtain ⟨f', exit', followed, arrived⟩ := ih next (loads'.2 exit ran)
    exact ⟨f', exit', by rw [Graph.follow, ran]; exact followed, arrived⟩

/-- Every start of a path looks like the visit of its block. -/
theorem Start.resembles (complete : p.Complete g metrics widened root) {place : Nat} {f : SymFrame}
    (start : p.Start g root place f) : p.Resembles g place f := by
  cases start with
  | @entry b block noHandler =>
    obtain ⟨b', v, hb, hv, interpreted⟩ := complete.visit 0 _ complete.entry
    cases block.symm.trans hb
    rw [Block.opening_regular noHandler] at interpreted
    have opened := (Block.interpret_eq_ok interpreted).1
    refine ⟨b, v, hb, hv, opened ▸ interpreted, opened ▸ ?_⟩
    exact (SymFrame.Alike.forget root widened 0).symm
  | @handler _ b v block handler visited =>
    obtain ⟨b', hb, interpreted⟩ := complete.interpreted place v visited
    exact ⟨b', v, hb, visited, interpreted, .refl _ _⟩

end Pass

/-- What was recorded stands for all paths: a path that meets no handler behind its start can be
interpreted to the end of its last block, and the frame in which it comes to that block looks like the one
that the block was visited with, on the stack and on the live slots. -/
theorem paths_look_alike {className : String} {method : Method} {config : Config} {metrics : Metrics}
    {s : Shape} (reject : config.joinPolicy = .reject)
    (accepted : (Shape.ofMethod className method config metrics).result = .ok s) :
    ∃ g root widened p, Graph.build className method config = .ok g ∧
      SymFrame.root className method = .ok root ∧
      (Pass.ofGraph g metrics widened root).result = .ok p ∧ s = p.shape g ∧
      (p.LoadReferences g root → ∀ {place last : Nat} {es : List Edge} {f : SymFrame},
        p.Start g root place f → g.Path place es last →
          ∃ f' exit v, g.follow place es f = .ok f' ∧ Step.run (g.steps last) f' = .ok exit ∧
            p.visits[last]? = some v ∧
            v.opening.Alike (· ∈ (Liveness.compute g).liveIn last) f') := by
  obtain ⟨g, root, widened, p, asked, built, hroot, hp, checked, hs⟩ := Shape.exists_pass accepted
  refine ⟨g, root, widened, p, built, hroot, hp, hs, fun loads place last es f start path => ?_⟩
  have complete := Pass.complete_ofGraph (Graph.closed_of_build built) hp
  rw [reject] at checked
  obtain ⟨f', exit, followed, ⟨b, v, -, hv, -, alike⟩, ran⟩ := Pass.follow_alike complete checked
    loads.visits path (start.resembles complete) (loads.paths place f es last start path)
  exact ⟨f', exit, v, followed, ran, hv, alike⟩

/-- Counts its parameter down and pauses at every number. -/
def countdown : Method where
  access := staticFlag
  name := "execute"
  descriptor := "(I)V"
  maxLocals := 1
  code := {
    instrs := [.label 0, .slot (.load .int) 0, .jump (.ifZero .eq) 1, .pause, .iinc 0 (-1), .jump .goto 0,
      .label 1, .plain (.leave none)]
    regions := [] }

/-- The graph of the countdown. -/
def countdownGraph : Graph where
  blocks := [
    ⟨some 0, 0, false, [⟨1, .get 0 (some .int)⟩, ⟨2, .pop⟩], [⟨2, .branch⟩], some 1⟩,
    ⟨none, 3, false, [⟨3, .suspend 0⟩, ⟨4, .inc 0⟩], [⟨0, .branch⟩], none⟩,
    ⟨some 1, 6, false, [], [], none⟩]
  sites := [.pause]

/-- Once around the loop and out of it. -/
theorem countdown_looks_alike :
    ∃ s g root p v f', (Shape.ofMethod "app/C" countdown {} ⟨1, 0, 1, []⟩).result = .ok s ∧
      s = Pass.shape p g ∧ SymFrame.root "app/C" countdown = .ok root ∧
      g.follow 0 [⟨1, .fallthrough⟩, ⟨0, .branch⟩, ⟨2, .branch⟩] root = .ok f' ∧
      p.visits[2]? = some v ∧ v.opening.Alike (· ∈ (Liveness.compute g).liveIn 2) f' := by
  obtain ⟨s, accepted⟩ : ∃ s,
      (Shape.ofMethod "app/C" countdown {} ⟨1, 0, 1, []⟩).result = .ok s :=
    exists_ok (by decide +kernel)
  obtain ⟨g, root, widened, p, built, hroot, -, hs, alike⟩ := paths_look_alike rfl accepted
  have known : Graph.build "app/C" countdown {} = .ok countdownGraph :=
    eq_ok_of_toOption (by decide +kernel)
  cases built.symm.trans known
  have path : countdownGraph.Path 0 [⟨1, .fallthrough⟩, ⟨0, .branch⟩, ⟨2, .branch⟩] 2 :=
    .along rfl (by decide) (by decide) rfl rfl (.along rfl (by decide) (by decide) rfl rfl
      (.along rfl (by decide) (by decide) rfl rfl .done))
  have none : ∀ b ∈ countdownGraph.blocks, ∀ s ∈ b.steps, s.op ≠ .aaload := by decide
  obtain ⟨f', -, v, followed, -, hv, looks⟩ := alike
    ⟨fun place v _ => .block none place v.opening, fun place f es _ _ _ => .of_none none place es f⟩
    (.entry rfl rfl) path
  exact ⟨s, countdownGraph, root, p, v, f', accepted, hs, hroot, followed, hv, looks⟩

/-- Joins nothing with a text, and what comes out of that join with an object of another class. -/
def nullJoin : Method where
  access := staticFlag
  name := "execute"
  descriptor := "(II)V"
  maxLocals := 3
  code := {
    instrs := [.slot (.load .int) 0, .jump (.ifZero .eq) 1,
      .typed .new "app/A", .slot (.store .reference) 2, .jump .goto 4,
      .label 1, .slot (.load .int) 1, .jump (.ifZero .eq) 2,
      .plain .aconstNull, .slot (.store .reference) 2, .jump .goto 3,
      .label 2, .ldc (.string "x"), .slot (.store .reference) 2,
      .label 3, .jump .goto 4,
      .label 4, .pause, .slot (.load .reference) 2, .plain (.shuffle .pop), .plain (.leave none)]
    regions := [] }

/-- The graph of these joins. -/
def nullJoinGraph : Graph where
  blocks := [
    ⟨none, 0, false, [⟨0, .get 0 (some .int)⟩, ⟨1, .pop⟩], [⟨2, .branch⟩], some 1⟩,
    ⟨none, 2, false, [⟨2, .push (.ref "app/A")⟩, ⟨3, .set 2 none⟩], [⟨6, .branch⟩], none⟩,
    ⟨some 1, 5, false, [⟨6, .get 1 (some .int)⟩, ⟨7, .pop⟩], [⟨4, .branch⟩], some 3⟩,
    ⟨none, 8, false, [⟨8, .push .null⟩, ⟨9, .set 2 none⟩], [⟨5, .branch⟩], none⟩,
    ⟨some 2, 11, false, [⟨12, .push (.ref stringClass)⟩, ⟨13, .set 2 none⟩], [], some 5⟩,
    ⟨some 3, 14, false, [], [⟨6, .branch⟩], none⟩,
    ⟨some 4, 16, false, [⟨17, .suspend 0⟩, ⟨18, .get 2 none⟩, ⟨19, .popWords 1⟩], [], none⟩]
  sites := [.pause]

/-- Kinds stand for all paths, but classes do not: the text is hidden by the null that came to its join
first, so the site records the class that another path brings. -/
theorem null_join_narrows :
    ∃ s root f, (Shape.ofMethod "app/C" nullJoin {} ⟨1, 0, 3, []⟩).result = .ok s ∧
      Graph.build "app/C" nullJoin {} = .ok nullJoinGraph ∧
      SymFrame.root "app/C" nullJoin = .ok root ∧ nullJoinGraph.Arrives root 0 f ∧
      (s.site? 0).bind (·.locals[(2 : Slot)]?) = some (.ref "app/A") ∧
      f.locals[(2 : Slot)]? = some (.ref stringClass) := by
  have recorded : (Shape.ofMethod "app/C" nullJoin {} ⟨1, 0, 3, []⟩).result.toOption.bind
      (fun s => (s.site? 0).bind (·.locals[(2 : Slot)]?)) = some (.ref "app/A") := by
    decide +kernel
  obtain ⟨s, accepted, narrow⟩ := Option.bind_eq_some_iff.1 recorded
  have brought : ((SymFrame.root "app/C" nullJoin).toOption.bind fun root =>
      (nullJoinGraph.follow 0 [⟨2, .branch⟩, ⟨4, .branch⟩, ⟨5, .fallthrough⟩, ⟨6, .branch⟩]
        root).toOption.bind fun f => f.locals[(2 : Slot)]?) = some (.ref stringClass) := by
    decide +kernel
  obtain ⟨root, hroot, brought⟩ := Option.bind_eq_some_iff.1 brought
  obtain ⟨f, followed, text⟩ := Option.bind_eq_some_iff.1 brought
  have path : nullJoinGraph.Path 0 [⟨2, .branch⟩, ⟨4, .branch⟩, ⟨5, .fallthrough⟩, ⟨6, .branch⟩] 6 :=
    .along rfl (by decide) (by decide) rfl rfl (.along rfl (by decide) (by decide) rfl rfl
      (.along rfl (by decide) (by decide) rfl rfl (.along rfl (by decide) (by decide) rfl rfl .done)))
  exact ⟨s, root, f, eq_ok_of_toOption accepted, eq_ok_of_toOption (by decide +kernel),
    eq_ok_of_toOption hroot,
    ⟨_, 6, f, [], 17, _, path, by decide, eq_ok_of_toOption followed, rfl, rfl⟩, narrow, text⟩

end Suspension
