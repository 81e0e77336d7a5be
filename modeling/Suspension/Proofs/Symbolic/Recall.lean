import Suspension.Proofs.Symbolic.Classes
import Suspension.Proofs.Symbolic.Reaching

/-!
# Recalled frames

Where a flow is resumed, its frame is not the one that it was saved from, but one that recalls it: values of
the same kinds are there, of which the class may have been forgotten.  Whatever runs on a frame runs on every
frame that recalls it, and leaves one that recalls what it leaves.

The frames that an analysis visits blocks with recall frames of paths.  This is how what was recorded at a
suspension site is known to stand for some path that comes there.

## Main definitions
* `Recalled`: how what is recalled of a value stands to the value.
* `SymFrame.Recalls`: a frame recalls another one, on some slots.
* `Method.Accepted`: a method whose analysis succeeded.

## Main results
* `Step.run_recalls`: steps on a frame that recalls another one.
* `Method.Accepted.exists_run`, `Method.Accepted.alike`: what comes to an instruction can be interpreted, and
  looks alike on what is needed there.
* `Method.Accepted.exists_recalled`: what was recorded at a site recalls a frame that comes there.
-/

namespace Suspension

/-! ## Values -/

/-- A reference is recalled with its class or without any. -/
def Recalled (recalled brought : Option Tag) : Prop :=
  ∀ t u, recalled = some t → brought = some u → t.kind = .reference → u.kind = .reference → t = u ∨ t = .object

theorem recalled_object (o : Option Tag) : Recalled (some .object) o := by
  rintro t u ht - - -
  exact .inr (Option.some.inj ht).symm

theorem recalled_lasting : Lasting Recalled := by
  refine ⟨fun o t u ht hu _ _ => ?_, fun o t u _ hu => ?_, fun t o _ _ t' u ht' => ?_, fun t u kind h => ?_⟩
  · exact .inl (Option.some.inj (ht.symm.trans hu))
  · cases hu
  · cases ht'
  · intro t' u' ht hu _ _
    rw [Option.some.injEq] at ht hu
    subst ht hu
    by_cases reference : t.kind = .reference
    · rcases h t u rfl rfl reference (kind ▸ reference) with same | forgotten
      · exact .inl (congrArg Tag.element same)
      · exact .inr (by rw [forgotten, Tag.element_object])
    · exact .inr (Tag.element_of_kind reference)

/-! ## Frames -/

/-- A frame recalls another one: their stacks and some of their slots hold values of the same kinds, and
references are recalled everywhere. -/
structure SymFrame.Recalls (S : Slot → Prop) (f g : SymFrame) : Prop where
  related : f.Related Recalled g
  alike : f.Alike S g

namespace SymFrame.Recalls

variable {S T : Slot → Prop} {f g : SymFrame}

theorem refl (S : Slot → Prop) (f : SymFrame) : f.Recalls S f :=
  ⟨(SymFrame.Related.iff_tag? recalled_lasting).2 ⟨rfl, fun _ => recalled_lasting.refl _⟩, .refl S f⟩

theorem mono (h : f.Recalls S g) (sub : ∀ s, T s → S s) : f.Recalls T g := ⟨h.related, h.alike.mono sub⟩

/-- Slots may be lost that are not needed, and others taken that the recalled frame has not set. -/
theorem replace (h : f.Recalls S g) {l : Locals} (kept : ∀ s, S s → l[s]? = f.locals[s]?)
    (fresh : ∀ (s : Slot) (t : Tag), l[s]? = some t → f.locals[s]? = some t ∨ g.locals[s]? = none) :
    SymFrame.Recalls S { f with locals := l } g := by
  refine ⟨⟨h.related.stack, fun s t u ht hu => ?_⟩, h.alike.stack, fun s hs => ?_⟩
  · rcases fresh s t ht with old | unset
    · exact h.related.slots s t u old hu
    · cases hu.symm.trans unset
  · rw [kept s hs]
    exact h.alike.slots s hs

/-- An edge delivers a frame that recalls what it delivers of the other one. -/
theorem deliver (h : f.Recalls S g) (k : EdgeKind) : (k.deliver f).Recalls S (k.deliver g) :=
  ⟨h.related.deliver recalled_lasting k, h.alike.deliver k⟩

/-- To forget a class is to recall less. -/
theorem widen (h : f.Recalls S g) (w : Widening) : (w.apply f).Recalls S g := by
  obtain ⟨kinds, recalled⟩ := (SymFrame.Related.iff_tag? recalled_lasting).1 h.related
  have alike := (SymFrame.Alike.widen f w (S := S)).symm.trans h.alike
  refine ⟨(SymFrame.Related.iff_tag? recalled_lasting).2 ⟨alike.stack, fun u => ?_⟩, alike⟩
  rw [Widening.tag?_apply]
  split
  · cases ht : u.tag? f with
    | none => rintro t' u' ⟨⟩
    | some t =>
      rw [Option.map_some, Tag.widen]
      split
      · exact recalled_object _
      · exact ht ▸ recalled u
  · exact recalled u

/-- The same value is recalled when it was stored in both frames. -/
theorem setLocal (h : f.Recalls (fun _ => True) g) (s : Slot) (t : Tag) :
    (f.setLocal s t).Recalls (fun _ => True) (g.setLocal s t) where
  related := ⟨h.related.stack, Locals.related_store recalled_lasting rfl (recalled_lasting.refl _) h.related.slots⟩
  alike := ⟨h.alike.stack, fun s' _ => Locals.kind_store rfl (.inl (h.alike.slots s' trivial))⟩

/-- What loads from an array of references does so from what is recalled of it. -/
theorem loads {op : SymOp} (h : f.Recalls S g) (loads : op.LoadsReference g) : op.LoadsReference f := by
  intro load index array rest hf
  have stack := h.related.stack
  rw [hf] at stack
  obtain ⟨index', more, -, stack, hg⟩ := List.forall₂_cons_left_iff.1 stack
  obtain ⟨array', rest', related, -, rfl⟩ := List.forall₂_cons_left_iff.1 stack
  have known := loads load index' array' rest' hg
  by_cases reference : array.kind = .reference
  · rcases related.2 array array' rfl rfl reference (related.1 ▸ reference) with rfl | rfl
    · exact known
    · rw [Tag.element_object]
      rfl
  · rw [Tag.element_of_kind reference]
    rfl

end SymFrame.Recalls

/-! ## Steps -/

/-- What an operation does to a frame, it does to every frame that recalls it on the slots that it reads. -/
theorem SymOp.apply_recalls {op : SymOp} {S : Slot → Prop} {f g g' : SymFrame} (h : f.Recalls S g)
    (reads : ∀ slot, op.Reads slot → S slot) (loads : op.LoadsReference g) (hg : op.apply g = .ok () g') :
    ∃ f', op.apply f = .ok () f' ∧ f'.Recalls (fun s => S s ∨ s ∈ op.defined) g' := by
  obtain ⟨f', hf, alike⟩ := SymOp.apply_alike h.alike.symm reads loads (h.loads loads) hg
  exact ⟨f', hf, SymOp.apply_related recalled_lasting h.related h.alike reads (h.loads loads) loads hf hg,
    alike.symm⟩

namespace Step

variable {steps : List Step} {a : Accesses} {live : Slot → Prop} {f g g' : SymFrame}

/-- What some steps do to a frame, they do to every frame that recalls it on the slots that they read before
they define them. -/
theorem run_recalls (h : f.Recalls (fun s => live s ∨ s ∈ a.defs) g) (uses : ∀ s ∈ (a.after steps).uses, live s)
    (loads : LoadReferences steps g) (hg : run steps g = .ok g') :
    ∃ f', run steps f = .ok f' ∧ f'.Recalls (fun s => live s ∨ s ∈ (a.after steps).defs) g' := by
  induction steps generalizing a f g with
  | nil =>
    cases hg
    exact ⟨f, rfl, h⟩
  | cons step rest ih =>
    rw [run] at hg
    split at hg
    · next g₁ h₁ =>
      have reads (slot : Slot) (hr : step.op.Reads slot) : live slot ∨ slot ∈ a.defs :=
        (Accesses.mem_of_reads hr).elim .inr fun used => .inl (uses slot (Accesses.mem_uses_after rest used))
      obtain ⟨f₁, hf₁, recalls⟩ := SymOp.apply_recalls h reads loads.1 h₁
      have recalls : f₁.Recalls (fun s => live s ∨ s ∈ (a.step step.op).defs) g₁ :=
        recalls.mono fun s hs => by rwa [Accesses.mem_defs_step, ← or_assoc] at hs
      obtain ⟨f', hf', recalls'⟩ := ih recalls uses (loads.2 g₁ h₁) hg
      exact ⟨f', by rw [run, hf₁]; exact hf', recalls'⟩
    · cases hg

/-- Steps that load from no array of primitives do so on every frame that recalls the one they run on. -/
theorem loads_recalls (h : f.Recalls (fun s => live s ∨ s ∈ a.defs) g)
    (uses : ∀ s ∈ (a.after steps).uses, live s) (loads : LoadReferences steps g) : LoadReferences steps f := by
  induction steps generalizing a f g with
  | nil => trivial
  | cons step rest ih =>
    refine ⟨h.loads loads.1, fun f₁ hf₁ => ?_⟩
    have reads (slot : Slot) (hr : step.op.Reads slot) : live slot ∨ slot ∈ a.defs :=
      (Accesses.mem_of_reads hr).elim .inr fun used => .inl (uses slot (Accesses.mem_uses_after rest used))
    obtain ⟨g₁, hg₁, -⟩ := SymOp.apply_alike h.alike reads (h.loads loads.1) loads.1 hf₁
    obtain ⟨f₂, hf₂, recalls⟩ := SymOp.apply_recalls h reads loads.1 hg₁
    cases hf₁.symm.trans hf₂
    have recalls : f₁.Recalls (fun s => live s ∨ s ∈ (a.step step.op).defs) g₁ :=
      recalls.mono fun s hs => by rwa [Accesses.mem_defs_step, ← or_assoc] at hs
    exact ih recalls uses (loads.2 g₁ hg₁)

/-- Steps that run on a frame run on the one that it recalls, and are recalled. -/
theorem run_recalled (h : f.Recalls (fun _ => True) g) (loads : LoadReferences steps g) {f' : SymFrame}
    (hf : run steps f = .ok f') : ∃ g', run steps g = .ok g' ∧ f'.Recalls (fun _ => True) g' := by
  have start : f.Recalls (fun s => True ∨ s ∈ ({} : Accesses).defs) g := h.mono fun _ _ => trivial
  have loads' := loads_recalls start (fun _ _ => trivial) loads
  obtain ⟨g', hg, alike⟩ := run_alike start.alike (fun _ _ => trivial) loads' loads hf
  refine ⟨g', hg, ?_, alike.mono fun _ _ => .inl trivial⟩
  exact run_related recalled_lasting h.related start.alike (fun _ _ => trivial) loads' loads hf hg

theorem LoadReferences.append {xs ys : List Step} {f : SymFrame} (first : LoadReferences xs f)
    (later : ∀ f', run xs f = .ok f' → LoadReferences ys f') : LoadReferences (xs ++ ys) f := by
  induction xs generalizing f with
  | nil => exact later f rfl
  | cons x rest ih =>
    refine ⟨first.1, fun f₁ h₁ => ih (first.2 f₁ h₁) fun f' ran => later f' ?_⟩
    rw [run, h₁]
    exact ran

end Step

/-- To take operands off the stack is to drop so many of its entries. -/
theorem Step.run_pops {place n : Nat} {f f' : SymFrame} :
    run ((List.replicate n SymOp.pop).map (⟨place, ·⟩)) f = .ok f' ↔
      n ≤ f.stack.length ∧ f' = { f with stack := f.stack.drop n } := by
  induction n generalizing f with
  | zero => simp [run, eq_comm]
  | succ n ih =>
    rw [List.replicate_succ, List.map_cons, run]
    cases hf : f.stack with
    | nil => simp [SymOp.apply, SymFrame.pop, hf]
    | cons t rest =>
      have popped : SymOp.pop.apply f = .ok () { f with stack := rest } := by
        simp [SymOp.apply, SymFrame.pop, hf]
      rw [popped]
      simpa using ih (f := { f with stack := rest })

/-! ## Methods whose analysis succeeded -/

/-- A method without handlers whose analysis succeeded under the policy to reject what diverges, and on whose
paths no array of primitives is taken for one of references. -/
structure Method.Accepted (m : Method) (className : String) (config : Config) (metrics : Metrics)
    (g : Graph) (root : SymFrame) (widened : Widenings) (p : Pass) : Prop where
  regions : m.code.regions = []
  nonempty : m.code.instrs ≠ []
  built : Graph.build className m config = .ok g
  traversed : (Pass.ofGraph g metrics widened root).result = .ok p
  settled : (p.check g (Liveness.compute g) .reject (List.range g.blocks.length)).result = .ok []
  loads : ∀ place i f, m.code.instrs[place]? = some i → m.Reaches className config root place f →
    Step.LoadReferences (i.steps className config) f

namespace Method.Accepted

variable {m : Method} {className : String} {config : Config} {metrics : Metrics} {g : Graph} {root : SymFrame}
  {widened : Widenings} {p : Pass} {n : Nat} {s : Stretch}

theorem complete (A : m.Accepted className config metrics g root widened p) :
    p.Complete g metrics widened root :=
  Pass.complete_ofGraph (Graph.closed_of_build A.built) A.traversed

/-- The first stretch is entered with the root. -/
theorem exists_first (A : m.Accepted className config metrics g root widened p) :
    ∃ s, (Graph.stretches m)[0]? = some s ∧ s.start = 0 := by
  have tiles := Graph.tiles_stretches m
  cases hss : Graph.stretches m with
  | nil =>
    refine absurd ?_ A.nonempty
    rw [← tiles.flatMap_instrs, hss]
    rfl
  | cons s rest =>
    have hs : (Graph.stretches m)[0]? = some s := by rw [hss]; rfl
    exact ⟨s, rfl, by simpa using (tiles.drop hs).1⟩

/-- What comes to a stretch takes no array of primitives for one of references in it. -/
theorem loads_stretch (A : m.Accepted className config metrics g root widened p)
    (hs : (Graph.stretches m)[n]? = some s) {f : SymFrame} (hf : m.Reaches className config root s.start f) :
    Step.LoadReferences (stepsOf className config s.instrs) f := by
  have rest (k : Nat) : ∀ (j : Nat) (f : SymFrame), j + k = s.instrs.length →
      (j < s.instrs.length → m.Reaches className config root (s.start + j) f) →
        Step.LoadReferences (stepsOf className config (s.instrs.drop j)) f := by
    induction k with
    | zero =>
      intro j f length _
      rw [List.drop_eq_nil_of_le (by omega)]
      trivial
    | succ k ih =>
      intro j f length reaches
      have inside : j < s.instrs.length := by omega
      have hi := List.getElem?_eq_getElem inside
      have here := Graph.getElem?_of_stretch hs hi
      rw [List.drop_eq_getElem_cons inside, stepsOf_cons]
      refine .append (A.loads _ _ f here (reaches inside)) fun f' ran => ih (j + 1) f' (by omega) fun more => ?_
      exact (reaches inside).next here ran (Graph.fallsThrough_inner hs hi more)
  exact rest s.instrs.length 0 f (Nat.zero_add _) fun _ => hf

/-- Blocks are visited with frames that recall those of paths.  Visits pass it along edges, what opens a block
has it, and forgetting classes keeps it. -/
theorem visits_recall (A : m.Accepted className config metrics g root widened p) :
    p.Every g fun n f => ∃ s h, (Graph.stretches m)[n]? = some s ∧
      m.Reaches className config root s.start h ∧ f.Recalls (fun _ => True) h := by
  refine Pass.every_ofGraph ⟨?_, ?_, ?_⟩ ?_ A.traversed
  · rintro n b hb f exit ⟨s, h, hs, reaches, recalls⟩ ran e he
    obtain ⟨s', hs', -, same⟩ := Graph.exists_stretch_of_block A.built A.nonempty hb
    cases hs.symm.trans hs'
    rw [same.run_eq] at ran
    obtain ⟨h', ran', recalls'⟩ := Step.run_recalled recalls (A.loads_stretch hs reaches) ran
    obtain ⟨regular, j, i, t, hi, last, ht, leads⟩ := Graph.leads_of_edge A.built A.regions hs hb he
    rw [← List.take_length (l := s.instrs), ← last, stepsOf_take_succ hi, Step.run_append] at ran'
    obtain ⟨h₁, ran₁, ran₂⟩ := bind_eq_ok.1 ran'
    have there := reaches.walk hs (j := j) (by omega) ran₁
    exact ⟨t, e.kind.deliver h', ht, .step there (Graph.getElem?_of_stretch hs hi) ran₂ leads regular,
      recalls'.deliver e.kind⟩
  · rintro n b hb f ⟨s, h, hs, reaches, recalls⟩
    have noHandler := (Graph.edges_of_build A.built A.regions hs hb).1
    rw [Block.opening_regular noHandler]
    exact ⟨s, h, hs, reaches, recalls⟩
  · rintro n w f ⟨s, h, hs, reaches, recalls⟩
    exact ⟨s, h, hs, reaches, recalls.widen w⟩
  · obtain ⟨s, hs, start⟩ := A.exists_first
    exact ⟨s, root, hs, start ▸ .entry, .refl _ root⟩

theorem visits_load (A : m.Accepted className config metrics g root widened p) (n : Nat) (v : Visit)
    (hv : p.visits[n]? = some v) : Step.LoadReferences (g.steps n) v.opening := by
  obtain ⟨b, -, hb, ⟨s, h, hs, reaches, recalls⟩, -⟩ := A.visits_recall.visits n v hv
  obtain ⟨s', hs', -, same⟩ := Graph.exists_stretch_of_block A.built A.nonempty hb
  cases hs.symm.trans hs'
  have start : v.opening.Recalls (fun s => True ∨ s ∈ ({} : Accesses).defs) h := recalls.mono fun _ _ => trivial
  rw [Graph.steps_eq hb]
  exact same.symm.loads (Step.loads_recalls start (fun _ _ => trivial) (A.loads_stretch hs reaches))

/-- Where a frame that comes to an instruction has come from: a frame at the start of its stretch, which
resembles the one that its block was visited with. -/
def At (m : Method) (className : String) (config : Config) (g : Graph) (root : SymFrame) (p : Pass) (place : Nat)
    (h : SymFrame) : Prop :=
  ∃ n s j f, (Graph.stretches m)[n]? = some s ∧ place = s.start + j ∧ j < s.instrs.length ∧
    m.Reaches className config root s.start f ∧ p.Resembles g n f ∧
    Step.run (stepsOf className config (s.instrs.take j)) f = .ok h

/-- What comes to the start of a stretch goes through its block, and its edges deliver what resembles the
visits of the blocks that they lead to. -/
theorem exists_exit (A : m.Accepted className config metrics g root widened p)
    (hs : (Graph.stretches m)[n]? = some s) {f : SymFrame} (reaches : m.Reaches className config root s.start f)
    (resembles : p.Resembles g n f) :
    ∃ exit, Step.run (stepsOf className config s.instrs) f = .ok exit ∧ ∀ b, g.block? n = some b →
      ∀ e ∈ b.edges, p.Resembles g e.target (e.kind.deliver exit) := by
  obtain ⟨b, v, hb, hv, interpreted, alike⟩ := resembles
  obtain ⟨s', hs', -, same⟩ := Graph.exists_stretch_of_block A.built A.nonempty hb
  cases hs.symm.trans hs'
  have loads : Step.LoadReferences (g.steps n) f := by
    rw [Graph.steps_eq hb]
    exact same.symm.loads (A.loads_stretch hs reaches)
  obtain ⟨exit, ran, delivered⟩ := Pass.Resembles.run hb interpreted alike (A.visits_load n v hv) loads
  rw [Graph.steps_eq hb, same.run_eq] at ran
  refine ⟨exit, ran, fun b' hb' e he => ?_⟩
  cases hb.symm.trans hb'
  obtain ⟨regular, -, -, t, -, -, ht, -⟩ := Graph.leads_of_edge A.built A.regions hs hb he
  obtain ⟨target, htarget, -⟩ := Graph.lowers_of_build A.built ht
  have noHandler := (Graph.edges_of_build A.built A.regions ht htarget).1
  obtain ⟨u, hu, interpreted', entered⟩ :=
    Pass.edge_alike A.complete A.settled hb hv he regular htarget noHandler
  exact ⟨target, u, htarget, hu, interpreted', entered.trans (delivered e he regular)⟩

/-- A path goes on inside the stretch, or leaves it by its last instruction. -/
theorem at_of_reaches (A : m.Accepted className config metrics g root widened p) {place : Nat} {h : SymFrame}
    (reaches : m.Reaches className config root place h) (lt : place < m.code.instrs.length) :
    At m className config g root p place h := by
  induction reaches with
  | entry =>
    obtain ⟨s, hs, start⟩ := A.exists_first
    obtain ⟨b, hb, -⟩ := Graph.lowers_of_build A.built hs
    have noHandler := (Graph.edges_of_build A.built A.regions hs hb).1
    have nonempty := List.length_pos_iff.2 ((Graph.tiles_stretches m).sound hs).nonempty
    exact ⟨0, s, 0, root, hs, start.symm, nonempty, start ▸ .entry,
      (Pass.Start.entry hb noHandler).resembles A.complete, rfl⟩
  | @step place q i h h' kind before here ran leads regular ih =>
    obtain ⟨n, s, j, f, hs, rfl, inside, reaches, resembles, walked⟩ := ih (List.getElem?_eq_some_iff.1 here).1
    have hi : s.instrs[j]? = some i := by
      obtain ⟨i', hi'⟩ : ∃ i', s.instrs[j]? = some i' := ⟨_, List.getElem?_eq_getElem inside⟩
      cases here.symm.trans (Graph.getElem?_of_stretch hs hi')
      exact hi'
    have walked' : Step.run (stepsOf className config (s.instrs.take (j + 1))) f = .ok h' := by
      rw [stepsOf_take_succ hi, Step.run_append, walked]
      exact ran
    rcases Graph.cases_of_leads A.built hs hi leads regular lt with
      ⟨rfl, rfl, more⟩ | ⟨last, b, hb, e, he, rfl, t, ht, rfl⟩
    · exact ⟨n, s, j + 1, f, hs, rfl, more, reaches, resembles, walked'⟩
    · obtain ⟨exit, ran', delivered⟩ := A.exists_exit hs reaches resembles
      rw [last, List.take_length, ran'] at walked'
      cases walked'
      have nonempty := List.length_pos_iff.2 ((Graph.tiles_stretches m).sound ht).nonempty
      exact ⟨e.target, t, 0, _, ht, rfl, nonempty, .step before here ran leads regular, delivered b hb e he, rfl⟩

/-- Whatever comes to an instruction can be interpreted there. -/
theorem exists_run (A : m.Accepted className config metrics g root widened p) {place : Nat} {i : Instr}
    {h : SymFrame} (here : m.code.instrs[place]? = some i) (reaches : m.Reaches className config root place h) :
    ∃ h', Step.run (i.steps className config) h = .ok h' := by
  obtain ⟨n, s, j, f, hs, rfl, inside, reaches', resembles, walked⟩ :=
    A.at_of_reaches reaches (List.getElem?_eq_some_iff.1 here).1
  have hi := List.getElem?_eq_getElem inside
  cases here.symm.trans (Graph.getElem?_of_stretch hs hi)
  obtain ⟨exit, ran, -⟩ := A.exists_exit hs reaches' resembles
  rw [← List.take_append_drop j s.instrs, stepsOf_append, Step.run_append, walked,
    List.drop_eq_getElem_cons inside, stepsOf_cons] at ran
  obtain ⟨h', ran', -⟩ := bind_eq_ok.1 ((Step.run_append ..).symm.trans ran)
  exact ⟨h', ran'⟩

/-- What an instruction needs is live at its block, or was defined in it.  Along the way to where the slot is
read no instruction defines it, and behind a stretch liveness goes back along the edge. -/
theorem live_of_needs (A : m.Accepted className config metrics g root widened p) {place : Nat} {slot : Slot}
    (needs : m.Needs className config place slot) :
    ∀ n s j, (Graph.stretches m)[n]? = some s → place = s.start + j → j < s.instrs.length →
      slot ∉ (({} : Accesses).after (stepsOf className config (s.instrs.take j))).defs →
        slot ∈ (Liveness.compute g).liveIn n := by
  induction needs with
  | @read place i slot here used =>
    rintro n s j hs rfl inside fresh
    have hi := List.getElem?_eq_getElem inside
    cases here.symm.trans (Graph.getElem?_of_stretch hs hi)
    obtain ⟨b, hb, -, lowers⟩ := Graph.lowers_of_build A.built hs
    refine Liveness.mem_compute_of_uses hb ?_
    show slot ∈ (({} : Accesses).after b.steps).uses
    rw [lowers.same.after_eq, ← List.take_append_drop j s.instrs, stepsOf_append, Accesses.after_append,
      List.drop_eq_getElem_cons inside, stepsOf_cons, Accesses.after_append]
    exact Accesses.mem_uses_after _ (Accesses.mem_uses_after_mono (by simp) (fun defined => absurd defined fresh) used)
  | @later place q i slot kind here leads regular next kept ih =>
    rintro n s j hs rfl inside fresh
    obtain ⟨i', hi⟩ : ∃ i', s.instrs[j]? = some i' := ⟨_, List.getElem?_eq_getElem inside⟩
    cases here.symm.trans (Graph.getElem?_of_stretch hs hi)
    have fresh' : slot ∉ (({} : Accesses).after (stepsOf className config (s.instrs.take (j + 1)))).defs := by
      rw [stepsOf_take_succ hi, Accesses.after_append, Accesses.mem_defs_after]
      exact not_or.2 ⟨fresh, kept⟩
    rcases Graph.cases_of_leads A.built hs hi leads regular next.lt with
      ⟨rfl, rfl, more⟩ | ⟨last, b, hb, e, he, rfl, t, ht, rfl⟩
    · exact ih n s (j + 1) hs rfl more fresh'
    · have nonempty := List.length_pos_iff.2 ((Graph.tiles_stretches m).sound ht).nonempty
      have behind := ih e.target t 0 ht rfl nonempty (by simp [stepsOf, Accesses.after])
      obtain ⟨s', hs', -, same⟩ := Graph.exists_stretch_of_block A.built A.nonempty hb
      cases hs.symm.trans hs'
      refine Liveness.mem_compute_of_edge hb he regular behind ?_
      show slot ∉ (({} : Accesses).after b.steps).defs
      rw [same.after_eq, ← List.take_length (l := s.instrs), ← last]
      exact fresh'

/-- Frames that come to the same instruction look alike on their stacks, and on what is needed there.  What is
defined in front is alike since it was stored alike; the rest is live where the stretch begins. -/
theorem alike (A : m.Accepted className config metrics g root widened p) {place : Nat}
    (lt : place < m.code.instrs.length) {h h' : SymFrame} (hh : m.Reaches className config root place h)
    (hh' : m.Reaches className config root place h') : h.Alike (m.Needs className config place) h' := by
  obtain ⟨n, s, j, f, hs, rfl, inside, reaches, resembles, walked⟩ := A.at_of_reaches hh lt
  obtain ⟨n', s', j', f', hs', place, inside', reaches', resembles', walked'⟩ := A.at_of_reaches hh' lt
  obtain ⟨rfl, rfl, rfl⟩ := (Graph.tiles_stretches m).unique hs hs' inside inside' place
  obtain ⟨b, v, hb, hv, -, alike⟩ := resembles
  obtain ⟨b', v', hb', hv', -, alike'⟩ := resembles'
  cases hv.symm.trans hv'
  have start : f.Alike (fun s => s ∈ (Liveness.compute g).liveIn n ∨ s ∈ ({} : Accesses).defs) f' :=
    (alike.symm.trans alike').mono fun s hs => hs.resolve_right (by simp)
  have split : stepsOf className config s.instrs = stepsOf className config (s.instrs.take j) ++
      stepsOf className config (s.instrs.drop j) := by
    rw [← stepsOf_append, List.take_append_drop]
  have uses (slot : Slot) (used : slot ∈ (({} : Accesses).after (stepsOf className config (s.instrs.take j))).uses) :
      slot ∈ (Liveness.compute g).liveIn n := by
    obtain ⟨s', hs', -, same⟩ := Graph.exists_stretch_of_block A.built A.nonempty hb
    cases hs.symm.trans hs'
    refine Liveness.mem_compute_of_uses hb ?_
    show slot ∈ (({} : Accesses).after b.steps).uses
    rw [same.after_eq, split, Accesses.after_append]
    exact Accesses.mem_uses_after _ used
  have loads := A.loads_stretch hs reaches
  have loads' := A.loads_stretch hs reaches'
  rw [split] at loads loads'
  obtain ⟨h₂, walked₂, alike₂⟩ := Step.run_alike start uses loads.left loads'.left walked
  cases walked'.symm.trans walked₂
  refine alike₂.mono fun slot needs => ?_
  by_cases defined : slot ∈ (({} : Accesses).after (stepsOf className config (s.instrs.take j))).defs
  · exact .inr defined
  · exact .inl (A.live_of_needs needs n s j hs rfl inside defined)

/-- Frames that come to an instruction have what is needed there. -/
theorem mem_of_needs (A : m.Accepted className config metrics g root widened p) {place : Nat} {slot : Slot}
    (needs : m.Needs className config place slot) {h : SymFrame}
    (reaches : m.Reaches className config root place h) : slot ∈ h.locals := by
  induction needs generalizing h with
  | read here used =>
    obtain ⟨h', ran⟩ := A.exists_run here reaches
    exact Step.mem_of_uses ran used (by simp)
  | @later place q i slot kind here leads regular next kept ih =>
    obtain ⟨h', ran⟩ := A.exists_run here reaches
    refine Step.mem_before ran ?_ kept
    have there := ih (.step reaches here ran leads regular)
    cases kind <;> exact there

/-- An instruction does the same to a frame that recalls one that comes to it, and what is needed wherever it
leads is recalled again. -/
theorem exists_step (A : m.Accepted className config metrics g root widened p) {place : Nat} {i : Instr}
    (here : m.code.instrs[place]? = some i) {f h : SymFrame} (reaches : m.Reaches className config root place h)
    (recalls : f.Recalls (m.Needs className config place) h) :
    ∃ f' h', Step.run (i.steps className config) f = .ok f' ∧ Step.run (i.steps className config) h = .ok h' ∧
      f'.Recalls (· ∈ (({} : Accesses).after (i.steps className config)).defs) h' ∧
      ∀ kind q, i.Leads m place kind q → kind ≠ .exception →
        (kind.deliver f').Recalls (m.Needs className config q) (kind.deliver h') := by
  obtain ⟨h', ran⟩ := A.exists_run here reaches
  have start : f.Recalls (fun s => m.Needs className config place s ∨ s ∈ ({} : Accesses).defs) h :=
    recalls.mono fun s hs => hs.resolve_right (by simp)
  obtain ⟨f', ran', recalls'⟩ := Step.run_recalls start (fun s used => .read here used) (A.loads place i h here reaches) ran
  refine ⟨f', h', ran', ran, recalls'.mono fun s hs => .inr hs, fun kind q leads regular => .deliver ?_ kind⟩
  refine recalls'.mono fun s needs => ?_
  by_cases defined : s ∈ (({} : Accesses).after (i.steps className config)).defs
  · exact .inr defined
  · exact .inl (.later here leads regular needs defined)

/-- What was recorded at a suspension site recalls what a frame that comes there is without the operands of the
call.  The snapshot was taken in the run of the steps in front of the call; the frame of a path runs the same
steps, and then the pops of the operands. -/
theorem exists_recalled (A : m.Accepted className config metrics g root widened p) {place : Nat}
    {kind : InvokeKind} {callee : MemberRef} (here : m.code.instrs[place]? = some (.invoke kind callee))
    (suspends : config.suspends className (.invoke kind callee) = true) {snapshot : SymFrame}
    (recorded : (p.shape g).site? ((m.code.instrs.take place).countP (config.suspends className)) = some snapshot) :
    ∃ sig h, Signature.parse callee.descriptor = .ok sig ∧ m.Reaches className config root place h ∧
      sig.params.length + kind.hasReceiver.toNat ≤ h.stack.length ∧ snapshot.Recalls (fun _ => True)
        { h with stack := h.stack.drop (sig.params.length + kind.hasReceiver.toNat) } := by
  have tiles := Graph.tiles_stretches m
  obtain ⟨n, s, j, hs, inside, at'⟩ := tiles.exists_stretch (List.getElem?_eq_some_iff.1 here).1
  obtain rfl : place = s.start + j := by omega
  obtain ⟨i, hi⟩ : ∃ i, s.instrs[j]? = some i := ⟨_, List.getElem?_eq_getElem inside⟩
  cases here.symm.trans (Graph.getElem?_of_stretch hs hi)
  obtain ⟨b, hb, -, lowers⟩ := Graph.lowers_of_build A.built hs
  have cut : s.instrs = s.instrs.take j ++ .invoke kind callee :: s.instrs.drop (j + 1) := by
    rw [← (List.getElem?_eq_some_iff.1 hi).2, ← List.drop_eq_getElem_cons inside, List.take_append_drop]
  rw [cut] at lowers
  obtain ⟨xs, ys, steps, first, second⟩ := lowers.split
  rw [← List.countP_append, ← Graph.take_of_stretch hs (Nat.le_of_lt inside)] at second
  cases second with
  | @cons _ _ _ _ effect more effect_eq _ =>
    obtain ⟨sig, parsed, ops⟩ := callEffect_eq_ok effect_eq
    obtain ⟨sort, site⟩ : ∃ sort, effect.site? = some sort := by
      have count := Instr.countP_of_effect effect_eq
      rw [List.countP_singleton, if_pos suspends] at count
      exact Option.isSome_iff_exists.1 (by cases h : effect.site? <;> simp [h] at count ⊢)
    rw [ops, site, operandOps] at steps
    have there : g.steps n = (xs ++ (List.replicate (sig.params.length + kind.hasReceiver.toNat) SymOp.pop).map
        (⟨s.start + (s.instrs.take j).length, ·⟩)) ++ ⟨s.start + (s.instrs.take j).length,
          .suspend ((m.code.instrs.take (s.start + j)).countP (config.suspends className))⟩ ::
            ((resultOps sig).map (⟨s.start + (s.instrs.take j).length, ·⟩) ++ more) := by
      rw [Graph.steps_eq hb, steps]
      simp
    obtain ⟨v, hv, taken⟩ := Pass.run_of_site A.built A.complete recorded there
    obtain ⟨-, -, -, ⟨s', f, hs', reaches, recalls⟩, -⟩ := A.visits_recall.visits n v hv
    cases hs.symm.trans hs'
    obtain ⟨s', hs', -, same⟩ := Graph.exists_stretch_of_block A.built A.nonempty hb
    cases hs.symm.trans hs'
    have loads := same.symm.loads (A.loads_stretch hs reaches)
    rw [← Graph.steps_eq hb, there] at loads
    obtain ⟨f', ran, recalls'⟩ := Step.run_recalled recalls loads.left taken
    rw [Step.run_append] at ran
    obtain ⟨h, before, popped⟩ := bind_eq_ok.1 ran
    rw [first.same.run_eq] at before
    obtain ⟨enough, rfl⟩ := Step.run_pops.1 popped
    exact ⟨sig, h, parsed, reaches.walk hs inside before, enough, recalls'⟩

/-- A method without handlers was accepted if its analysis succeeded. -/
theorem of_shape (regions : m.code.regions = []) (nonempty : m.code.instrs ≠ []) (reject : config.joinPolicy = .reject)
    {shape : Shape} (shaped : (Shape.ofMethod className m config metrics).result = .ok shape)
    (hroot : SymFrame.root className m = .ok root)
    (loads : ∀ place i f, m.code.instrs[place]? = some i → m.Reaches className config root place f →
      Step.LoadReferences (i.steps className config) f) :
    ∃ g widened p, m.Accepted className config metrics g root widened p ∧ shape = p.shape g := by
  obtain ⟨g, root', widened, p, built, hroot', traversed, settled, same⟩ := Shape.exists_settled_pass shaped
  cases hroot.symm.trans hroot'
  rw [reject] at settled
  exact ⟨g, widened, p, ⟨regions, nonempty, built, traversed, settled, loads⟩, same⟩

end Method.Accepted

end Suspension
