import Suspension.Proofs.Success
import Suspension.Symbolic.Shape

/-!
# What a traversal records

Everything that the shape of a method is made of was derived from the frame at its entry by operations
of its blocks, by edges, by the openings of handlers and by forgetting classes.  What all of these keep
holds of the whole shape.

## Main definitions
* `Step.run`, `SymOp.run`: the frame after some steps, and after some operations.
* `Graph.Keeps`, `Graph.KeepsAt`: a property of frames that a traversal keeps, everywhere or at each block.

## Main results
* `Trail.run_of_foldlM`, `Trail.mem_snapshots`: the frame and the snapshots of a block.
* `Pass.traverse_cases`: what a traversal does next.
* `Pass.every_ofGraph`: what a traversal keeps holds of all that it records.
* `Pass.exists_traverse`: a traversal succeeds if the steps of every block do.
-/

namespace Suspension

/-! ## The operations of a block -/

/-- The frame after the operations of some steps. -/
def Step.run : List Step → SymFrame → Except Fault SymFrame
  | [], f => .ok f
  | s :: rest, f =>
    match s.op.apply f with
    | .ok _ f => run rest f
    | .error e _ => .error e

/-- The frame after some operations. -/
def SymOp.run : List SymOp → SymFrame → Except Fault SymFrame
  | [], g => .ok g
  | op :: rest, g =>
    match op.apply g with
    | .ok _ g => run rest g
    | .error e _ => .error e

/-- Operations do the same as the steps of one instruction. -/
theorem Step.run_eq (place : Nat) (ops : List SymOp) (g : SymFrame) :
    Step.run (ops.map (⟨place, ·⟩)) g = SymOp.run ops g := by
  induction ops generalizing g with
  | nil => rfl
  | cons op rest ih =>
    rw [List.map_cons, Step.run, SymOp.run]
    cases op.apply g with
    | ok _ g' => exact ih g'
    | error e g' => rfl

theorem SymOp.run_append {ops more : List SymOp} {g g' : SymFrame} (h : run ops g = .ok g') :
    run (ops ++ more) g = run more g' := by
  induction ops generalizing g with
  | nil =>
    cases h
    rfl
  | cons op rest ih =>
    rw [run] at h
    rw [List.cons_append, run]
    split at h
    · exact ih h
    · cases h

namespace Trail

variable {t t' : Trail} {s : Step} {steps : List Step}

theorem follow_eq_ok (h : t.follow s = .ok t') :
    s.op.apply t.frame = .ok () t'.frame ∧
      (t'.snapshots = match s.op with
        | .suspend site => t.snapshots ++ [(site, t.frame)]
        | _ => t.snapshots) ∧
      t'.firstStore = match t.firstStore, s.op with
        | none, .set slot _ => (t'.frame.locals[slot]?).map fun tag => (s.place, slot, tag)
        | first, _ => first := by
  unfold follow at h
  split at h
  · cases h
  · next frame hs =>
    cases h
    exact ⟨hs, rfl, rfl⟩

/-- The frame of a trail is that after all steps. -/
theorem run_of_foldlM (h : steps.foldlM follow t = .ok t') :
    Step.run steps t.frame = .ok t'.frame := by
  induction steps generalizing t with
  | nil =>
    cases h
    rfl
  | cons s rest ih =>
    rw [List.foldlM_cons] at h
    obtain ⟨t₁, h₁, h⟩ := bind_eq_ok.1 h
    rw [Step.run, (follow_eq_ok h₁).1]
    exact ih h

/-- A snapshot is the frame in front of its suspension.  A step adds one only if it marks a site. -/
theorem mem_snapshots (h : steps.foldlM follow t = .ok t') {site : Nat} {f : SymFrame}
    (hf : (site, f) ∈ t'.snapshots) :
    (site, f) ∈ t.snapshots ∨ ∃ before place rest,
      steps = before ++ ⟨place, .suspend site⟩ :: rest ∧ Step.run before t.frame = .ok f := by
  induction steps generalizing t with
  | nil =>
    cases h
    exact .inl hf
  | cons s steps ih =>
    rw [List.foldlM_cons] at h
    obtain ⟨t₁, h₁, h⟩ := bind_eq_ok.1 h
    obtain ⟨hs, snapshots, -⟩ := follow_eq_ok h₁
    rcases ih h with old | ⟨before, place, rest, rfl, hrun⟩
    · rw [snapshots] at old
      split at old
      · next site' hop =>
        rcases List.mem_append.1 old with old | new
        · exact .inl old
        · obtain ⟨rfl, rfl⟩ : site = site' ∧ f = t.frame := by simpa using new
          refine .inr ⟨[], s.place, steps, ?_, rfl⟩
          rw [← hop]
          rfl
      · exact .inl old
    · refine .inr ⟨s :: before, place, rest, rfl, ?_⟩
      rw [Step.run, hs]
      exact hrun

/-- Steps that succeed can be followed. -/
theorem exists_foldlM {f : SymFrame} (h : Step.run steps t.frame = .ok f) :
    ∃ t', steps.foldlM follow t = .ok t' := by
  induction steps generalizing t with
  | nil => exact ⟨t, rfl⟩
  | cons s rest ih =>
    rw [Step.run] at h
    split at h
    · next f₁ h₁ =>
      have followed : ∃ t₁, t.follow s = .ok t₁ ∧ t₁.frame = f₁ := by
        unfold follow
        rw [h₁]
        exact ⟨_, rfl, rfl⟩
      obtain ⟨t₁, ht₁, rfl⟩ := followed
      obtain ⟨t', ht'⟩ := ih h
      exact ⟨t', by rw [List.foldlM_cons, ht₁]; exact ht'⟩
    · cases h

end Trail

/-! ## What a traversal keeps -/

/-- A property of the frames at each block that a traversal of a graph keeps. -/
structure Graph.KeepsAt (g : Graph) (metrics : Metrics) (Q : Nat → SymFrame → Prop) : Prop where
  run : ∀ n b, g.block? n = some b → ∀ f exit, Q n f → Step.run b.steps f = .ok exit →
    ∀ e ∈ b.edges, Q e.target (e.kind.deliver exit)
  opening : ∀ n b, g.block? n = some b → ∀ f, Q n f → Q n (b.opening metrics f)
  widen : ∀ n (w : Widening) f, Q n f → Q n (w.apply f)

/-- A property of frames that a traversal of a graph keeps. -/
structure Graph.Keeps (g : Graph) (metrics : Metrics) (Q : SymFrame → Prop) : Prop where
  step : ∀ b ∈ g.blocks, ∀ s ∈ b.steps, ∀ f f', Q f → s.op.apply f = .ok () f' → Q f'
  opening : ∀ b ∈ g.blocks, ∀ f, Q f → Q (b.opening metrics f)
  deliver : ∀ (k : EdgeKind) f, Q f → Q (k.deliver f)
  widen : ∀ (w : Widening) f, Q f → Q (w.apply f)

/-- A property holds of all frames that a pass recorded, each at its block. -/
structure Pass.Every (g : Graph) (Q : Nat → SymFrame → Prop) (p : Pass) : Prop where
  entries : ∀ (place : Nat) (e : Entry), p.entries[place]? = some e → Q place e.frame
  visits : ∀ (place : Nat) (v : Visit), p.visits[place]? = some v →
    ∃ b ∈ g.blocks, g.block? place = some b ∧ Q place v.opening ∧ b.interpret v.opening = .ok v

variable {g : Graph} {metrics : Metrics}

section

variable {Q : SymFrame → Prop}

theorem Graph.Keeps.run (hk : g.Keeps metrics Q) {b : Block} (hb : b ∈ g.blocks) {steps : List Step}
    (hs : ∀ s ∈ steps, s ∈ b.steps) {f f' : SymFrame} (hf : Q f) (h : Step.run steps f = .ok f') :
    Q f' := by
  induction steps generalizing f with
  | nil =>
    cases h
    exact hf
  | cons s rest ih =>
    rw [Step.run] at h
    split at h
    · next f₁ h₁ =>
      exact ih (fun x hx => hs x (by simp [hx])) (hk.step b hb s (hs s (by simp)) f f₁ hf h₁) h
    · cases h

/-- What is kept everywhere is kept at each block. -/
theorem Graph.Keeps.everywhere (hk : g.Keeps metrics Q) : g.KeepsAt metrics fun _ => Q where
  run _ _ hb _ exit hf ran e _ :=
    hk.deliver e.kind exit (hk.run (List.mem_of_getElem? hb) (fun _ => id) hf ran)
  opening _ b hb f hf := hk.opening b (List.mem_of_getElem? hb) f hf
  widen _ := hk.widen

end

theorem Block.interpret_eq_ok {b : Block} {opening : SymFrame} {v : Visit}
    (h : b.interpret opening = .ok v) :
    v.opening = opening ∧ b.steps.foldlM Trail.follow { frame := opening } = .ok v.trail := by
  obtain ⟨t, ht, h⟩ := bind_eq_ok.1 h
  cases h
  exact ⟨rfl, ht⟩

/-- A block whose steps succeed can be interpreted. -/
theorem Block.exists_interpret {b : Block} {opening exit : SymFrame} (h : Step.run b.steps opening = .ok exit) :
    ∃ v, b.interpret opening = .ok v := by
  obtain ⟨t, ht⟩ := Trail.exists_foldlM (t := ⟨opening, [], none⟩) h
  exact ⟨⟨opening, t⟩, bind_eq_ok.2 ⟨t, ht, rfl⟩⟩

namespace Pass

variable {Q : Nat → SymFrame → Prop} {p p' : Pass} {widened : Widenings}

theorem every_enter (hk : g.KeepsAt metrics Q) (hp : p.Every g Q) (widened : Widenings) (place : Nat)
    {f : SymFrame} (hf : Q place f) (via : Option (Nat × EdgeKind)) :
    (p.enter widened place f via).Every g Q := by
  refine ⟨fun other e he => ?_, hp.visits⟩
  have forgotten : Q place ((widened.filter (·.1 = place)).foldl (fun f w => w.2.apply f) f) := by
    clear he
    induction widened.filter (·.1 = place) generalizing f with
    | nil => exact hf
    | cons w ws ih => exact ih (hk.widen place w.2 f hf)
  rw [enter, Std.ExtTreeMap.getElem?_insert] at he
  split at he
  · next same =>
    obtain rfl : place = other := by simpa using same
    cases he
    exact forgotten
  · exact hp.entries other e he

theorem every_spread (hk : g.KeepsAt metrics Q) (hp : p.Every g Q) (place : Nat) {f : SymFrame}
    {edges : List Edge} (hf : ∀ e ∈ edges, Q e.target (e.kind.deliver f)) :
    (p.spread widened place f edges).Every g Q := by
  unfold spread
  induction edges generalizing p with
  | nil => exact hp
  | cons e rest ih =>
    rw [List.foldl_cons]
    refine ih ?_ fun e' he' => hf e' (List.mem_cons_of_mem _ he')
    split
    · exact hp
    · exact every_enter hk hp widened _ (hf e List.mem_cons_self) _

/-- One more block is visited. -/
theorem every_visit (hk : g.KeepsAt metrics Q) (hp : p.Every g Q) {place : Nat} {b : Block} {entry : Entry}
    (hb : g.block? place = some b) (hentry : p.entries[place]? = some entry) {v : Visit}
    (hv : b.interpret (b.opening metrics entry.frame) = .ok v) (pending : List Nat) :
    (Pass.spread ⟨p.entries, p.visits.insert place v, pending⟩ widened place v.trail.frame b.edges).Every
      g Q := by
  have opening := hk.opening place b hb _ (hp.entries place entry hentry)
  obtain ⟨same, trail⟩ := Block.interpret_eq_ok hv
  refine every_spread (p := ⟨p.entries, p.visits.insert place v, pending⟩) hk
    ⟨hp.entries, fun other u hu => ?_⟩ place (hk.run place b hb _ _ opening (Trail.run_of_foldlM trail))
  rw [Std.ExtTreeMap.getElem?_insert] at hu
  split at hu
  · next e =>
    cases hu
    obtain rfl : place = other := by simpa using e
    exact ⟨b, List.mem_of_getElem? hb, hb, same ▸ opening, same ▸ hv⟩
  · exact hp.visits other u hu

/-- A traversal goes on from what waits first: nothing waits, or a block is visited and the edges out of it are
followed, or what waits is no block that was entered and is passed over. -/
theorem traverse_cases {n : Nat} (h : (traverse g metrics widened (n + 1) p).result = .ok p') :
    p.pending = [] ∧ p' = p ∨ ∃ place pending, p.pending = place :: pending ∧
      ((∃ b entry v, g.block? place = some b ∧ p.entries[place]? = some entry ∧
          b.interpret (b.opening metrics entry.frame) = .ok v ∧
          (traverse g metrics widened n (Pass.spread ⟨p.entries, p.visits.insert place v, pending⟩ widened place
            v.trail.frame b.edges)).result = .ok p') ∨
        (g.block? place = none ∨ p.entries[place]? = none) ∧
          (traverse g metrics widened n ⟨p.entries, p.visits, pending⟩).result = .ok p') := by
  unfold traverse at h
  split at h
  · next none =>
    cases h
    exact .inl ⟨none, rfl⟩
  · next place pending first =>
    refine .inr ⟨place, pending, first, ?_⟩
    split at h
    · next b entry hb hentry =>
      simp only [Reported.result_bind, Reported.result_report, Reported.result_ofExcept] at h
      obtain ⟨-, -, h⟩ := bind_eq_ok.1 h
      obtain ⟨v, hv, h⟩ := bind_eq_ok.1 h
      exact .inl ⟨b, entry, v, hb, hentry, hv, h⟩
    · next missing =>
      refine .inr ⟨?_, h⟩
      cases hb : g.block? place with
      | none => exact .inl rfl
      | some b =>
        cases hentry : p.entries[place]? with
        | none => exact .inr rfl
        | some entry => exact absurd hentry (missing b entry hb)

theorem every_traverse (hk : g.KeepsAt metrics Q) {n : Nat} (hp : p.Every g Q)
    (h : (traverse g metrics widened n p).result = .ok p') : p'.Every g Q := by
  induction n generalizing p with
  | zero =>
    cases h
    exact hp
  | succ n ih =>
    rcases traverse_cases h with ⟨-, rfl⟩ | ⟨place, pending, -, ⟨b, entry, v, hb, hentry, hv, h⟩ | ⟨-, h⟩⟩
    · exact hp
    · exact ih (every_visit hk hp hb hentry hv pending) h
    · exact ih (p := ⟨p.entries, p.visits, pending⟩) ⟨hp.entries, hp.visits⟩ h

/-- A traversal starts with the root at the first block. -/
theorem every_start (hk : g.KeepsAt metrics Q) {root : SymFrame} (hroot : Q 0 root) :
    (({} : Pass).enter widened 0 root none).Every g Q := by
  refine every_enter hk ⟨fun _ _ he => ?_, fun _ _ hv => ?_⟩ widened 0 hroot none
  · simp at he
  · simp at hv

/-- What a traversal keeps holds of all that it records. -/
theorem every_ofGraph (hk : g.KeepsAt metrics Q) {root : SymFrame} (hroot : Q 0 root)
    (h : (ofGraph g metrics widened root).result = .ok p) : p.Every g Q :=
  every_traverse hk (every_start hk hroot) h

/-- A traversal succeeds if the steps of every block do. -/
theorem exists_traverse (hk : g.KeepsAt metrics Q)
    (runs : ∀ n b f, g.block? n = some b → Q n f → ∃ exit, Step.run b.steps f = .ok exit) {n : Nat}
    (hp : p.Every g Q) : ∃ p', (traverse g metrics widened n p).result = .ok p' := by
  induction n generalizing p with
  | zero => exact ⟨p, rfl⟩
  | succ n ih =>
    unfold traverse
    split
    · exact ⟨p, rfl⟩
    · next place pending _ =>
      split
      · next b entry hb hentry =>
        obtain ⟨exit, ran⟩ := runs place b _ hb (hk.opening place b hb _ (hp.entries place entry hentry))
        obtain ⟨v, hv⟩ := Block.exists_interpret ran
        obtain ⟨p', hp'⟩ := ih (every_visit hk hp hb hentry hv pending)
        simp only [Reported.result_bind, Reported.result_report, Reported.result_ofExcept]
        exact ⟨p', bind_eq_ok.2 ⟨(), rfl, bind_eq_ok.2 ⟨v, hv, hp'⟩⟩⟩
      · exact ih (p := ⟨p.entries, p.visits, pending⟩) ⟨hp.entries, hp.visits⟩

end Pass

namespace Shape

variable {s : Shape} {live : Liveness} {method : Method} {policy : JoinPolicy} {root : SymFrame}

theorem exists_pass_of_rounds {n : Nat} {widened : Widenings}
    (h : (rounds g live method metrics policy root n widened).result = .ok s) :
    ∃ widened p asked, (Pass.ofGraph g metrics widened root).result = .ok p ∧
      (p.check g live policy (List.range g.blocks.length)).result = .ok asked ∧ s = p.shape g := by
  induction n generalizing widened with
  | zero =>
    rw [rounds.eq_def] at h
    simp only [Reported.result_bind] at h
    obtain ⟨p, hp, h⟩ := bind_eq_ok.1 h
    obtain ⟨asked, checked, h⟩ := bind_eq_ok.1 h
    cases h
    exact ⟨widened, p, asked, hp, checked, rfl⟩
  | succ n ih =>
    rw [rounds.eq_def] at h
    simp only [Reported.result_bind] at h
    obtain ⟨p, hp, h⟩ := bind_eq_ok.1 h
    obtain ⟨asked, checked, h⟩ := bind_eq_ok.1 h
    split at h
    · cases h
      exact ⟨widened, p, asked, hp, checked, rfl⟩
    · exact ih h

/-- The shape of a method is found in rounds over its graph. -/
theorem exists_rounds {className : String} {config : Config}
    (h : (ofMethod className method config metrics).result = .ok s) :
    ∃ g root, Graph.build className method config = .ok g ∧ SymFrame.root className method = .ok root ∧
      (rounds g (Liveness.compute g) method metrics config.joinPolicy root (roundBound g) []).result =
        .ok s := by
  unfold ofMethod Graph.ofMethod at h
  simp only [Reported.result_bind, Reported.result_ofExcept] at h
  obtain ⟨g, hg, h⟩ := bind_eq_ok.1 h
  obtain ⟨g', built, hg⟩ := bind_eq_ok.1 hg
  cases hg
  split at h
  · cases h
  · simp only [Reported.result_bind, Reported.result_ofExcept] at h
    obtain ⟨root, hroot, h⟩ := bind_eq_ok.1 h
    exact ⟨g, root, built, hroot, h⟩

/-- The shape of a method is that of the last traversal, whose edges were checked. -/
theorem exists_pass {className : String} {config : Config}
    (h : (ofMethod className method config metrics).result = .ok s) :
    ∃ g root widened p asked, Graph.build className method config = .ok g ∧
      SymFrame.root className method = .ok root ∧
      (Pass.ofGraph g metrics widened root).result = .ok p ∧
      (p.check g (Liveness.compute g) config.joinPolicy (List.range g.blocks.length)).result = .ok asked ∧
      s = p.shape g := by
  obtain ⟨g, root, built, hroot, h⟩ := exists_rounds h
  obtain ⟨widened, p, asked, hp, checked, rfl⟩ := exists_pass_of_rounds h
  exact ⟨g, root, widened, p, asked, built, hroot, hp, checked, rfl⟩

/-- A snapshot of a site was taken in front of its suspension. -/
theorem exists_visit_of_site {p : Pass} {k : Nat} {f : SymFrame}
    (h : (p.shape g).site? k = some f) :
    ∃ (place : Nat) (v : Visit), p.visits[place]? = some v ∧ (k, f) ∈ v.trail.snapshots := by
  unfold site? at h
  obtain ⟨hk, h⟩ := List.getElem?_eq_some_iff.1 (Option.join_eq_some_iff.1 h)
  simp only [Pass.shape, List.getElem_map, List.getElem_range] at h
  obtain ⟨l₁, l₂, found, -⟩ := List.lookup_eq_some_iff.1 h
  have mem : (k, f) ∈ p.visits.toList.flatMap fun v => v.2.trail.snapshots := by
    rw [found]
    simp
  obtain ⟨⟨place, v⟩, hv, hf⟩ := List.mem_flatMap.1 mem
  exact ⟨place, v, Std.ExtTreeMap.mem_toList_iff_getElem?_eq_some.1 hv, hf⟩

end Shape

end Suspension
