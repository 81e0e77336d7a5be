import Suspension.Proofs.Flow.Covering
import Suspension.Proofs.Flow.Lowered
import Suspension.Proofs.Symbolic.Typing

/-!
# Frames that come to an instruction

The analysis of a method is about blocks.  Here its paths are followed from one instruction to the next
instead, without a graph: a frame reaches an instruction if some path from the entry brings it there, and an
instruction needs a slot if some path from there reads it before it is defined.

## Main definitions
* `Instr.steps`, `stepsOf`: the steps of instructions, wherever they stand.
* `Method.Reaches`: the frames that come to an instruction.
* `Method.Needs`: the slots that are read from an instruction on.
* `Method.Typing`: the frames that are admitted at the instructions of a method.

## Main results
* `Method.Reaches.walk`: a frame that comes to a stretch goes through it.
* `Graph.cases_of_leads`: where an instruction leads to, as the graph has it.
* `Method.Typing.exists_shape`: a method with a typing has a shape.
-/

namespace Suspension

/-! ## Steps of instructions -/

/-- The steps of an instruction in code of class `className`, up to where it stands. -/
def Instr.steps (className : String) (config : Config) (i : Instr) : List Step :=
  (i.ops className config).map (⟨0, ·⟩)

/-- The steps of some instructions. -/
def stepsOf (className : String) (config : Config) (code : List Instr) : List Step :=
  code.flatMap (Instr.steps className config)

section

variable {className : String} {config : Config}

theorem stepsOf_append (a b : List Instr) :
    stepsOf className config (a ++ b) = stepsOf className config a ++ stepsOf className config b :=
  List.flatMap_append ..

theorem stepsOf_cons (i : Instr) (rest : List Instr) :
    stepsOf className config (i :: rest) = i.steps className config ++ stepsOf className config rest :=
  List.flatMap_cons ..

theorem stepsOf_take_succ {code : List Instr} {k : Nat} {i : Instr} (h : code[k]? = some i) :
    stepsOf className config (code.take (k + 1)) =
      stepsOf className config (code.take k) ++ i.steps className config := by
  rw [List.take_add_one, h, stepsOf_append]
  simp [stepsOf]

end

namespace SymOp

/-- The number of a site has no effect on a frame. -/
@[simp] theorem apply_renumber (op : SymOp) (site : Nat) : (op.renumber site).apply = op.apply := by
  cases op <;> rfl

@[simp] theorem defined_renumber (op : SymOp) (site : Nat) : (op.renumber site).defined = op.defined := by
  cases op <;> rfl

@[simp] theorem step_renumber (a : Accesses) (op : SymOp) (site : Nat) :
    a.step (op.renumber site) = a.step op := by
  cases op <;> rfl

@[simp] theorem loadsReference_renumber (op : SymOp) (site : Nat) (f : SymFrame) :
    (op.renumber site).LoadsReference f ↔ op.LoadsReference f := by
  cases op <;> simp [LoadsReference, renumber]

end SymOp

namespace Step

variable {xs ys zs : List Step} {f f' : SymFrame}

theorem run_append (xs ys : List Step) (f : SymFrame) : run (xs ++ ys) f = run xs f >>= run ys := by
  induction xs generalizing f with
  | nil => rfl
  | cons x rest ih =>
    rw [List.cons_append, run, run]
    cases x.op.apply f with
    | ok _ f₁ => exact ih f₁
    | error e _ => rfl

/-- The operations of two lists of steps are the same, up to the numbers of sites. -/
def Same (xs ys : List Step) : Prop := xs.map (·.op.renumber 0) = ys.map (·.op.renumber 0)

namespace Same

theorem symm (h : Same xs ys) : Same ys xs := Eq.symm h

/-- What does not depend on the numbers of sites is the same for the same steps. -/
theorem induction {motive : List Step → List Step → Prop} (h : Same xs ys) (nil : motive [] [])
    (cons : ∀ x y xs ys, x.op.renumber 0 = y.op.renumber 0 → motive xs ys → motive (x :: xs) (y :: ys)) :
    motive xs ys := by
  induction xs generalizing ys with
  | nil =>
    obtain rfl : ys = [] := List.map_eq_nil_iff.1 h.symm
    exact nil
  | cons x xs ih =>
    cases ys with
    | nil => simp [Same] at h
    | cons y ys =>
      rw [Same, List.map_cons, List.map_cons, List.cons.injEq] at h
      exact cons x y xs ys h.1 (ih h.2)

theorem apply_eq {x y : Step} (h : x.op.renumber 0 = y.op.renumber 0) : x.op.apply = y.op.apply := by
  rw [← SymOp.apply_renumber x.op 0, h, SymOp.apply_renumber]

theorem run_eq (h : Same xs ys) (f : SymFrame) : run xs f = run ys f := by
  revert f
  refine h.induction (motive := fun xs ys => ∀ f, run xs f = run ys f) (fun _ => rfl) ?_
  intro x y xs ys op ih f
  rw [run, run, apply_eq op]
  cases y.op.apply f with
  | ok _ f₁ => exact ih f₁
  | error e _ => rfl

theorem after_eq (h : Same xs ys) (a : Accesses) : a.after xs = a.after ys := by
  revert a
  refine h.induction (motive := fun xs ys => ∀ a : Accesses, a.after xs = a.after ys) (fun _ => rfl) ?_
  intro x y xs ys op ih a
  show (a.step x.op).after xs = (a.step y.op).after ys
  rw [← SymOp.step_renumber a x.op 0, op, SymOp.step_renumber, ih]

theorem loads (h : Same xs ys) : LoadReferences xs f → LoadReferences ys f := by
  revert f
  refine h.induction (motive := fun xs ys => ∀ {f}, LoadReferences xs f → LoadReferences ys f) id ?_
  intro x y xs ys op ih f ⟨first, later⟩
  rw [← SymOp.loadsReference_renumber _ 0, op, SymOp.loadsReference_renumber] at first
  exact ⟨first, fun f' applied => ih (later f' (apply_eq op ▸ applied))⟩

theorem append {xs' ys' : List Step} (h : Same xs ys) (h' : Same xs' ys') : Same (xs ++ xs') (ys ++ ys') := by
  rw [Same, List.map_append, List.map_append, h, h']

end Same

end Step

/-- What instructions are lowered to are their steps, up to places and numbers. -/
theorem Lowers.same {className : String} {config : Config} {place site : Nat} {code : List Instr}
    {steps : List Step} (h : Lowers className config place site code steps) :
    Step.Same steps (stepsOf className config code) := by
  induction h with
  | nil => rfl
  | @cons place site i rest effect more effect_eq later ih =>
    rw [stepsOf_cons]
    refine Step.Same.append ?_ ih
    have again (op : SymOp) : (op.renumber 0).renumber 0 = op.renumber 0 := by cases op <;> rfl
    simp [Step.Same, Instr.steps, i.ops_of_effect effect_eq, again]

/-! ## Paths from instruction to instruction -/

namespace Method

/-- The frames that paths from the entry bring to the instructions of a method of class `className`, which is
entered with `root`; exceptions are left out. -/
inductive Reaches (m : Method) (className : String) (config : Config) (root : SymFrame) : Nat → SymFrame → Prop
  | entry : Reaches m className config root 0 root
  | step {place j : Nat} {i : Instr} {f f' : SymFrame} {kind : EdgeKind}
      (before : Reaches m className config root place f) (here : m.code.instrs[place]? = some i)
      (ran : Step.run (i.steps className config) f = .ok f') (leads : i.Leads m place kind j)
      (regular : kind ≠ .exception) : Reaches m className config root j (kind.deliver f')

/-- The slots that are read on some path from an instruction before they are defined on it. -/
inductive Needs (m : Method) (className : String) (config : Config) : Nat → Slot → Prop
  | read {place : Nat} {i : Instr} {s : Slot} (here : m.code.instrs[place]? = some i)
      (used : s ∈ (({} : Accesses).after (i.steps className config)).uses) : Needs m className config place s
  | later {place j : Nat} {i : Instr} {s : Slot} {kind : EdgeKind} (here : m.code.instrs[place]? = some i)
      (leads : i.Leads m place kind j) (regular : kind ≠ .exception) (next : Needs m className config j s)
      (kept : s ∉ (({} : Accesses).after (i.steps className config)).defs) : Needs m className config place s

variable {m : Method} {className : String} {config : Config} {root : SymFrame}

theorem Needs.lt {place : Nat} {s : Slot} (h : m.Needs className config place s) :
    place < m.code.instrs.length := by
  cases h with
  | read here | later here => exact (List.getElem?_eq_some_iff.1 here).1

end Method

/-- An instruction that leads elsewhere than to the next instruction, or not there, ends a block. -/
theorem Instr.endsBlock_of_mem_targets {i : Instr} {l : Label} (h : l ∈ i.targets) : i.endsBlock = true := by
  cases targets : i.targets with
  | nil =>
    rw [targets] at h
    cases h
  | cons l' rest => simp [endsBlock, targets]

theorem Instr.fallsThrough_of_not_endsBlock {i : Instr} (h : i.endsBlock = false) : i.fallsThrough = true := by
  unfold endsBlock at h
  cases falls : i.fallsThrough with
  | true => rfl
  | false => simp [falls] at h

namespace Graph

variable {method : Method} {className : String} {config : Config} {g : Graph} {n j : Nat} {s : Stretch}

theorem getElem?_of_stretch (hs : (stretches method)[n]? = some s) {i : Instr} (hi : s.instrs[j]? = some i) :
    method.code.instrs[s.start + j]? = some i := by
  simpa using ((tiles_stretches method).getElem?_instrs hs hi).2

/-- The stream up to a place of a stretch. -/
theorem take_of_stretch (hs : (stretches method)[n]? = some s) (inside : j ≤ s.instrs.length) :
    method.code.instrs.take (s.start + j) = method.code.instrs.take s.start ++ s.instrs.take j := by
  rw [List.take_add]
  congr 1
  apply List.ext_getElem?
  intro k
  rw [List.getElem?_take, List.getElem?_take, List.getElem?_drop]
  split
  · next lt =>
    have hk := List.getElem?_eq_getElem (show k < s.instrs.length by omega)
    rw [getElem?_of_stretch hs hk, hk]
  · rfl

/-- All instructions of a stretch but the last one only lead to the next instruction. -/
theorem fallsThrough_inner (hs : (stretches method)[n]? = some s) {i : Instr} (hi : s.instrs[j]? = some i)
    (inner : j + 1 < s.instrs.length) : i.fallsThrough = true := by
  refine i.fallsThrough_of_not_endsBlock ?_
  cases ends : i.endsBlock with
  | false => rfl
  | true =>
    have := ((tiles_stretches method).sound hs).last_of_endsBlock hi ends
    omega

/-- The stretch of a block. -/
theorem exists_stretch_of_block (h : build className method config = .ok g) (nonempty : method.code.instrs ≠ [])
    {b : Block} (hb : g.block? n = some b) :
    ∃ s, (stretches method)[n]? = some s ∧ b.start = s.start ∧
      Step.Same b.steps (stepsOf className config s.instrs) := by
  have lt := (List.getElem?_eq_some_iff.1 hb).1
  have more : (stretches method).length ≠ 0 := by
    intro none
    apply nonempty
    rw [← (tiles_stretches method).flatMap_instrs, List.length_eq_zero_iff.1 none]
    rfl
  rw [length_of_build h, Nat.max_eq_right (Nat.one_le_iff_ne_zero.2 more)] at lt
  have hs := List.getElem?_eq_getElem lt
  obtain ⟨b', hb', start, lowers⟩ := lowers_of_build h hs
  cases hb.symm.trans hb'
  exact ⟨_, hs, start, lowers.same⟩

/-- A method without handlers has no block that starts one. -/
theorem noHandler_of_build (h : build className method config = .ok g) (regions : method.code.regions = [])
    (nonempty : method.code.instrs ≠ []) {b : Block} (hb : b ∈ g.blocks) : b.handler = false := by
  obtain ⟨n, hn⟩ := List.mem_iff_getElem?.1 hb
  obtain ⟨s, hs, -⟩ := exists_stretch_of_block h nonempty hn
  exact (edges_of_build h regions hs hn).1

/-- An instruction leads on inside of its stretch, or it is the last one of it and its block has an edge
there. -/
theorem cases_of_leads (h : build className method config = .ok g) (hs : (stretches method)[n]? = some s)
    {i : Instr} (hi : s.instrs[j]? = some i) {kind : EdgeKind} {q : Nat}
    (leads : i.Leads method (s.start + j) kind q) (regular : kind ≠ .exception)
    (lt : q < method.code.instrs.length) :
    kind = .fallthrough ∧ q = s.start + (j + 1) ∧ j + 1 < s.instrs.length ∨
      j + 1 = s.instrs.length ∧ ∃ b, g.block? n = some b ∧ ∃ e ∈ b.edges, e.kind = kind ∧
        ∃ t, (stretches method)[e.target]? = some t ∧ t.start = q := by
  have here := getElem?_of_stretch hs hi
  obtain ⟨m, b, run, k, hb, hrun, place, hk, either⟩ := covers_of_leads h here leads lt
  have nonempty : method.code.instrs ≠ [] := by
    intro none
    rw [none] at here
    cases here
  obtain ⟨t, ht, start, -⟩ := exists_stretch_of_block h nonempty hb
  rw [runs_of_stretch hs, List.getElem?_map, ht] at hrun
  obtain rfl : t.instrs = run := Option.some.inj hrun
  have inside := (List.getElem?_eq_some_iff.1 hi).1
  obtain ⟨rfl, rfl, rfl⟩ := (tiles_stretches method).unique hs ht inside hk (by omega)
  rcases either with ⟨kind, target, inner⟩ | ⟨last, e, he, kind, b', hb', target⟩
  · exact .inl ⟨kind, by omega, inner⟩
  · obtain ⟨u, hu, start', -⟩ := exists_stretch_of_block h nonempty hb'
    exact .inr ⟨last regular, b, hb, e, he, kind, u, hu, by omega⟩

/-- What the edges of a block follow.  Only the last instruction of a stretch has edges. -/
theorem leads_of_edge (h : build className method config = .ok g) (regions : method.code.regions = [])
    (hs : (stretches method)[n]? = some s) {b : Block} (hb : g.block? n = some b) {e : Edge}
    (he : e ∈ b.edges) :
    e.kind ≠ .exception ∧ ∃ j i t, s.instrs[j]? = some i ∧ j + 1 = s.instrs.length ∧
      (stretches method)[e.target]? = some t ∧ i.Leads method (s.start + j) e.kind t.start := by
  have sound := (tiles_stretches method).sound hs
  obtain ⟨j, last⟩ : ∃ j, j + 1 = s.instrs.length :=
    ⟨s.instrs.length - 1, Nat.sub_add_cancel (List.length_pos_iff.2 sound.nonempty)⟩
  obtain ⟨i, hi⟩ : ∃ i, s.instrs[j]? = some i := ⟨_, List.getElem?_eq_getElem (by omega)⟩
  rcases (edges_of_build h regions hs hb).2 e he with ⟨rfl, falls, more⟩ | ⟨i', hi', kind, l, hl, resolved⟩
  · have ht := List.getElem?_eq_getElem more
    have next := ((tiles_stretches method).succ hs ht).1
    refine ⟨by simp, j, i, _, hi, last, ht, ?_⟩
    rw [next, ← last, ← Nat.add_assoc]
    exact .on ((sound.fallsThrough_eq hi last).symm.trans falls)
  · rw [← last, Nat.add_sub_cancel] at hi'
    obtain ⟨t, ht, target⟩ := target_of_resolve h resolved
    rw [kind]
    refine ⟨?_, j, i', t, hi', last, ht, .jump hl target⟩
    cases i' with
    | jump op l => cases op <;> simp [Instr.jumpKind]
    | _ => simp [Instr.jumpKind]

end Graph

namespace Method

variable {m : Method} {className : String} {config : Config} {root : SymFrame}

/-- A frame goes on from an instruction to the next one. -/
theorem Reaches.next {place : Nat} {i : Instr} {f f' : SymFrame} (h : m.Reaches className config root place f)
    (here : m.code.instrs[place]? = some i) (ran : Step.run (i.steps className config) f = .ok f')
    (falls : i.fallsThrough = true) : m.Reaches className config root (place + 1) f' := by
  have leads : i.Leads m place .fallthrough (place + 1) := .on falls
  exact .step h here ran leads (by simp)

/-- A frame that comes to a stretch goes through it. -/
theorem Reaches.walk {n : Nat} {s : Stretch} (hs : (Graph.stretches m)[n]? = some s) {f f' : SymFrame}
    (h : m.Reaches className config root s.start f) {j : Nat} (inside : j < s.instrs.length)
    (ran : Step.run (stepsOf className config (s.instrs.take j)) f = .ok f') :
    m.Reaches className config root (s.start + j) f' := by
  induction j generalizing f' with
  | zero =>
    cases ran
    exact h
  | succ j ih =>
    have hj := List.getElem?_eq_getElem (show j < s.instrs.length by omega)
    rw [stepsOf_take_succ hj, Step.run_append] at ran
    obtain ⟨f₁, ran₁, ran⟩ := bind_eq_ok.1 ran
    exact (ih (by omega) ran₁).next (Graph.getElem?_of_stretch hs hj) ran (Graph.fallsThrough_inner hs hj inside)

/-! ## Typings of methods -/

/-- A place where a block may start: the entry, a label, or the place behind an instruction that ends a
block. -/
def Opens (m : Method) (place : Nat) : Prop :=
  place = 0 ∨ (∃ l, m.code.instrs[place]? = some (.label l)) ∨
    ∃ before i, place = before + 1 ∧ m.code.instrs[before]? = some i ∧ i.endsBlock = true

/-- The frames that are admitted at the instructions of a method, among them `root` at the entry.  Every
instruction takes them to admitted frames, and where a block may start, they agree on the stack and on what
is needed. -/
structure Typing (m : Method) (className : String) (config : Config) (root : SymFrame)
    (admits : Nat → SymFrame → Prop) : Prop where
  entry : admits 0 root
  step : ∀ place i f, m.code.instrs[place]? = some i → admits place f →
    ∃ f', Step.run (i.steps className config) f = .ok f' ∧ ∀ kind j, i.Leads m place kind j →
      kind ≠ .exception → j < m.code.instrs.length → admits j (kind.deliver f')
  widen : ∀ place (w : Widening) f, m.Opens place → admits place f → admits place (w.apply f)
  operands : ∀ place f f', m.Opens place → admits place f → admits place f' →
    f.stack.map Tag.kind = f'.stack.map Tag.kind
  slots : ∀ place f f', m.Opens place → admits place f → admits place f' → ∀ s : Slot,
    f.locals[s]?.map Tag.kind = f'.locals[s]?.map Tag.kind ∨ ∃ f, admits place f ∧ s ∉ f.locals

/-- A stretch starts where a block may start.  The first one starts at 0, and a later one without a label behind
the last instruction of a stretch that ends there. -/
theorem opens_start {n : Nat} {s : Stretch} (hs : (Graph.stretches m)[n]? = some s) : m.Opens s.start := by
  have tiles := Graph.tiles_stretches m
  cases n with
  | zero =>
    have start := (tiles.drop hs).1
    exact .inl (by simpa using start)
  | succ n =>
    have lt := (List.getElem?_eq_some_iff.1 hs).1
    obtain ⟨t, ht⟩ : ∃ t, (Graph.stretches m)[n]? = some t := ⟨_, List.getElem?_eq_getElem (by omega)⟩
    obtain ⟨start, unlabelled⟩ := tiles.succ ht hs
    cases label : s.label with
    | some l =>
      have first : s.instrs[0]? = some (.label l) := by simp [Stretch.instrs, label]
      exact .inr (.inl ⟨l, Graph.getElem?_of_stretch hs first⟩)
    | none =>
      obtain ⟨e, he, ends⟩ := unlabelled label
      have mem : e.2 ∈ t.instrs :=
        List.mem_append_right _ (List.mem_map.2 ⟨e, List.mem_of_getLast? he, rfl⟩)
      obtain ⟨k, hk⟩ := List.mem_iff_getElem?.1 mem
      have last := (tiles.sound ht).last_of_endsBlock hk ends
      exact .inr (.inr ⟨t.start + k, e.2, by omega, Graph.getElem?_of_stretch ht hk, ends⟩)

namespace Typing

variable {admits : Nat → SymFrame → Prop}

/-- All frames that come to an instruction are admitted there. -/
theorem of_reaches (h : m.Typing className config root admits) {place : Nat} {f : SymFrame}
    (reaches : m.Reaches className config root place f) (lt : place < m.code.instrs.length) :
    admits place f := by
  induction reaches with
  | entry => exact h.entry
  | @step place j i f f' kind before here ran leads regular ih =>
    obtain ⟨f'', ran', next⟩ := h.step place i f here (ih (List.getElem?_eq_some_iff.1 here).1)
    cases ran.symm.trans ran'
    exact next kind j leads regular lt

/-- An admitted frame goes through the stretch that it is at. -/
theorem walk (h : m.Typing className config root admits) {n : Nat} {s : Stretch}
    (hs : (Graph.stretches m)[n]? = some s) {f : SymFrame} (hf : admits s.start f) {j : Nat}
    (inside : j < s.instrs.length) :
    ∃ f', Step.run (stepsOf className config (s.instrs.take j)) f = .ok f' ∧ admits (s.start + j) f' := by
  induction j with
  | zero => exact ⟨f, rfl, hf⟩
  | succ j ih =>
    obtain ⟨f₁, ran₁, admitted⟩ := ih (by omega)
    obtain ⟨i, hi⟩ : ∃ i, s.instrs[j]? = some i := ⟨_, List.getElem?_eq_getElem (by omega)⟩
    have here := Graph.getElem?_of_stretch hs hi
    obtain ⟨f', ran', next⟩ := h.step _ i f₁ here admitted
    have behind : s.start + (j + 1) < m.code.instrs.length := by
      have hj := List.getElem?_eq_getElem inside
      exact (List.getElem?_eq_some_iff.1 (Graph.getElem?_of_stretch hs hj)).1
    refine ⟨f', ?_, next .fallthrough _ (.on (Graph.fallsThrough_inner hs hi inside)) (by simp) behind⟩
    rw [stepsOf_take_succ hi, Step.run_append, ran₁]
    exact ran'

/-- An admitted frame goes through the block of a stretch, and its edges deliver frames that are admitted where
they lead. -/
theorem exists_exit (h : m.Typing className config root admits) {g : Graph}
    (built : Graph.build className m config = .ok g) (regions : m.code.regions = [])
    (nonempty : m.code.instrs ≠ []) {n : Nat} {s : Stretch} (hs : (Graph.stretches m)[n]? = some s) {b : Block}
    (hb : g.block? n = some b) {f : SymFrame} (hf : admits s.start f) :
    ∃ exit, Step.run b.steps f = .ok exit ∧ ∀ e ∈ b.edges,
      ∃ t, (Graph.stretches m)[e.target]? = some t ∧ admits t.start (e.kind.deliver exit) := by
  obtain ⟨s', hs', -, same⟩ := Graph.exists_stretch_of_block built nonempty hb
  cases hs.symm.trans hs'
  obtain ⟨j, last⟩ : ∃ j, j + 1 = s.instrs.length :=
    ⟨s.instrs.length - 1, Nat.sub_add_cancel (List.length_pos_iff.2 ((Graph.tiles_stretches m).sound hs).nonempty)⟩
  obtain ⟨i, hi⟩ : ∃ i, s.instrs[j]? = some i := ⟨_, List.getElem?_eq_getElem (by omega)⟩
  obtain ⟨f₁, ran₁, admitted⟩ := h.walk hs hf (j := j) (by omega)
  obtain ⟨exit, ran, next⟩ := h.step _ i f₁ (Graph.getElem?_of_stretch hs hi) admitted
  refine ⟨exit, ?_, fun e he => ?_⟩
  · rw [same.run_eq, ← List.take_length (l := s.instrs), ← last, stepsOf_take_succ hi, Step.run_append, ran₁]
    exact ran
  · obtain ⟨regular, k, i', t, hi', last', ht, leads⟩ := Graph.leads_of_edge built regions hs hb he
    obtain rfl : j = k := by omega
    cases hi.symm.trans hi'
    have first := List.length_pos_iff.2 ((Graph.tiles_stretches m).sound ht).nonempty
    have there := Graph.getElem?_of_stretch ht (List.getElem?_eq_getElem first)
    exact ⟨t, ht, next e.kind t.start leads regular (List.getElem?_eq_some_iff.1 there).1⟩

/-- A typing of a method is one of its graph.  What holds at instructions holds at blocks, at the instruction
that starts each. -/
theorem graph (h : m.Typing className config root admits) {g : Graph}
    (built : Graph.build className m config = .ok g) (regions : m.code.regions = [])
    (nonempty : m.code.instrs ≠ []) :
    g.Typing root fun n f => ∃ s, (Graph.stretches m)[n]? = some s ∧ admits s.start f := by
  refine { root := ?_, noHandler := ?_, regular := ?_, run := ?_, widen := ?_, operands := ?_, slots := ?_ }
  · obtain ⟨n, s, k, hs, -⟩ := (Graph.tiles_stretches m).exists_stretch (List.length_pos_iff.2 nonempty)
    cases hss : Graph.stretches m with
    | nil => simp [hss] at hs
    | cons t rest =>
      have ht : (Graph.stretches m)[0]? = some t := by rw [hss]; rfl
      have start := ((Graph.tiles_stretches m).drop ht).1
      refine ⟨t, rfl, ?_⟩
      rw [show t.start = 0 by simpa using start]
      exact h.entry
  · exact fun b hb => Graph.noHandler_of_build built regions nonempty hb
  · intro b hb e he
    obtain ⟨n, hn⟩ := List.mem_iff_getElem?.1 hb
    obtain ⟨s, hs, -⟩ := Graph.exists_stretch_of_block built nonempty hn
    exact (Graph.leads_of_edge built regions hs hn he).1
  · rintro n b f hb ⟨s, hs, hf⟩
    exact h.exists_exit built regions nonempty hs hb hf
  · rintro n w f ⟨s, hs, hf⟩
    exact ⟨s, hs, h.widen _ w f (opens_start hs) hf⟩
  · rintro n f f' ⟨s, hs, hf⟩ ⟨s', hs', hf'⟩
    cases hs.symm.trans hs'
    exact h.operands _ f f' (opens_start hs) hf hf'
  · rintro n f f' ⟨s, hs, hf⟩ ⟨s', hs', hf'⟩ slot
    cases hs.symm.trans hs'
    exact (h.slots _ f f' (opens_start hs) hf hf' slot).imp_right fun ⟨f, hf, missing⟩ => ⟨f, ⟨s, hs, hf⟩, missing⟩

/-- A method with a typing has a shape. -/
theorem exists_shape (h : m.Typing className config root admits) (regions : m.code.regions = [])
    (nonempty : m.code.instrs ≠ []) (hroot : SymFrame.root className m = .ok root) {g : Graph}
    (built : Graph.build className m config = .ok g) {metrics : Metrics}
    (counted : metrics.siteCount = m.code.instrs.countP (config.suspends className)) :
    ∃ s, (Shape.ofMethod className m config metrics).result = .ok s :=
  Shape.exists_of_typing (h.graph built regions nonempty) built hroot
    ((Graph.length_sites_of_build built).trans counted.symm)

end Typing

end Method

end Suspension
