import Suspension.Proofs.Flow.Stretches

/-!
# The operations of a stream

What an instruction does to a symbolic frame does not depend on the number that it gets as a suspension site,
so a run of instructions has operations of its own.  The steps of a block are the operations of its
instructions, one after the other, and its edges are those of its last instruction.

## Main definitions
* `Instr.ops`: the operations of an instruction.
* `Lowers`: the steps of some instructions.

## Main results
* `Graph.lowers_of_build`: the steps of a block are those of its instructions.
* `Graph.edges_of_build`: where the edges of a block come from.
* `Graph.exists_build`: a method has a graph if its instructions have operations and its labels are defined.
-/

namespace Suspension

/-- Gives another number to the suspension site that an operation marks. -/
def SymOp.renumber (site : Nat) : SymOp → SymOp
  | .suspend _ => .suspend site
  | op => op

theorem SymOp.map_renumber {ops : List SymOp} (silent : ∀ op ∈ ops, op.site? = none) (site : Nat) :
    ops.map (renumber site) = ops := by
  refine (List.map_congr_left fun op hop => ?_).trans (List.map_id' ops)
  have := silent op hop
  cases op with
  | suspend site => cases this
  | _ => rfl

variable {className : String} {config : Config}

/-- The effect of an instruction is the same for every number, up to that number.  Only calls mark a site, so
only their effect can depend on the number. -/
theorem Instr.effect_renumbered {i : Instr} {site : Nat} {effect : Effect}
    (h : i.effect className config site = .ok effect) (site' : Nat) :
    i.effect className config site' = .ok ⟨effect.ops.map (SymOp.renumber site'), effect.site?⟩ := by
  by_cases call : ∃ kind m, i = .invoke kind m
  · obtain ⟨kind, m, rfl⟩ := call
    obtain ⟨s, parsed, h⟩ := bind_eq_ok.1 h
    have operands : (operandOps kind.hasReceiver s).map (SymOp.renumber site') = operandOps kind.hasReceiver s :=
      SymOp.map_renumber (fun op hop => op.site?_of_isSimple (isSimple_of_operand hop)) site'
    have results : (resultOps s).map (SymOp.renumber site') = resultOps s :=
      SymOp.map_renumber (fun op hop => op.site?_of_isSimple (isSimple_of_result hop)) site'
    rw [Instr.effect, callEffect, parsed]
    refine bind_eq_ok.2 ⟨s, rfl, ?_⟩
    split at h
    · split at h <;> rename_i suspends <;> cases h <;> simp [suspends, operands, results, SymOp.renumber, pure, Except.pure]
    · cases h
      simp [operands, results, pure, Except.pure]
  · have silent : ∀ op ∈ effect.ops, op.site? = none := by
      have none := i.sites_of_effect h
      rw [i.site?_of_effect h call] at none
      exact List.filterMap_eq_nil_iff.1 none
    have same : i.effect className config site' = i.effect className config site := by
      cases i with
      | invoke kind m => exact absurd ⟨kind, m, rfl⟩ call
      | plain op => rfl
      | slot op s => cases op <;> rfl
      | field op f => cases op <;> rfl
      | typed op c => cases op <;> rfl
      | _ => rfl
    rw [same, h, SymOp.map_renumber silent]

/-- The operations of an instruction in code of class `className`. -/
def Instr.ops (className : String) (config : Config) (i : Instr) : List SymOp :=
  ((i.effect className config 0).toOption.map (·.ops)).getD []

theorem Instr.ops_of_effect {i : Instr} {site : Nat} {effect : Effect}
    (h : i.effect className config site = .ok effect) :
    i.ops className config = effect.ops.map (SymOp.renumber 0) := by
  rw [ops, effect_renumbered h 0]
  rfl

/-- A call of a method whose descriptor can be read has operations. -/
theorem Instr.exists_effect_of_parse {m : MemberRef} {sig : Signature} (kind : InvokeKind)
    (parsed : Signature.parse m.descriptor = .ok sig) :
    ∃ effect, (Instr.invoke kind m).effect className config 0 = .ok effect := by
  show ∃ effect, callEffect className config 0 kind m = .ok effect
  rw [callEffect, parsed]
  simp only [bind, Except.bind]
  split
  · split <;> exact ⟨_, rfl⟩
  · exact ⟨_, rfl⟩

/-! ## Steps -/

/-- The steps of some instructions, the first of them at `place`, where the next suspension site gets the
number `site`. -/
inductive Lowers (className : String) (config : Config) : (place site : Nat) → List Instr → List Step → Prop
  | nil {place site : Nat} : Lowers className config place site [] []
  | cons {place site : Nat} {i : Instr} {rest : List Instr} {effect : Effect} {more : List Step}
      (effect_eq : i.effect className config site = .ok effect)
      (later : Lowers className config (place + 1) (site + effect.site?.toList.length) rest more) :
      Lowers className config place site (i :: rest) (effect.ops.map (⟨place, ·⟩) ++ more)

namespace Lowers

variable {place site : Nat} {code : List Instr} {steps : List Step}

/-- The steps of two runs of instructions, one behind the other. -/
theorem split {a b : List Instr} (h : Lowers className config place site (a ++ b) steps) :
    ∃ xs ys, steps = xs ++ ys ∧ Lowers className config place site a xs ∧
      Lowers className config (place + a.length) (site + a.countP (config.suspends className)) b ys := by
  induction a generalizing place site steps with
  | nil => exact ⟨[], steps, rfl, .nil, h⟩
  | cons i rest ih =>
    rw [List.cons_append] at h
    cases h with
    | @cons _ _ _ _ effect more effect_eq later =>
      obtain ⟨xs, ys, rfl, first, second⟩ := ih later
      refine ⟨_, ys, (List.append_assoc ..).symm, .cons effect_eq first, ?_⟩
      rw [Instr.countP_of_effect effect_eq] at second
      rwa [List.length_cons, ← List.singleton_append, List.countP_append, ← Nat.add_assoc,
        ← Nat.add_right_comm, ← Nat.add_assoc]

/-- What is lowered has operations. -/
theorem exists_effect (h : Lowers className config place site code steps) {i : Instr} (hi : i ∈ code) :
    ∃ effect, i.effect className config 0 = .ok effect := by
  induction h with
  | nil => cases hi
  | cons effect_eq _ ih =>
    rcases List.mem_cons.1 hi with rfl | hi
    · exact ⟨_, Instr.effect_renumbered effect_eq 0⟩
    · exact ih hi

end Lowers

namespace Graph

/-- A body is lowered to the steps of its instructions. -/
theorem lowers_of_lower {blocks : List Stretch} {place site : Nat} {body : List (Nat × Instr)} {low : Lowered}
    (h : lower className config blocks site body = .ok low)
    (places : body.map (·.1) = List.range' place body.length) :
    Lowers className config place site (body.map (·.2)) low.steps := by
  induction body generalizing place site low with
  | nil =>
    cases h
    exact .nil
  | cons p rest ih =>
    obtain ⟨effect, heffect, h⟩ := bind_eq_ok.1 h
    obtain ⟨jumps, -, h⟩ := bind_eq_ok.1 h
    obtain ⟨more, hmore, h⟩ := bind_eq_ok.1 h
    cases h
    rw [List.map_cons, List.length_cons, List.range'_succ, List.cons.injEq] at places
    obtain ⟨rfl, places⟩ := places
    exact .cons (mapError_eq_ok.1 heffect) (ih hmore places)

variable {method : Method} {g : Graph}

/-- The steps of a block are those of its instructions. -/
theorem lowers_of_build (h : build className method config = .ok g) {n : Nat} {s : Stretch}
    (hs : (stretches method)[n]? = some s) :
    ∃ b, g.block? n = some b ∧ b.start = s.start ∧
      Lowers className config s.start ((method.code.instrs.take s.start).countP (config.suspends className))
        s.instrs b.steps := by
  obtain ⟨spans, -, lowered⟩ := lowered_of_build h
  obtain ⟨low, hlow, block⟩ := lowered n s hs
  refine ⟨_, block, rfl, ?_⟩
  have places := ((tiles_stretches method).sound hs).places
  change Lowers className config s.start _ _ low.steps
  rw [Stretch.instrs]
  cases label : s.label with
  | none =>
    rw [label] at places
    exact lowers_of_lower hlow places
  | some l =>
    rw [label] at places
    have silent : (Instr.label l).effect className config
        ((method.code.instrs.take s.start).countP (config.suspends className)) = .ok ⟨[], none⟩ := rfl
    exact .cons silent (lowers_of_lower hlow places)

/-- The instructions of a method that has a graph have operations. -/
theorem exists_effect_of_build (h : build className method config = .ok g) {i : Instr} (hi : i ∈ method.code.instrs) :
    ∃ effect, i.effect className config 0 = .ok effect := by
  rw [← (tiles_stretches method).flatMap_instrs] at hi
  obtain ⟨s, hs, hi⟩ := List.mem_flatMap.1 hi
  obtain ⟨n, hn⟩ := List.mem_iff_getElem?.1 hs
  obtain ⟨b, -, -, lowers⟩ := lowers_of_build h hn
  exact lowers.exists_effect hi

/-- In a method without handlers, the edges of a block are those of the last instruction of its stretch.  An
instruction with targets ends its block, so it is the last one. -/
theorem edges_of_build (h : build className method config = .ok g) (regions : method.code.regions = [])
    {n : Nat} {s : Stretch} (hs : (stretches method)[n]? = some s) {b : Block} (hb : g.block? n = some b) :
    b.handler = false ∧ ∀ e ∈ b.edges,
      e = ⟨n + 1, .fallthrough⟩ ∧ s.fallsThrough = true ∧ n + 1 < (stretches method).length ∨
        ∃ i, s.instrs[s.instrs.length - 1]? = some i ∧ e.kind = i.jumpKind ∧
          ∃ l ∈ i.targets, resolve (stretches method) l = .ok e.target := by
  obtain ⟨spans, hspans, lowered⟩ := lowered_of_build h
  obtain ⟨low, hlow, block⟩ := lowered n s hs
  obtain rfl := Option.some.inj (hb.symm.trans block)
  obtain rfl : spans = [] := by
    rw [regions] at hspans
    cases hspans
    rfl
  refine ⟨rfl, fun e he => ?_⟩
  have sound := (tiles_stretches method).sound hs
  simp only [Block.edges, protect, Stretch.block, List.filter_nil, List.map_nil, List.append_nil,
    List.mem_append, Option.mem_toList, Option.map_eq_some_iff] at he
  rcases he with jump | ⟨q, hq, rfl⟩
  · obtain ⟨⟨place, i⟩, hp, l, hl, resolved, kind⟩ := target_of_mem_jumps hlow jump
    refine .inr ⟨i, ?_, kind, l, hl, resolved⟩
    obtain ⟨k, hk⟩ := List.mem_iff_getElem?.1 (List.mem_map.2 ⟨_, hp, rfl⟩ : i ∈ s.body.map (·.2))
    have instr : s.instrs[s.label.toList.length + k]? = some i := by
      rw [Stretch.instrs, List.getElem?_append_right (by simp)]
      simpa using hk
    have ends : i.endsBlock = true := by
      cases targets : i.targets with
      | nil =>
        rw [targets] at hl
        cases hl
      | cons l' rest => simp [Instr.endsBlock, targets]
    rwa [← sound.last_of_endsBlock instr ends, Nat.add_sub_cancel]
  · split at hq
    · next falls =>
      cases hq
      exact .inl ⟨rfl, falls⟩
    · cases hq

theorem length_sites_of_lowerAll {all ss : List Stretch} {place site : Nat} {blocks : List Block}
    {sites : List SiteKind} (h : lowerAll className config all place site ss = .ok (blocks, sites)) :
    sites.length = (ss.flatMap Stretch.instrs).countP (config.suspends className) := by
  induction ss generalizing place site blocks sites with
  | nil =>
    cases h
    rfl
  | cons s rest ih =>
    obtain ⟨low, hlow, h⟩ := bind_eq_ok.1 h
    obtain ⟨⟨blocks', sites'⟩, later, h⟩ := bind_eq_ok.1 h
    cases h
    have labels : (s.label.toList.map Instr.label).countP (config.suspends className) = 0 := by
      cases s.label <;> rfl
    rw [List.length_append, length_sites_of_lower hlow, ih later, List.flatMap_cons, List.countP_append,
      Stretch.instrs, List.countP_append, labels, Nat.zero_add]

/-- A graph has the suspension sites of its method. -/
theorem length_sites_of_build (h : build className method config = .ok g) :
    g.sites.length = method.code.instrs.countP (config.suspends className) := by
  obtain ⟨-, blocks, spans, hlow, -, -⟩ := build_eq_ok h
  rw [← (tiles_stretches method).flatMap_instrs]
  exact length_sites_of_lowerAll hlow

/-! ## Methods that have a graph -/

theorem firstRepeat?_eq_none {seen labels : List Label} (nodup : labels.Nodup) (fresh : ∀ l ∈ labels, l ∉ seen) :
    firstRepeat? seen labels = none := by
  induction labels generalizing seen with
  | nil => rfl
  | cons l rest ih =>
    obtain ⟨notAgain, nodup⟩ := List.nodup_cons.1 nodup
    rw [firstRepeat?, if_neg (fresh l List.mem_cons_self)]
    refine ih nodup fun x hx old => ?_
    rcases List.mem_cons.1 old with rfl | old
    · exact notAgain hx
    · exact fresh x (List.mem_cons_of_mem _ hx) old

theorem exists_resolve {blocks : List Stretch} {l : Label} (h : l ∈ blocks.filterMap (·.label)) :
    ∃ q, resolve blocks l = .ok q := by
  obtain ⟨s, hs, label⟩ := List.mem_filterMap.1 h
  unfold resolve place?
  cases found : blocks.findIdx? fun b => b.label = some l with
  | some q => exact ⟨q, rfl⟩
  | none =>
    have := List.findIdx?_eq_none_iff.1 found s hs
    simp [label] at this

theorem exists_mapM {ε α β : Type} {f : α → Except ε β} {l : List α} (h : ∀ a ∈ l, ∃ b, f a = .ok b) :
    ∃ l', l.mapM f = .ok l' := by
  induction l with
  | nil => exact ⟨[], rfl⟩
  | cons a rest ih =>
    obtain ⟨b, hb⟩ := h a List.mem_cons_self
    obtain ⟨bs, hbs⟩ := ih fun x hx => h x (List.mem_cons_of_mem _ hx)
    exact ⟨b :: bs, by rw [List.mapM_cons, hb, hbs]; rfl⟩

/-- An instruction has operations, and its targets are labels of some stretches. -/
def Lowerable (className : String) (config : Config) (blocks : List Stretch) (i : Instr) : Prop :=
  (∃ effect, i.effect className config 0 = .ok effect) ∧ ∀ l ∈ i.targets, l ∈ blocks.filterMap (·.label)

theorem exists_lower {blocks : List Stretch} {body : List (Nat × Instr)}
    (h : ∀ p ∈ body, Lowerable className config blocks p.2) (site : Nat) :
    ∃ low, lower className config blocks site body = .ok low := by
  induction body generalizing site with
  | nil => exact ⟨_, rfl⟩
  | cons p rest ih =>
    obtain ⟨⟨effect, heffect⟩, targets⟩ := h p List.mem_cons_self
    have heffect := Instr.effect_renumbered heffect site
    obtain ⟨jumps, hjumps⟩ : ∃ jumps, jumpEdges blocks p.2 = .ok jumps := exists_mapM fun l hl => by
      obtain ⟨q, hq⟩ := exists_resolve (targets l hl)
      exact ⟨⟨q, p.2.jumpKind⟩, by rw [hq]; rfl⟩
    obtain ⟨more, hmore⟩ := ih (fun x hx => h x (List.mem_cons_of_mem _ hx)) (site + effect.site?.toList.length)
    refine ⟨_, bind_eq_ok.2 ⟨_, mapError_eq_ok.2 heffect, bind_eq_ok.2 ⟨jumps, hjumps, bind_eq_ok.2 ⟨more, hmore, rfl⟩⟩⟩⟩

theorem exists_lowerAll {all ss : List Stretch}
    (h : ∀ s ∈ ss, ∀ p ∈ s.body, Lowerable className config all p.2) (place site : Nat) :
    ∃ lowered, lowerAll className config all place site ss = .ok lowered := by
  induction ss generalizing place site with
  | nil => exact ⟨_, rfl⟩
  | cons s rest ih =>
    obtain ⟨low, hlow⟩ := exists_lower (h s List.mem_cons_self) site
    obtain ⟨more, hmore⟩ := ih (fun x hx => h x (List.mem_cons_of_mem _ hx)) (place + 1) (site + low.sites.length)
    exact ⟨_, bind_eq_ok.2 ⟨low, hlow, bind_eq_ok.2 ⟨more, hmore, rfl⟩⟩⟩

/-- A method without handlers has a graph if its instructions have operations, and if the labels that they go
to are defined, each of them once. -/
theorem exists_build (regions : method.code.regions = []) (nodup : (definedLabels method.code.instrs).Nodup)
    (effects : ∀ i ∈ method.code.instrs, ∃ effect, i.effect className config 0 = .ok effect)
    (targets : ∀ i ∈ method.code.instrs, ∀ l ∈ i.targets, l ∈ definedLabels method.code.instrs) :
    ∃ g, build className method config = .ok g := by
  have labels : (Stretch.split 0 method.code.instrs).filterMap (·.label) = definedLabels method.code.instrs :=
    labels_split 0 method.code.instrs
  have lowerable : ∀ s ∈ Stretch.split 0 method.code.instrs, ∀ p ∈ s.body,
      Lowerable className config (Stretch.split 0 method.code.instrs) p.2 := by
    intro s hs p hp
    have mem : p.2 ∈ method.code.instrs := List.mem_of_getElem? (Stretch.mem_split hs hp).2
    exact ⟨effects p.2 mem, by rw [labels]; exact targets p.2 mem⟩
  obtain ⟨lowered, hlowered⟩ := exists_lowerAll lowerable 0 0
  have once : firstRepeat? [] ((Stretch.split 0 method.code.instrs).filterMap (·.label)) = none :=
    firstRepeat?_eq_none (labels ▸ nodup) (by simp)
  refine ⟨⟨(if lowered.1.isEmpty then [⟨none, 0, false, [], [], none⟩] else lowered.1).mapIdx (protect []),
    lowered.2⟩, ?_⟩
  unfold build
  simp only [once, hlowered, regions]
  rfl

end Graph

end Suspension
