import Suspension.Analysis.Metrics
import Suspension.Proofs.Flow.Lowered

/-!
# The numbers of the suspension sites

The suspension sites of a method are numbered in the order of the stream, whether control can come to them or
not.  They are counted once in a pass over the stream, and again where the blocks of the graph are lowered one
after the other; both see the same instructions in the same order.

## Main definitions
* `Config.suspensions`: the places of the suspension sites of a stream.
* `Graph.numbered`: the places and numbers of the sites that steps mark.

## Main results
* `Graph.numbered_of_build`: the sites of a graph are those of the stream, numbered in its order.
* `Graph.sites_of_build`: they are of the sorts that are counted.
* `Config.getElem?_suspensions`: the site of a number.
-/

namespace Suspension

/-- The places of the suspension sites among some instructions, the first of which is at `place`. -/
def Config.suspensions (config : Config) (className : String) (place : Nat) (instrs : List Instr) : List Nat :=
  ((instrs.zipIdx place).filter fun e => config.suspends className e.1).map (·.2)

namespace Config

variable {config : Config} {className : String} {place : Nat}

theorem suspensions_cons (i : Instr) (rest : List Instr) :
    config.suspensions className place (i :: rest) =
      (if config.suspends className i then [place] else []) ++ config.suspensions className (place + 1) rest := by
  rw [suspensions, List.zipIdx_cons, List.filter_cons]
  split <;> rfl

theorem suspensions_append (a b : List Instr) :
    config.suspensions className place (a ++ b) =
      config.suspensions className place a ++ config.suspensions className (place + a.length) b := by
  rw [suspensions, List.zipIdx_append, List.filter_append, List.map_append]
  rfl

theorem length_suspensions (instrs : List Instr) :
    (config.suspensions className place instrs).length = instrs.countP (config.suspends className) := by
  induction instrs generalizing place with
  | nil => rfl
  | cons i rest ih =>
    rw [suspensions_cons, List.length_append, ih, List.countP_cons, Nat.add_comm]
    split <;> rfl

/-- The site of a number is the suspending instruction with so many suspending ones in front of it. -/
theorem getElem?_suspensions {instrs : List Instr} {k q : Nat} :
    (config.suspensions className place instrs)[k]? = some q ↔
      ∃ i ins, q = place + i ∧ instrs[i]? = some ins ∧ config.suspends className ins = true ∧
        (instrs.take i).countP (config.suspends className) = k := by
  induction instrs generalizing place k with
  | nil => simp [suspensions]
  | cons i rest ih =>
    have next (n : Nat) : (config.suspensions className (place + 1) rest)[n]? = some q ↔
        ∃ j ins, q = place + (j + 1) ∧ rest[j]? = some ins ∧ config.suspends className ins = true ∧
          (rest.take j).countP (config.suspends className) = n := by
      rw [ih]
      simp only [Nat.add_assoc, Nat.add_comm 1]
    rw [suspensions_cons]
    by_cases here : config.suspends className i = true
    · rw [if_pos here]
      cases k with
      | zero =>
        constructor
        · intro h
          exact ⟨0, i, by simpa using h.symm, rfl, here, rfl⟩
        · rintro ⟨j, ins, rfl, hj, suspends, count⟩
          cases j with
          | zero => rfl
          | succ j => simp [here] at count
      | succ n =>
        rw [List.singleton_append, List.getElem?_cons_succ, next]
        constructor
        · rintro ⟨j, ins, rfl, hj, suspends, rfl⟩
          exact ⟨j + 1, ins, rfl, hj, suspends, by simp [here]⟩
        · rintro ⟨j, ins, rfl, hj, suspends, count⟩
          cases j with
          | zero => cases count
          | succ j => exact ⟨j, ins, rfl, hj, suspends, by simpa [here] using count⟩
    · rw [if_neg here, List.nil_append, next]
      constructor
      · rintro ⟨j, ins, rfl, hj, suspends, rfl⟩
        exact ⟨j + 1, ins, rfl, hj, suspends, by simp [here]⟩
      · rintro ⟨j, ins, rfl, hj, suspends, count⟩
        cases j with
        | zero =>
          obtain rfl : i = ins := by simpa using hj
          exact absurd suspends here
        | succ j => exact ⟨j, ins, rfl, hj, suspends, by simpa [here] using count⟩

end Config

namespace Graph

variable {className : String} {config : Config}

/-- The places and numbers of the suspension sites that steps mark. -/
def numbered (steps : List Step) : List (Nat × Nat) := steps.filterMap fun s => s.op.site?.map (s.place, ·)

theorem numbered_append (xs ys : List Step) : numbered (xs ++ ys) = numbered xs ++ numbered ys :=
  List.filterMap_append

/-- The steps of one instruction mark the site that it is, at its place. -/
theorem numbered_of_effect {i : Instr} {site place : Nat} {effect : Effect}
    (h : i.effect className config site = .ok effect) :
    numbered (effect.ops.map (⟨place, ·⟩)) =
      (if config.suspends className i then [place] else []).zipIdx site := by
  have marks : numbered (effect.ops.map (⟨place, ·⟩)) = (effect.ops.filterMap SymOp.site?).map (place, ·) := by
    rw [numbered, List.filterMap_map, List.map_filterMap]
    rfl
  have count := Instr.countP_of_effect h
  rw [List.countP_singleton] at count
  rw [marks, Instr.sites_of_effect h, count]
  split <;> rfl

/-- The steps of some instructions mark the sites among them, numbered in their order. -/
theorem numbered_of_lowers {place site : Nat} {code : List Instr} {steps : List Step}
    (h : Lowers className config place site code steps) :
    numbered steps = (config.suspensions className place code).zipIdx site := by
  induction h with
  | nil => rfl
  | @cons place site i rest effect more effect_eq later ih =>
    have count := Instr.countP_of_effect effect_eq
    rw [List.countP_singleton] at count
    rw [numbered_append, numbered_of_effect effect_eq, ih, Config.suspensions_cons, List.zipIdx_append, count]
    split <;> rfl

/-- A label in front of a stretch is no site. -/
theorem suspensions_stretch {s : Stretch} (place : Nat) :
    config.suspensions className place s.instrs =
      config.suspensions className (place + s.label.toList.length) (s.body.map (·.2)) := by
  rw [Stretch.instrs, Config.suspensions_append, List.length_map]
  cases s.label <;> rfl

theorem numbered_of_lowerAll {all ss : List Stretch} {place site start : Nat} {blocks : List Block}
    {sites : List SiteKind} {code : List Instr}
    (h : lowerAll className config all place site ss = .ok (blocks, sites))
    (tiles : Stretch.Tiles start code ss) :
    blocks.flatMap (fun b => numbered b.steps) = (config.suspensions className start code).zipIdx site := by
  induction tiles generalizing place site blocks sites with
  | done =>
    cases h
    rfl
  | @next start s rest more here sound ends later ih =>
    obtain ⟨low, hlow, h⟩ := bind_eq_ok.1 h
    obtain ⟨⟨blocks', sites'⟩, hmore, h⟩ := bind_eq_ok.1 h
    cases h
    have lowers := numbered_of_lowers (lowers_of_lower hlow sound.places)
    have count : low.sites.length = (config.suspensions className start s.instrs).length := by
      rw [length_sites_of_lower hlow, suspensions_stretch, Config.length_suspensions]
    rw [here, ← suspensions_stretch] at lowers
    rw [List.flatMap_cons, ih hmore, Config.suspensions_append, List.zipIdx_append, ← count]
    exact congrArg (· ++ _) lowers

/-- The suspension sites of a graph are those of the stream, numbered in its order. -/
theorem numbered_of_build {method : Method} {g : Graph} (h : build className method config = .ok g) :
    g.blocks.flatMap (fun b => numbered b.steps) =
      (config.suspensions className 0 method.code.instrs).zipIdx := by
  obtain ⟨-, blocks, spans, hlow, -, hblocks⟩ := build_eq_ok h
  have kept (blocks : List Block) : (blocks.mapIdx (protect spans)).flatMap (fun b => numbered b.steps) =
      blocks.flatMap fun b => numbered b.steps := by
    rw [List.flatMap_def, List.flatMap_def]
    congr 1
    apply List.ext_getElem?
    intro i
    simp only [List.getElem?_map, List.getElem?_mapIdx, Option.map_map]
    rfl
  rw [hblocks, kept, ← numbered_of_lowerAll hlow (tiles_stretches method)]
  cases blocks <;> rfl

/-! ## Their sorts -/

/-- The sort of a site is the one that the instruction is counted as. -/
theorem site?_eq_of_effect {i : Instr} {site : Nat} {effect : Effect}
    (h : i.effect className config site = .ok effect) :
    effect.site?.toList = (Metrics.sites className config [i]).filter SiteKind.suspends := by
  by_cases call : ∃ kind m, i = .invoke kind m
  · obtain ⟨kind, m, rfl⟩ := call
    have sort : Metrics.sites className config [.invoke kind m] = (config.classify className m).toList := by
      cases hc : config.classify className m <;> simp [Metrics.sites, Config.site?, Instr.invocation?, hc]
    obtain ⟨s, -, h⟩ := bind_eq_ok.1 h
    rw [sort]
    split at h
    · next sort' found =>
      split at h <;> rename_i suspends <;> cases h <;> simp [found, suspends]
    · next none =>
      cases h
      simp [none]
  · have none : Metrics.sites className config [i] = [] := by
      cases i <;> first | rfl | exact absurd ⟨_, _, rfl⟩ call
    rw [i.site?_of_effect h call, none]
    rfl

theorem sites_append (a b : List Instr) :
    Metrics.sites className config (a ++ b) = Metrics.sites className config a ++ Metrics.sites className config b :=
  List.filterMap_append

theorem sites_of_lower {blocks : List Stretch} {site : Nat} {body : List (Nat × Instr)} {low : Lowered}
    (h : lower className config blocks site body = .ok low) :
    low.sites = (Metrics.sites className config (body.map (·.2))).filter SiteKind.suspends := by
  induction body generalizing site low with
  | nil =>
    cases h
    rfl
  | cons e rest ih =>
    obtain ⟨effect, heffect, h⟩ := bind_eq_ok.1 h
    obtain ⟨jumps, -, h⟩ := bind_eq_ok.1 h
    obtain ⟨more, hmore, h⟩ := bind_eq_ok.1 h
    cases h
    rw [ih hmore, site?_eq_of_effect (mapError_eq_ok.1 heffect), ← List.filter_append, ← sites_append]
    rfl

theorem sites_of_lowerAll {all ss : List Stretch} {place site : Nat} {blocks : List Block}
    {sites : List SiteKind} (h : lowerAll className config all place site ss = .ok (blocks, sites)) :
    sites = (Metrics.sites className config (ss.flatMap Stretch.instrs)).filter SiteKind.suspends := by
  induction ss generalizing place site blocks sites with
  | nil =>
    cases h
    rfl
  | cons s rest ih =>
    obtain ⟨low, hlow, h⟩ := bind_eq_ok.1 h
    obtain ⟨⟨blocks', sites'⟩, hmore, h⟩ := bind_eq_ok.1 h
    cases h
    have label : Metrics.sites className config (s.label.toList.map .label) = [] := by cases s.label <;> rfl
    rw [List.flatMap_cons, sites_append, List.filter_append, ← ih hmore, sites_of_lower hlow, Stretch.instrs,
      sites_append, label, List.nil_append]

/-- The suspension sites of a graph are of the sorts that are counted in the stream. -/
theorem sites_of_build {method : Method} {g : Graph} (h : build className method config = .ok g) :
    g.sites = (Metrics.sites className config method.code.instrs).filter SiteKind.suspends := by
  obtain ⟨-, blocks, spans, hlow, -, -⟩ := build_eq_ok h
  rw [sites_of_lowerAll hlow, (tiles_stretches method).flatMap_instrs]

end Graph

end Suspension
