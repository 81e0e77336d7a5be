import Suspension.Proofs.Flow.Built

/-!
# Where the steps of a graph come from

Every step of a block is an operation of the instruction at its place.  The suspension sites are
numbered in the order of the stream, so each number is marked by one step.

## Main definitions
* `SymOp.site?`: the number of the suspension site that an operation marks.
* `SymOp.isSimple`: the operations that most instructions are made of.
* `Config.suspends`: whether an instruction is a site at which the flow can be resumed.

## Main results
* `Stretch.mem_split`: the bodies of the stretches hold the instructions of the stream.
* `Instr.mem_effect`: the operations of an instruction.
* `Graph.step_of_build`: the instruction of a step.
* `Graph.targets_of_build`: the labels that instructions go to.
* `Graph.eq_of_suspends`: a suspension site is marked by one step.
-/

namespace Suspension

/-- The bodies of the stretches hold the instructions of the stream.  Labels open a stretch, jumps close one,
and other instructions join the one behind them. -/
theorem Stretch.mem_split {place : Nat} {instrs : List Instr} {s : Stretch}
    (hs : s ∈ split place instrs) {q : Nat} {i : Instr} (hi : (q, i) ∈ s.body) :
    place ≤ q ∧ instrs[q - place]? = some i := by
  have later {place : Nat} {j : Instr} {rest : List Instr}
      (h : place + 1 ≤ q ∧ rest[q - (place + 1)]? = some i) :
      place ≤ q ∧ (j :: rest)[q - place]? = some i := by
    refine ⟨by omega, ?_⟩
    rw [show q - place = (q - (place + 1)) + 1 by omega, List.getElem?_cons_succ]
    exact h.2
  have here {place : Nat} {j : Instr} {rest : List Instr} (h : (q, i) = (place, j)) :
      place ≤ q ∧ (j :: rest)[q - place]? = some i := by
    cases h
    simp
  induction instrs generalizing place s with
  | nil => cases hs
  | cons j rest ih =>
    unfold split at hs
    split at hs
    · next l =>
      unfold prependLabel at hs
      split at hs
      · next start body more hsplit =>
        rcases List.mem_cons.1 hs with rfl | hs
        · exact later (ih (s := ⟨none, start, body⟩) (by rw [hsplit]; simp) hi)
        · exact later (ih (by rw [hsplit]; simp [hs]) hi)
      · rcases List.mem_cons.1 hs with rfl | hs
        · cases hi
        · exact later (ih hs hi)
    · split at hs
      · rcases List.mem_cons.1 hs with rfl | hs
        · exact here (by simpa using hi)
        · exact later (ih hs hi)
      · unfold prepend at hs
        split at hs
        · next start body more hsplit =>
          rcases List.mem_cons.1 hs with rfl | hs
          · rcases List.mem_cons.1 hi with e | hi
            · exact here e
            · exact later (ih (s := ⟨none, start, body⟩) (by rw [hsplit]; simp) hi)
          · exact later (ih (by rw [hsplit]; simp [hs]) hi)
        · rcases List.mem_cons.1 hs with rfl | hs
          · exact here (by simpa using hi)
          · exact later (ih hs hi)

theorem Stretch.mem_prepend {place : Nat} {i : Instr} {rest : List Stretch} :
    ∃ s ∈ prepend place i rest, (place, i) ∈ s.body := by
  unfold prepend
  split <;> exact ⟨_, List.mem_cons_self, List.mem_cons_self⟩

theorem Stretch.mem_prepend_of_mem {place q : Nat} {i j : Instr} {rest : List Stretch}
    (h : ∃ s ∈ rest, (q, i) ∈ s.body) : ∃ s ∈ prepend place j rest, (q, i) ∈ s.body := by
  obtain ⟨s, hs, hi⟩ := h
  unfold prepend
  split
  · rcases List.mem_cons.1 hs with rfl | hs
    · exact ⟨_, List.mem_cons_self, List.mem_cons_of_mem _ hi⟩
    · exact ⟨s, List.mem_cons_of_mem _ hs, hi⟩
  · exact ⟨s, List.mem_cons_of_mem _ hs, hi⟩

theorem Stretch.mem_prependLabel_of_mem {place q : Nat} {i : Instr} {l : Label} {rest : List Stretch}
    (h : ∃ s ∈ rest, (q, i) ∈ s.body) : ∃ s ∈ prependLabel place l rest, (q, i) ∈ s.body := by
  obtain ⟨s, hs, hi⟩ := h
  unfold prependLabel
  split
  · rcases List.mem_cons.1 hs with rfl | hs
    · exact ⟨_, List.mem_cons_self, hi⟩
    · exact ⟨s, List.mem_cons_of_mem _ hs, hi⟩
  · exact ⟨s, List.mem_cons_of_mem _ hs, hi⟩

/-- Every instruction but labels is in the body of some stretch. -/
theorem Stretch.exists_body {instrs : List Instr} {i : Instr} (hi : i ∈ instrs)
    (notLabel : i.defined? = none) (place : Nat) : ∃ q, ∃ s ∈ split place instrs, (q, i) ∈ s.body := by
  induction instrs generalizing place with
  | nil => cases hi
  | cons j rest ih =>
    unfold split
    split
    · next l =>
      have hi := (List.mem_cons.1 hi).resolve_left (by rintro rfl; cases notLabel)
      obtain ⟨q, h⟩ := ih hi (place + 1)
      exact ⟨q, mem_prependLabel_of_mem h⟩
    · split
      · rcases List.mem_cons.1 hi with rfl | hi
        · exact ⟨place, _, List.mem_cons_self, List.mem_cons_self⟩
        · obtain ⟨q, s, hs, hq⟩ := ih hi (place + 1)
          exact ⟨q, s, List.mem_cons_of_mem _ hs, hq⟩
      · rcases List.mem_cons.1 hi with rfl | hi
        · exact ⟨place, mem_prepend⟩
        · obtain ⟨q, h⟩ := ih hi (place + 1)
          exact ⟨q, mem_prepend_of_mem h⟩

/-! ## The operations of an instruction -/

/-- The number of the suspension site that an operation marks. -/
def SymOp.site? : SymOp → Option Nat
  | .suspend site => some site
  | _ => none

/-- The operations other than those of stores, of shuffles and of suspension sites. -/
def SymOp.isSimple : SymOp → Bool
  | .push _ | .pop | .get _ _ | .inc _ | .read _ | .aaload => true
  | _ => false

theorem SymOp.site?_of_isSimple {op : SymOp} (h : op.isSimple = true) : op.site? = none := by
  cases op <;> first | rfl | cases h

section

variable {className : String} {config : Config} {site : Nat} {effect : Effect} {op : SymOp}

theorem isSimple_of_operand {receiver : Bool} {s : Signature} (h : op ∈ operandOps receiver s) :
    op.isSimple = true := by
  rw [List.eq_of_mem_replicate h]
  rfl

theorem isSimple_of_result {s : Signature} (h : op ∈ resultOps s) : op.isSimple = true := by
  unfold resultOps at h
  cases hr : s.result with
  | none => simp [hr] at h
  | some t =>
    obtain rfl : op = .push t := by simpa [hr] using h
    rfl

/-- A call takes its operands, suspends if it is a site, and pushes its result. -/
theorem callEffect_eq_ok {kind : InvokeKind} {m : MemberRef}
    (h : callEffect className config site kind m = .ok effect) :
    ∃ s, Signature.parse m.descriptor = .ok s ∧ effect.ops = operandOps kind.hasReceiver s ++
      (effect.site?.map fun _ => .suspend site).toList ++ resultOps s := by
  obtain ⟨s, parsed, h⟩ := bind_eq_ok.1 h
  refine ⟨s, parsed, ?_⟩
  split at h
  · split at h <;> cases h <;> simp
  · cases h
    simp

/-- Stores record slots, shuffles shuffle, and calls may suspend; besides, operations are simple.  A call takes
its operands, may suspend, and leaves its result; of any other instruction the operations are looked at. -/
theorem Instr.mem_effect {i : Instr} (h : i.effect className config site = .ok effect)
    (hm : op ∈ effect.ops) :
    op.isSimple = true ∨ (∃ k slot, i = .store k slot ∧ op = .set slot k.tag?) ∨
      (∃ s, i = .plain (.shuffle s) ∧ op = s.symOp) ∨ ∃ kind m, i = .invoke kind m ∧ op = .suspend site := by
  have simple (all : effect.ops.all SymOp.isSimple = true) : op.isSimple = true :=
    List.all_eq_true.1 all op hm
  cases i with
  | plain p =>
    cases h
    cases p with
    | shuffle s => exact .inr (.inr (.inl ⟨s, rfl, by simpa [PlainOp.symOps] using hm⟩))
    | arrayLoad k =>
      refine .inl (simple ?_)
      cases k <;> rfl
    | leave k =>
      refine .inl (simple ?_)
      cases k <;> rfl
    | _ => exact .inl (simple rfl)
  | slot p slot =>
    cases p with
    | store k =>
      cases h
      exact .inr (.inl ⟨k, slot, rfl, by simpa using hm⟩)
    | load k | ret =>
      cases h
      exact .inl (simple rfl)
  | jump p l =>
    refine .inl (simple ?_)
    cases p <;> cases h <;> rfl
  | field p f =>
    refine .inl (simple ?_)
    cases p with
    | getStatic | getField =>
      obtain ⟨t, -, h⟩ := bind_eq_ok.1 h
      cases h
      rfl
    | putStatic | putField =>
      cases h
      rfl
  | invoke kind m =>
    obtain ⟨s, -, hops⟩ := callEffect_eq_ok h
    rw [hops] at hm
    rcases List.mem_append.1 hm with hm | hm
    · rcases List.mem_append.1 hm with hm | hm
      · exact .inl (isSimple_of_operand hm)
      · obtain ⟨_, -, rfl⟩ := by simpa using hm
        exact .inr (.inr (.inr ⟨kind, m, rfl, rfl⟩))
    · exact .inl (isSimple_of_result hm)
  | invokeDynamic name descriptor =>
    obtain ⟨s, -, h⟩ := bind_eq_ok.1 h
    cases h
    exact .inl ((List.mem_append.1 hm).elim isSimple_of_operand isSimple_of_result)
  | typed p c =>
    refine .inl (simple ?_)
    cases p <;> cases h <;> rfl
  | multiNewArray descriptor dims =>
    cases h
    refine .inl ((List.mem_append.1 hm).elim (fun hm => ?_) fun hm => ?_)
    · rw [List.eq_of_mem_replicate hm]
      rfl
    · rw [List.mem_singleton.1 hm]
      rfl
  | _ =>
    cases h
    exact .inl (simple rfl)

/-- Only calls are suspension sites. -/
theorem Instr.site?_of_effect {i : Instr} (h : i.effect className config site = .ok effect)
    (noCall : ¬ ∃ kind m, i = .invoke kind m) : effect.site? = none := by
  cases i with
  | invoke kind m => exact absurd ⟨kind, m, rfl⟩ noCall
  | slot p slot => cases p <;> cases h <;> rfl
  | field p f =>
    cases p with
    | getStatic | getField =>
      obtain ⟨t, -, h⟩ := bind_eq_ok.1 h
      cases h
      rfl
    | putStatic | putField =>
      cases h
      rfl
  | invokeDynamic name descriptor =>
    obtain ⟨s, -, h⟩ := bind_eq_ok.1 h
    cases h
    rfl
  | typed p c => cases p <;> cases h <;> rfl
  | _ =>
    cases h
    rfl

/-- Only stores record slots. -/
theorem Instr.store_of_mem_effect {i : Instr} (h : i.effect className config site = .ok effect)
    {slot : Slot} {tag : Option Tag} (hm : .set slot tag ∈ effect.ops) : ∃ k, i = .store k slot := by
  rcases i.mem_effect h hm with simple | ⟨k, slot', rfl, e⟩ | ⟨s, -, e⟩ | ⟨kind, m, -, e⟩
  · cases simple
  · cases e
    exact ⟨k, rfl⟩
  · cases s <;> cases e
  · cases e

/-- Only shuffles copy entries of the stack, and at most two of them. -/
theorem Instr.le_two_of_mem_effect {i : Instr} (h : i.effect className config site = .ok effect)
    {words under : Nat} (hm : .dup words under ∈ effect.ops) : words ≤ 2 := by
  rcases i.mem_effect h hm with simple | ⟨k, slot', -, e⟩ | ⟨s, -, e⟩ | ⟨kind, m, -, e⟩
  · cases simple
  · cases e
  · cases s <;> cases e <;> decide
  · cases e

/-- Whether an instruction is a site at which the flow can be resumed. -/
def Config.suspends (c : Config) (className : String) (i : Instr) : Bool :=
  match c.site? className i with
  | some (_, sort, _) => sort.suspends
  | none => false

/-- A pause, as static code asks for it under the usual names. -/
def Instr.pause : Instr := .invoke .static ⟨"resumable/ContinuableSupport", "pause", "()V"⟩

/-- A step back, likewise. -/
def Instr.stepBack : Instr := .invoke .static ⟨"resumable/ContinuableSupport", "stepBack", "()V"⟩

/-- It is a site in code of any class. -/
theorem Config.site?_pause {config : Config} (support : config.supportClass = "resumable/ContinuableSupport")
    (named : config.pauseMethod = some "pause") (className : String) :
    config.site? className .pause = some (.static, .pause, ⟨"resumable/ContinuableSupport", "pause", "()V"⟩) := by
  simp [site?, Instr.invocation?, Instr.pause, classify, ownsSites, support, named, pauseDescriptor]

/-- An instruction counts as a suspension site if it is a call that the flow can be resumed at.  Only calls are
sites, and the effect of a call has one if and only if its sort suspends. -/
theorem Instr.countP_of_effect {i : Instr} (h : i.effect className config site = .ok effect) :
    effect.site?.toList.length = [i].countP (config.suspends className) := by
  by_cases call : ∃ kind m, i = .invoke kind m
  · obtain ⟨kind, m, rfl⟩ := call
    have suspends : config.suspends className (.invoke kind m) =
        ((config.classify className m).map SiteKind.suspends).getD false := by
      rw [Config.suspends, Config.site?]
      simp only [Instr.invocation?]
      cases config.classify className m <;> rfl
    obtain ⟨s, -, h⟩ := bind_eq_ok.1 h
    rw [List.countP_singleton, suspends]
    cases sort : config.classify className m with
    | none =>
      rw [sort] at h
      cases h
      rfl
    | some sort' =>
      rw [sort] at h
      cases suspends' : sort'.suspends <;> simp only [suspends', Bool.false_eq_true, if_false, if_true] at h <;>
        cases h <;> simp [suspends']
  · have noSite : config.site? className i = none := by
      cases i <;> first | rfl | exact absurd ⟨_, _, rfl⟩ call
    rw [i.site?_of_effect h call, List.countP_singleton, Config.suspends, noSite]
    rfl

/-- An instruction marks the next suspension site if it is one. -/
theorem Instr.sites_of_effect {i : Instr} (h : i.effect className config site = .ok effect) :
    effect.ops.filterMap SymOp.site? = List.range' site effect.site?.toList.length := by
  by_cases call : ∃ kind m, i = .invoke kind m
  · obtain ⟨kind, m, rfl⟩ := call
    obtain ⟨s, -, hops⟩ := callEffect_eq_ok h
    have operands : (operandOps kind.hasReceiver s).filterMap SymOp.site? = [] :=
      List.filterMap_eq_nil_iff.2 fun op hm => op.site?_of_isSimple (isSimple_of_operand hm)
    have results : (resultOps s).filterMap SymOp.site? = [] :=
      List.filterMap_eq_nil_iff.2 fun op hm => op.site?_of_isSimple (isSimple_of_result hm)
    rw [hops, List.filterMap_append, List.filterMap_append, operands, results]
    cases effect.site? <;> rfl
  · have silent : effect.ops.filterMap SymOp.site? = [] := by
      refine List.filterMap_eq_nil_iff.2 fun op hm => ?_
      rcases i.mem_effect h hm with simple | ⟨k, slot, -, rfl⟩ | ⟨s, -, rfl⟩ | ⟨kind, m, hi, -⟩
      · exact op.site?_of_isSimple simple
      · rfl
      · cases s <;> rfl
      · exact absurd ⟨kind, m, hi⟩ call
    rw [silent, i.site?_of_effect h call]
    rfl

end

namespace Graph

variable {className : String} {config : Config}

theorem step_of_lower {blocks : List Stretch} {site : Nat} {body : List (Nat × Instr)} {low : Lowered}
    (h : lower className config blocks site body = .ok low) {s : Step} (hs : s ∈ low.steps) :
    ∃ i site effect, (s.place, i) ∈ body ∧ i.effect className config site = .ok effect ∧
      s.op ∈ effect.ops := by
  induction body generalizing site low with
  | nil =>
    cases h
    cases hs
  | cons e rest ih =>
    obtain ⟨place, i⟩ := e
    obtain ⟨effect, heffect, h⟩ := bind_eq_ok.1 h
    obtain ⟨jumps, -, h⟩ := bind_eq_ok.1 h
    obtain ⟨more, hmore, h⟩ := bind_eq_ok.1 h
    cases h
    rcases List.mem_append.1 hs with hs | hs
    · obtain ⟨op, hop, rfl⟩ := List.mem_map.1 hs
      exact ⟨i, site, effect, by simp, mapError_eq_ok.1 heffect, hop⟩
    · obtain ⟨i', site', effect', hi, he, ho⟩ := ih hmore hs
      exact ⟨i', site', effect', by simp [hi], he, ho⟩

theorem step_of_lowerAll {all stretches : List Stretch} {place site : Nat}
    {blocks : List Block} {sites : List SiteKind}
    (h : lowerAll className config all place site stretches = .ok (blocks, sites)) {b : Block}
    (hb : b ∈ blocks) {s : Step} (hs : s ∈ b.steps) :
    ∃ i site effect, (∃ t ∈ stretches, (s.place, i) ∈ t.body) ∧
      i.effect className config site = .ok effect ∧ s.op ∈ effect.ops := by
  induction stretches generalizing place site blocks sites with
  | nil =>
    cases h
    cases hb
  | cons t rest ih =>
    obtain ⟨low, hlow, h⟩ := bind_eq_ok.1 h
    obtain ⟨more, hmore, h⟩ := bind_eq_ok.1 h
    cases h
    rcases List.mem_cons.1 hb with rfl | hb
    · obtain ⟨i, site, effect, hi, he, ho⟩ := step_of_lower hlow hs
      exact ⟨i, site, effect, ⟨t, by simp, hi⟩, he, ho⟩
    · obtain ⟨i, site, effect, ⟨u, hu, hi⟩, he, ho⟩ := ih hmore hb
      exact ⟨i, site, effect, ⟨u, by simp [hu], hi⟩, he, ho⟩

theorem targets_of_lower {blocks : List Stretch} {site : Nat} {body : List (Nat × Instr)} {low : Lowered}
    (h : lower className config blocks site body = .ok low) {q : Nat} {i : Instr} (hi : (q, i) ∈ body)
    {l : Label} (hl : l ∈ i.targets) : l ∈ blocks.filterMap (·.label) := by
  induction body generalizing site low with
  | nil => cases hi
  | cons e rest ih =>
    obtain ⟨place, j⟩ := e
    obtain ⟨effect, -, h⟩ := bind_eq_ok.1 h
    obtain ⟨jumps, hjumps, h⟩ := bind_eq_ok.1 h
    obtain ⟨more, hmore, -⟩ := bind_eq_ok.1 h
    rcases List.mem_cons.1 hi with e | hi
    · cases e
      obtain ⟨k, hk, rfl⟩ := List.mem_iff_getElem.1 hl
      obtain ⟨hlen, hget⟩ := mapM_eq_ok.1 hjumps
      obtain ⟨target, resolved, -⟩ := bind_eq_ok.1 (hget k hk (hlen ▸ hk))
      exact mem_of_resolve resolved
    · exact ih hmore hi

theorem targets_of_lowerAll {all stretches : List Stretch} {place site : Nat}
    {lowered : List Block × List SiteKind}
    (h : lowerAll className config all place site stretches = .ok lowered) {s : Stretch}
    (hs : s ∈ stretches) {q : Nat} {i : Instr} (hi : (q, i) ∈ s.body) {l : Label}
    (hl : l ∈ i.targets) : l ∈ all.filterMap (·.label) := by
  induction stretches generalizing place site lowered with
  | nil => cases hs
  | cons t rest ih =>
    obtain ⟨low, hlow, h⟩ := bind_eq_ok.1 h
    obtain ⟨more, hmore, -⟩ := bind_eq_ok.1 h
    rcases List.mem_cons.1 hs with rfl | hs
    · exact targets_of_lower hlow hi hl
    · exact ih hmore hs

variable {method : Method} {g : Graph}

/-- The labels that instructions go to are defined. -/
theorem targets_of_build (h : build className method config = .ok g) {i : Instr}
    (hi : i ∈ method.code.instrs) {l : Label} (hl : l ∈ i.targets) :
    l ∈ definedLabels method.code.instrs := by
  obtain ⟨-, blocks, spans, hlow, -, -⟩ := build_eq_ok h
  have notLabel : i.defined? = none := by
    cases e : i.defined? with
    | none => rfl
    | some l' =>
      rw [defined?_eq_some.1 e] at hl
      cases hl
  obtain ⟨q, s, hs, hq⟩ := Stretch.exists_body hi notLabel 0
  rw [← labels_split 0]
  exact targets_of_lowerAll hlow hs hq hl

/-- Every step of a block is an operation of the instruction at its place. -/
theorem step_of_build (h : build className method config = .ok g) {b : Block} (hb : b ∈ g.blocks)
    {s : Step} (hs : s ∈ b.steps) :
    ∃ i site effect, method.code.instrs[s.place]? = some i ∧
      i.effect className config site = .ok effect ∧ s.op ∈ effect.ops := by
  obtain ⟨-, blocks, spans, hlow, -, hblocks⟩ := build_eq_ok h
  rw [hblocks] at hb
  obtain ⟨q, hq, rfl⟩ := List.mem_mapIdx.1 hb
  by_cases empty : blocks.isEmpty
  · simp [protect, empty] at hs
  · simp only [empty] at hq hs
    obtain ⟨i, site, effect, ⟨t, ht, hi⟩, he, ho⟩ :=
      step_of_lowerAll hlow (List.getElem_mem hq) (s := s) hs
    exact ⟨i, site, effect, by simpa using (Stretch.mem_split ht hi).2, he, ho⟩

/-! ## Suspension sites -/

/-- The numbers of the suspension sites that steps mark. -/
def marked (steps : List Step) : List Nat := steps.filterMap (·.op.site?)

theorem marked_append (xs ys : List Step) : marked (xs ++ ys) = marked xs ++ marked ys :=
  List.filterMap_append

theorem marked_of_lower {blocks : List Stretch} {site : Nat} {body : List (Nat × Instr)} {low : Lowered}
    (h : lower className config blocks site body = .ok low) :
    marked low.steps = List.range' site low.sites.length := by
  induction body generalizing site low with
  | nil =>
    cases h
    rfl
  | cons e rest ih =>
    obtain ⟨place, i⟩ := e
    obtain ⟨effect, heffect, h⟩ := bind_eq_ok.1 h
    obtain ⟨jumps, -, h⟩ := bind_eq_ok.1 h
    obtain ⟨more, hmore, h⟩ := bind_eq_ok.1 h
    cases h
    have first : marked (effect.ops.map (⟨place, ·⟩)) = List.range' site effect.site?.toList.length := by
      rw [← Instr.sites_of_effect (mapError_eq_ok.1 heffect), marked, List.filterMap_map]
      rfl
    rw [marked_append, first, ih hmore, List.length_append, List.range'_append_1]

theorem marked_of_lowerAll {all stretches : List Stretch} {place site : Nat} {blocks : List Block}
    {sites : List SiteKind}
    (h : lowerAll className config all place site stretches = .ok (blocks, sites)) :
    blocks.flatMap (fun b => marked b.steps) = List.range' site sites.length := by
  induction stretches generalizing place site blocks sites with
  | nil =>
    cases h
    rfl
  | cons t rest ih =>
    obtain ⟨low, hlow, h⟩ := bind_eq_ok.1 h
    obtain ⟨more, hmore, h⟩ := bind_eq_ok.1 h
    cases h
    rw [List.flatMap_cons, marked_of_lower hlow, ih hmore, List.length_append, List.range'_append_1]

/-- Sites are numbered in the order of the stream. -/
theorem marked_of_build (h : build className method config = .ok g) :
    g.blocks.flatMap (fun b => marked b.steps) = List.range g.sites.length := by
  obtain ⟨-, blocks, spans, hlow, -, hblocks⟩ := build_eq_ok h
  have kept (blocks : List Block) : (blocks.mapIdx (protect spans)).flatMap (fun b => marked b.steps) =
      blocks.flatMap fun b => marked b.steps := by
    rw [List.flatMap_def, List.flatMap_def]
    congr 1
    apply List.ext_getElem?
    intro i
    simp only [List.getElem?_map, List.getElem?_mapIdx, Option.map_map]
    rfl
  rw [hblocks, kept, List.range_eq_range', ← marked_of_lowerAll hlow]
  cases blocks <;> rfl

/-- A suspension site is marked by one step.  The numbers marked are those from 0 on, each once: no two blocks
mark one number, and in one block a second mark of a number would follow the first. -/
theorem eq_of_suspends (h : build className method config = .ok g) {p q k : Nat} {b c : Block}
    {x y : Step} {before before' rest rest' : List Step} (hb : g.block? p = some b)
    (hc : g.block? q = some c) (hsteps : b.steps = before ++ x :: rest)
    (hsteps' : c.steps = before' ++ y :: rest') (hx : x.op.site? = some k) (hy : y.op.site? = some k) :
    p = q ∧ before = before' := by
  have nodup : (g.blocks.flatMap fun b => marked b.steps).Pairwise (· ≠ ·) :=
    marked_of_build h ▸ List.nodup_range
  rw [List.pairwise_flatMap] at nodup
  have mem {b : Block} {before rest : List Step} {x : Step} (hsteps : b.steps = before ++ x :: rest)
      (hx : x.op.site? = some k) : k ∈ marked b.steps :=
    List.mem_filterMap.2 ⟨x, by simp [hsteps], hx⟩
  obtain ⟨hp, rfl⟩ := List.getElem?_eq_some_iff.1 hb
  obtain ⟨hq, rfl⟩ := List.getElem?_eq_some_iff.1 hc
  have apart := List.pairwise_iff_getElem.1 nodup.2
  have same : p = q := by
    rcases Nat.lt_trichotomy p q with lt | eq | lt
    · exact absurd rfl (apart p q hp hq lt k (mem hsteps hx) k (mem hsteps' hy))
    · exact eq
    · exact absurd rfl (apart q p hq hp lt k (mem hsteps' hy) k (mem hsteps hx))
  subst same
  have once : (marked g.blocks[p].steps).Pairwise (· ≠ ·) := nodup.1 _ (List.getElem_mem hp)
  have twice {front between back : List Step} {x y : Step} (hx : x.op.site? = some k)
      (hy : y.op.site? = some k) (split : g.blocks[p].steps = front ++ x :: (between ++ y :: back)) :
      False := by
    have cons {s : Step} {steps : List Step} (hs : s.op.site? = some k) :
        marked (s :: steps) = k :: marked steps := List.filterMap_cons_some hs
    rw [split, marked_append, cons hx, marked_append, cons hy] at once
    exact (List.pairwise_cons.1 (List.pairwise_append.1 once).2.1).1 k (by simp) rfl
  refine ⟨rfl, ?_⟩
  rcases List.append_eq_append_iff.1 (hsteps.symm.trans hsteps') with ⟨as, rfl, h⟩ | ⟨as, rfl, h⟩
  · cases as with
    | nil => simp
    | cons z as =>
      cases h
      exact (twice hx hy hsteps).elim
  · cases as with
    | nil => simp
    | cons z as =>
      cases h
      exact (twice hy hx hsteps').elim

end Graph

end Suspension
