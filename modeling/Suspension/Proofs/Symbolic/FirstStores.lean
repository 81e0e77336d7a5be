import Suspension.Proofs.Symbolic.Reaching

/-!
# The block behind a label

A block that starts with a label is known by it: it handles exceptions if a region names its label as the
handler, and its operations are those of the instructions behind the label.  Its first store is found in the
stream: no label, no store and no end of a block stands between it and the label.

## Main definitions
* `Method.Handles`: the labels of handlers.
* `Method.FirstStore`: the first store of the block that starts at a place.
* `Graph.Reachable`: the blocks that can be reached from the entry.

## Main results
* `Graph.exists_stretch_of_label`, `Graph.find_eq_ok_iff`: the block of a label.
* `Graph.firstStore_iff`: the first store of a block, as the stretch of the block has it.
-/

namespace Suspension

namespace Method

/-- Some region names the label as its handler. -/
def Handles (m : Method) (l : Label) : Prop := ∃ r ∈ m.code.regions, r.handler = l

/-- The instructions from one place up to another. -/
def between (m : Method) (start stop : Nat) : List Instr := (m.code.instrs.drop start).take (stop - start)

/-- The first store of the block that starts with a label at `start`. -/
structure FirstStore (m : Method) (start place : Nat) (k : Storage) (slot : Slot) : Prop where
  behind : start < place
  here : m.code.instrs[place]? = some (.store k slot)
  inside : ∀ q i, start < q → q < place → m.code.instrs[q]? = some i →
    i.defined? = none ∧ i.endsBlock = false ∧ i.storedSlot? = none

theorem FirstStore.le {m : Method} {start place place' : Nat} {k k' : Storage} {slot slot' : Slot}
    (h : m.FirstStore start place k slot) (h' : m.FirstStore start place' k' slot') : place ≤ place' := by
  refine Nat.le_of_not_lt fun before => ?_
  have none := (h.inside place' _ h'.behind before h'.here).2.2
  cases none

/-- A block has one first store. -/
theorem FirstStore.unique {m : Method} {start place place' : Nat} {k k' : Storage} {slot slot' : Slot}
    (h : m.FirstStore start place k slot) (h' : m.FirstStore start place' k' slot') :
    place = place' ∧ k = k' ∧ slot = slot' := by
  obtain rfl : place = place' := Nat.le_antisymm (h.le h') (h'.le h)
  cases h.here.symm.trans h'.here
  exact ⟨rfl, rfl, rfl⟩

end Method

theorem Instr.eq_store {i : Instr} {slot : Slot} {k : Storage} (h : i.storedSlot? = some (slot, k)) :
    i = .store k slot := by
  unfold storedSlot? at h
  split at h <;> cases h
  rfl

/-- An instruction that stores nothing records no slot. -/
theorem Instr.ne_set_of_mem_effect {className : String} {config : Config} {site : Nat} {i : Instr} {effect : Effect}
    (h : i.effect className config site = .ok effect) (noStore : i.storedSlot? = none) {op : SymOp}
    (mem : op ∈ effect.ops) (slot : Slot) (tag : Option Tag) : op ≠ .set slot tag := by
  rintro rfl
  obtain ⟨k, rfl⟩ := i.store_of_mem_effect h mem
  cases noStore

/-- The label of a stretch is its first instruction. -/
theorem Stretch.getElem?_zero {s : Stretch} {l : Label} (label : s.label = some l) :
    s.instrs[0]? = some (.label l) := by
  rw [instrs, label]
  rfl

namespace Graph

/-- The blocks that can be reached from the entry, by edges of any kind. -/
inductive Reachable (g : Graph) : Nat → Prop
  | entry : Reachable g 0
  | along {n : Nat} {b : Block} {e : Edge} (before : Reachable g n) (here : g.block? n = some b)
      (out : e ∈ b.edges) : Reachable g e.target

variable {className : String} {method : Method} {config : Config} {g : Graph} {n : Nat} {s : Stretch} {l : Label}

/-! ## The block of a label -/

/-- A stretch that starts with a label starts where the label is defined. -/
theorem getElem?_start (hs : (stretches method)[n]? = some s) (label : s.label = some l) :
    method.code.instrs[s.start]? = some (.label l) :=
  getElem?_of_stretch hs (Stretch.getElem?_zero label)

/-- A label is defined at one place. -/
theorem eq_of_defined (h : build className method config = .ok g) {start start' : Nat}
    (defined : method.code.instrs[start]? = some (.label l))
    (defined' : method.code.instrs[start']? = some (.label l)) : start = start' := by
  have once {q : Nat} (hq : method.code.instrs[q]? = some (.label l)) :
      lastDefinition l 0 method.code.instrs = some (0 + q) := lastDefinition_eq_some (nodup_of_build h) hq 0
  simpa using (once defined).symm.trans (once defined')

/-- A label is defined at the start of its stretch. -/
theorem eq_start (h : build className method config = .ok g) (hs : (stretches method)[n]? = some s)
    (label : s.label = some l) {start : Nat} (defined : method.code.instrs[start]? = some (.label l)) :
    start = s.start := eq_of_defined h defined (getElem?_start hs label)

/-- A label starts one stretch. -/
theorem eq_of_label (h : build className method config = .ok g) (hs : (stretches method)[n]? = some s)
    (label : s.label = some l) {m : Nat} {t : Stretch} (ht : (stretches method)[m]? = some t)
    (label' : t.label = some l) : n = m ∧ s = t := by
  have starts : t.start = s.start := eq_start h hs label (getElem?_start ht label')
  have first {u : Stretch} {k : Nat} (hu : (stretches method)[k]? = some u) : 0 < u.instrs.length :=
    List.length_pos_iff.2 ((tiles_stretches method).sound hu).nonempty
  obtain ⟨same, same', -⟩ := (tiles_stretches method).unique hs ht (first hs) (first ht) (by omega)
  exact ⟨same, same'⟩

/-- A label resolves to the stretch that it starts. -/
theorem resolve_of_label (h : build className method config = .ok g) (hs : (stretches method)[n]? = some s)
    (label : s.label = some l) : resolve (stretches method) l = .ok n := by
  obtain ⟨q, resolved⟩ := exists_resolve (List.mem_filterMap.2 ⟨s, List.mem_of_getElem? hs, label⟩)
  obtain ⟨t, ht, label'⟩ := resolve_eq_ok resolved
  rw [resolved, (eq_of_label h hs label ht label').1]

/-- A block handles exceptions if its label is that of a handler.  The handlers of the spans are those of the
regions, one by one. -/
theorem any_handler_iff (h : build className method config = .ok g) {spans : List Span}
    (hspans : method.code.regions.mapM (span (stretches method)) = .ok spans)
    (hs : (stretches method)[n]? = some s) (label : s.label = some l) :
    spans.any (·.handler = n) = true ↔ method.Handles l := by
  obtain ⟨length, each⟩ := mapM_eq_ok.1 hspans
  have handler {q : Nat} (hq : q < method.code.regions.length) (hq' : q < spans.length) :
      resolve (stretches method) method.code.regions[q].handler = .ok spans[q].handler := by
    obtain ⟨start, -, made⟩ := bind_eq_ok.1 (each q hq hq')
    obtain ⟨stop, -, made⟩ := bind_eq_ok.1 made
    obtain ⟨place, resolved, made⟩ := bind_eq_ok.1 made
    injection made with made
    rw [← made, resolved]
  simp only [List.any_eq_true, decide_eq_true_eq]
  constructor
  · rintro ⟨p, mem, rfl⟩
    obtain ⟨q, hq, rfl⟩ := List.mem_iff_getElem.1 mem
    obtain ⟨t, ht, label'⟩ := resolve_eq_ok (handler (length ▸ hq) hq)
    rw [hs] at ht
    cases ht
    exact ⟨_, List.getElem_mem (length ▸ hq), Option.some.inj (label'.symm.trans label)⟩
  · rintro ⟨r, mem, rfl⟩
    obtain ⟨q, hq, rfl⟩ := List.mem_iff_getElem.1 mem
    have hq' : q < spans.length := length ▸ hq
    refine ⟨spans[q], List.getElem_mem hq', ?_⟩
    exact Except.ok.inj ((handler hq hq').symm.trans (resolve_of_label h hs label))

/-- A block that starts with a label is the stretch of this label. -/
theorem exists_stretch_of_label (h : build className method config = .ok g) {b : Block} (hb : g.block? n = some b)
    (label : b.label = some l) :
    ∃ s site, (stretches method)[n]? = some s ∧ s.label = some l ∧ (b.handler = true ↔ method.Handles l) ∧
      Lowers className config s.start site s.instrs b.steps := by
  have lt : n < g.blocks.length := (List.getElem?_eq_some_iff.1 hb).1
  by_cases empty : stretches method = []
  · obtain ⟨-, blocks, spans, hlow, -, hblocks⟩ := build_eq_ok h
    rw [empty] at hlow
    obtain ⟨rfl, -⟩ := Prod.mk.inj (Except.ok.inj hlow)
    rw [block?, hblocks] at hb
    cases n with
    | zero =>
      cases hb
      cases label
    | succ n => simp at hb
  · have count := length_of_build h
    have some := List.length_pos_iff.2 empty
    have hs := List.getElem?_eq_getElem (show n < (stretches method).length by omega)
    obtain ⟨b', hb', -, lowers⟩ := lowers_of_build h hs
    obtain ⟨spans, hspans, lowered⟩ := lowered_of_build h
    obtain ⟨low, -, block⟩ := lowered n _ hs
    cases hb.symm.trans hb'
    cases hb.symm.trans block
    exact ⟨_, _, hs, label, any_handler_iff h hspans hs label, lowers⟩

/-- A label starts one block, and is found there. -/
theorem find_eq_ok_iff (h : build className method config = .ok g) {q : Nat} :
    g.find l = .ok q ↔ ∃ b, g.block? q = some b ∧ b.label = some l := by
  have found {q : Nat} (h : g.find l = .ok q) : ∃ b, g.block? q = some b ∧ b.label = some l := by
    unfold find at h
    split at h
    · next place hq =>
      cases h
      obtain ⟨lt, here, -⟩ := List.findIdx?_eq_some_iff_getElem.1 hq
      exact ⟨_, List.getElem?_eq_getElem lt, by simpa using here⟩
    · cases h
  refine ⟨found, fun ⟨b, hb, label⟩ => ?_⟩
  have there : ∃ q', g.find l = .ok q' := by
    unfold find
    split
    · exact ⟨_, rfl⟩
    · next none =>
      have := List.findIdx?_eq_none_iff.1 none b (List.mem_of_getElem? hb)
      simp [label] at this
  obtain ⟨q', hq'⟩ := there
  obtain ⟨b', hb', label'⟩ := found hq'
  obtain ⟨s, -, hs, starts, -⟩ := exists_stretch_of_label h hb label
  obtain ⟨t, -, ht, starts', -⟩ := exists_stretch_of_label h hb' label'
  rw [hq', (eq_of_label h hs starts ht starts').1]

/-! ## The first store of a block -/

/-- The instructions from the start of a stretch up to one of them. -/
theorem between_eq (hs : (stretches method)[n]? = some s) {j : Nat} (inside : j ≤ s.instrs.length) :
    method.between s.start (s.start + j) = s.instrs.take j := by
  have le : s.start ≤ method.code.instrs.length := by
    obtain ⟨start, rest, split, -⟩ := (tiles_stretches method).drop hs
    rw [split, List.length_append]
    omega
  rw [Method.between, List.take_drop, Nat.add_sub_cancel_left, take_of_stretch hs inside]
  exact List.drop_left' (List.length_take_of_le le)

/-- The first store behind the label of a stretch stands in the stretch.  A store past the end of the stretch
would lie behind what ends the stretch: a label, or the end of a block. -/
theorem lt_of_firstStore (hs : (stretches method)[n]? = some s) (label : s.label = some l) {place : Nat} {k : Storage}
    {slot : Slot} (first : method.FirstStore s.start place k slot) : place < s.start + s.instrs.length := by
  refine Nat.lt_of_not_le fun past => ?_
  have tiles := tiles_stretches method
  have front := Stretch.getElem?_zero label
  have positive := (List.getElem?_eq_some_iff.1 front).1
  cases ht : (stretches method)[n + 1]? with
  | none =>
    have last := tiles.last hs ht
    have inside := (List.getElem?_eq_some_iff.1 first.here).1
    omega
  | some t =>
    obtain ⟨start, ends⟩ := tiles.succ hs ht
    cases label' : t.label with
    | some l' =>
      have defined := getElem?_start ht label'
      rcases Nat.lt_or_eq_of_le past with before | here
      · have none := (first.inside t.start _ (by omega) (by omega) defined).1
        cases none
      · rw [start, here] at defined
        cases defined.symm.trans first.here
    | none =>
      obtain ⟨e, last, stops⟩ := ends label'
      have mem : e.2 ∈ s.instrs := List.mem_append_right _ (List.mem_map.2 ⟨e, List.mem_of_getLast? last, rfl⟩)
      obtain ⟨j, hj⟩ := List.mem_iff_getElem?.1 mem
      have final := (tiles.sound hs).last_of_endsBlock hj stops
      have behind : j ≠ 0 := by
        rintro rfl
        rw [← Option.some.inj (front.symm.trans hj)] at stops
        cases stops
      have runs := (first.inside (s.start + j) _ (by omega) (by omega) (getElem?_of_stretch hs hj)).2.1
      cases stops.symm.trans runs

/-- The first store behind the label of a stretch is the first one of the stretch.  A stretch has no label
inside and ends no block before its last instruction. -/
theorem firstStore_iff (hs : (stretches method)[n]? = some s) (label : s.label = some l) {place : Nat} {k : Storage}
    {slot : Slot} : method.FirstStore s.start place k slot ↔ ∃ front rest,
      s.instrs = front ++ .store k slot :: rest ∧ place = s.start + front.length ∧
        ∀ i ∈ front, i.storedSlot? = none := by
  have front := Stretch.getElem?_zero label
  constructor
  · intro first
    obtain ⟨j, rfl⟩ := Nat.exists_eq_add_of_le (Nat.le_of_lt first.behind)
    have inside : j < s.instrs.length := by
      have := lt_of_firstStore hs label first
      omega
    have here := getElem?_of_stretch hs (List.getElem?_eq_getElem inside)
    have store : s.instrs[j] = .store k slot := Option.some.inj (here.symm.trans first.here)
    refine ⟨s.instrs.take j, s.instrs.drop (j + 1), ?_, ?_, fun i mem => ?_⟩
    · rw [← store, ← List.drop_eq_getElem_cons inside, List.take_append_drop]
    · rw [List.length_take_of_le (Nat.le_of_lt inside)]
    · obtain ⟨q, hq⟩ := List.mem_iff_getElem?.1 mem
      rw [List.getElem?_take] at hq
      split at hq
      · next before =>
        cases q with
        | zero =>
          cases front.symm.trans hq
          rfl
        | succ q => exact (first.inside _ i (by omega) (by omega) (getElem?_of_stretch hs hq)).2.2
      · cases hq
  · rintro ⟨before, rest, split, rfl, noStore⟩
    have here : s.instrs[before.length]? = some (.store k slot) := by simp [split]
    have behind : before.length ≠ 0 := by
      intro none
      rw [none] at here
      cases front.symm.trans here
    refine ⟨by omega, getElem?_of_stretch hs here, fun q i lt lt' hq => ?_⟩
    obtain ⟨j, rfl⟩ := Nat.exists_eq_add_of_le (Nat.le_of_lt lt)
    have lt : j < before.length := by omega
    have inside : before.length < s.instrs.length := (List.getElem?_eq_some_iff.1 here).1
    have hj : s.instrs[j]? = some i := by
      have there := List.getElem?_eq_getElem (show j < s.instrs.length by omega)
      rw [there, ← Option.some.inj ((getElem?_of_stretch hs there).symm.trans hq)]
    have sound := (tiles_stretches method).sound hs
    refine ⟨?_, ?_, noStore i ?_⟩
    · rcases sound.entry hj with ⟨rfl, -⟩ | entry
      · omega
      · exact sound.noLabel _ entry
    · refine Bool.eq_false_iff.2 fun stops => ?_
      have := sound.last_of_endsBlock hj stops
      omega
    · rw [split, List.getElem?_append_left lt] at hj
      exact List.mem_of_getElem? hj

end Graph

end Suspension
