import Suspension.Proofs.Success
import Suspension.Flow.Graph
import Suspension.Machine.Frame

/-!
# Methods that have a graph

The graph of a method exists only if every label that the method refers to is defined, and defined once.

## Main definitions
* `definedLabels`: the labels that a stream defines.

## Main results
* `lastDefinition_eq_some`: a label that is defined once stands for the place of its definition.
* `Graph.build_eq_ok`: the parts of a graph.
* `Graph.nodup_of_build`, `Graph.mem_of_build`: the labels of a method that has a graph.
-/

namespace Suspension

/-- The labels that a stream defines, in order. -/
def definedLabels (instrs : List Instr) : List Label := instrs.filterMap Instr.defined?

@[simp] theorem definedLabels_nil : definedLabels [] = [] := rfl

@[simp] theorem definedLabels_append (a b : List Instr) :
    definedLabels (a ++ b) = definedLabels a ++ definedLabels b :=
  List.filterMap_append ..

@[simp] theorem definedLabels_label (l : Label) (rest : List Instr) :
    definedLabels (.label l :: rest) = l :: definedLabels rest := rfl

@[simp] theorem defined?_plain (op : PlainOp) : (Instr.plain op).defined? = none := rfl

@[simp] theorem defined?_slot (op : SlotOp) (s : Slot) : (Instr.slot op s).defined? = none := rfl

@[simp] theorem defined?_jump (op : JumpOp) (l : Label) : (Instr.jump op l).defined? = none := rfl

@[simp] theorem defined?_invoke (kind : InvokeKind) (m : MemberRef) :
    (Instr.invoke kind m).defined? = none := rfl

@[simp] theorem defined?_typed (op : ClassOp) (name : String) :
    (Instr.typed op name).defined? = none := rfl

theorem defined?_eq_some {i : Instr} {l : Label} : i.defined? = some l ↔ i = .label l := by
  cases i <;> simp [Instr.defined?]

theorem Instr.isReturn_iff {i : Instr} : i.isReturn = true ↔ ∃ k, i = .plain (.leave k) := by
  unfold isReturn
  split <;> simp_all

theorem mem_definedLabels {l : Label} {instrs : List Instr} :
    l ∈ definedLabels instrs ↔ .label l ∈ instrs := by
  simp [definedLabels, defined?_eq_some]

/-! ## The place of a label -/

/-- A label stands for a place of its definition. -/
theorem getElem?_of_lastDefinition {l : Label} {instrs : List Instr} {place pc : Nat}
    (h : lastDefinition l place instrs = some pc) : ∃ q, pc = place + q ∧ instrs[q]? = some (.label l) := by
  induction instrs generalizing place with
  | nil => cases h
  | cons i rest ih =>
    rw [lastDefinition] at h
    split at h
    · next later =>
      cases h
      obtain ⟨q, rfl, hq⟩ := ih later
      exact ⟨q + 1, by omega, hq⟩
    · split at h
      · next defined =>
        cases h
        exact ⟨0, rfl, by rw [defined?_eq_some.1 defined]; rfl⟩
      · cases h

theorem lastDefinition_eq_none {l : Label} {instrs : List Instr} (h : l ∉ definedLabels instrs)
    (place : Nat) : lastDefinition l place instrs = none := by
  induction instrs generalizing place with
  | nil => rfl
  | cons i rest ih =>
    simp only [mem_definedLabels, List.mem_cons, not_or] at h ih
    rw [lastDefinition, ih h.2]
    exact if_neg fun e => h.1 (defined?_eq_some.1 e).symm

/-- A label that is defined once stands for the place of its definition. -/
theorem lastDefinition_eq_some {l : Label} {instrs : List Instr}
    (nodup : (definedLabels instrs).Nodup) {q : Nat} (hq : instrs[q]? = some (.label l))
    (place : Nat) : lastDefinition l place instrs = some (place + q) := by
  induction instrs generalizing place q with
  | nil => simp at hq
  | cons i rest ih =>
    have tail : (definedLabels rest).Nodup :=
      nodup.sublist ((List.sublist_cons_self i rest).filterMap _)
    cases q with
    | zero =>
      obtain rfl : i = .label l := by simpa using hq
      have : l ∉ definedLabels rest := (List.nodup_cons.1 nodup).1
      rw [lastDefinition, lastDefinition_eq_none this]
      simp [Instr.defined?]
    | succ q =>
      rw [lastDefinition, ih tail (by simpa using hq)]
      simp [Nat.add_comm, Nat.add_left_comm]

/-! ## The labels of a method that has a graph -/

/-- A label opens a stretch of its own; any other instruction changes no label. -/
theorem labels_split (place : Nat) (instrs : List Instr) :
    (Stretch.split place instrs).filterMap (·.label) = definedLabels instrs := by
  induction instrs generalizing place with
  | nil => rfl
  | cons i rest ih =>
    have plain : ∀ s : List Stretch,
        (Stretch.prepend place i s).filterMap (·.label) = s.filterMap (·.label) := by
      intro s
      unfold Stretch.prepend
      split <;> simp
    by_cases hi : ∃ l, i = .label l
    · obtain ⟨l, rfl⟩ := hi
      simp only [Stretch.split, definedLabels_label, ← ih (place + 1)]
      unfold Stretch.prependLabel
      split <;> simp_all
    · have none : i.defined? = none := by
        cases h : i.defined? with
        | none => rfl
        | some l => exact absurd ⟨l, defined?_eq_some.1 h⟩ hi
      have : definedLabels (i :: rest) = definedLabels rest := by
        simp [definedLabels, none]
      rw [this, Stretch.split]
      · split
        · simp [ih]
        · rw [plain, ih]
      · exact fun l e => hi ⟨l, e⟩

namespace Graph

theorem nodup_of_firstRepeat? {seen labels : List Label} (h : firstRepeat? seen labels = none) :
    labels.Nodup ∧ ∀ l ∈ labels, l ∉ seen := by
  induction labels generalizing seen with
  | nil => simp
  | cons l rest ih =>
    rw [firstRepeat?] at h
    split at h
    · cases h
    · next hl =>
      obtain ⟨nodup, fresh⟩ := ih h
      refine ⟨List.nodup_cons.2 ⟨fun hm => fresh l hm (by simp), nodup⟩, ?_⟩
      intro x hx hs
      rcases List.mem_cons.1 hx with rfl | hx
      · exact hl hs
      · exact fresh x hx (by simp [hs])

theorem mem_of_resolve {blocks : List Stretch} {l : Label} {q : Nat}
    (h : resolve blocks l = .ok q) : l ∈ blocks.filterMap (·.label) := by
  unfold resolve place? at h
  split at h
  · next place hq =>
    obtain ⟨hlt, hq, -⟩ := List.findIdx?_eq_some_iff_getElem.1 hq
    exact List.mem_filterMap.2 ⟨blocks[place], List.getElem_mem hlt, by simpa using hq⟩
  · cases h

variable {className : String} {method : Method} {config : Config} {g : Graph}

/-- The blocks of a method before they are connected. -/
def stretches (method : Method) : List Stretch := Stretch.split 0 method.code.instrs

/-- The parts of a graph. -/
theorem build_eq_ok (h : build className method config = .ok g) :
    firstRepeat? [] ((stretches method).filterMap (·.label)) = none ∧
      ∃ blocks spans,
        lowerAll className config (stretches method) 0 0 (stretches method) =
            .ok (blocks, g.sites) ∧
          method.code.regions.mapM (span (stretches method)) = .ok spans ∧
          g.blocks = (if blocks.isEmpty then [⟨none, 0, false, [], [], none⟩] else blocks).mapIdx
            (protect spans) := by
  unfold build at h
  simp only [← stretches.eq_def] at h
  split at h
  · cases h
  · next none =>
    obtain ⟨⟨blocks, sites⟩, hb, h⟩ := bind_eq_ok.1 h
    obtain ⟨spans, hs, h⟩ := bind_eq_ok.1 h
    cases h
    exact ⟨by simpa [Option.eq_none_iff_forall_ne_some] using none, blocks, spans, hb, hs, rfl⟩

/-- No label is defined twice. -/
theorem nodup_of_build (h : build className method config = .ok g) :
    (definedLabels method.code.instrs).Nodup := by
  have := (nodup_of_firstRepeat? (build_eq_ok h).1).1
  rwa [stretches, labels_split] at this

/-- The labels of the regions are defined. -/
theorem mem_of_build (h : build className method config = .ok g) {r : Region}
    (hr : r ∈ method.code.regions) :
    r.start ∈ definedLabels method.code.instrs ∧ r.stop ∈ definedLabels method.code.instrs ∧
      r.handler ∈ definedLabels method.code.instrs := by
  obtain ⟨-, -, spans, -, hs, -⟩ := build_eq_ok h
  obtain ⟨i, hi, rfl⟩ := List.mem_iff_getElem.1 hr
  have hspan := (mapM_eq_ok.1 hs).2 i hi ((mapM_eq_ok.1 hs).1 ▸ hi)
  obtain ⟨a, ha, hspan⟩ := bind_eq_ok.1 hspan
  obtain ⟨b, hb, hspan⟩ := bind_eq_ok.1 hspan
  obtain ⟨c, hc, -⟩ := bind_eq_ok.1 hspan
  simp only [← labels_split 0]
  exact ⟨mem_of_resolve ha, mem_of_resolve hb, mem_of_resolve hc⟩

end Graph

end Suspension
