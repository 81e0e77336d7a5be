import Suspension.Proofs.Flow.Built

/-!
# Where edges lead

Every edge of a graph leads to one of its blocks.

## Main definitions
* `Graph.Closed`: all edges lead to blocks, and there is an entry.

## Main results
* `Graph.closed_of_build`: the graph of a method is closed.
-/

namespace Suspension.Graph

variable {className : String} {config : Config}

/-- All edges of a graph lead to its blocks, and there is a block to enter. -/
structure Closed (g : Graph) : Prop where
  entry : 0 < g.blocks.length
  edges : ∀ b ∈ g.blocks, ∀ e ∈ b.edges, e.target < g.blocks.length

theorem resolve_lt {blocks : List Stretch} {l : Label} {q : Nat} (h : resolve blocks l = .ok q) :
    q < blocks.length := by
  unfold resolve place? at h
  split at h
  · next place hq =>
    cases h
    exact (List.findIdx?_eq_some_iff_getElem.1 hq).1
  · cases h

theorem target_lt_of_jumpEdges {blocks : List Stretch} {i : Instr} {jumps : List Edge}
    (h : jumpEdges blocks i = .ok jumps) {e : Edge} (he : e ∈ jumps) : e.target < blocks.length := by
  obtain ⟨k, hk, rfl⟩ := List.mem_iff_getElem.1 he
  obtain ⟨length, each⟩ := mapM_eq_ok.1 h
  obtain ⟨q, resolved, made⟩ := bind_eq_ok.1 (each k (length ▸ hk) hk)
  injection made with made
  rw [← made]
  exact resolve_lt resolved

theorem target_lt_of_lower {blocks : List Stretch} {site : Nat} {body : List (Nat × Instr)} {low : Lowered}
    (h : lower className config blocks site body = .ok low) {e : Edge} (he : e ∈ low.jumps) :
    e.target < blocks.length := by
  induction body generalizing site low with
  | nil =>
    cases h
    cases he
  | cons entry rest ih =>
    obtain ⟨effect, -, h⟩ := bind_eq_ok.1 h
    obtain ⟨jumps, hjumps, h⟩ := bind_eq_ok.1 h
    obtain ⟨more, hmore, h⟩ := bind_eq_ok.1 h
    cases h
    rcases List.mem_append.1 he with he | he
    · exact target_lt_of_jumpEdges hjumps he
    · exact ih hmore he

/-- The blocks of some stretches jump to stretches of the method, and run on into the next of their own.  The
place of the next block is known to be one only when more stretches follow. -/
theorem targets_of_lowerAll_lt {all stretches : List Stretch} {place site : Nat} {blocks : List Block}
    {sites : List SiteKind} (h : lowerAll className config all place site stretches = .ok (blocks, sites)) :
    blocks.length = stretches.length ∧
      ∀ b ∈ blocks, (∀ e ∈ b.jumps, e.target < all.length) ∧
        ∀ q, b.next = some q → q < place + stretches.length := by
  induction stretches generalizing place site blocks sites with
  | nil =>
    cases h
    simp
  | cons s rest ih =>
    obtain ⟨low, hlow, h⟩ := bind_eq_ok.1 h
    obtain ⟨more, hmore, h⟩ := bind_eq_ok.1 h
    cases h
    obtain ⟨length, later⟩ := ih hmore
    refine ⟨by simp [length], fun b hb => ?_⟩
    rcases List.mem_cons.1 hb with rfl | hb
    · refine ⟨fun e he => target_lt_of_lower hlow he, fun q hq => ?_⟩
      dsimp only at hq
      split at hq
      · next runs =>
        cases hq
        have more : rest ≠ [] := by
          rintro rfl
          simp at runs
        have : 0 < rest.length := List.length_pos_iff.2 more
        simp only [List.length_cons]
        omega
      · cases hq
    · refine ⟨(later b hb).1, fun q hq => ?_⟩
      have := (later b hb).2 q hq
      simp only [List.length_cons]
      omega

/-- The graph of a method is closed.  Without stretches there is one block, which has no edges of its own. -/
theorem closed_of_build {method : Method} {g : Graph} (h : build className method config = .ok g) :
    g.Closed := by
  obtain ⟨-, blocks, spans, hlow, hspans, hblocks⟩ := build_eq_ok h
  obtain ⟨length, targets⟩ := targets_of_lowerAll_lt hlow
  have handlers {s : Span} (hs : s ∈ spans) : s.handler < (stretches method).length := by
    obtain ⟨i, hi, rfl⟩ := List.mem_iff_getElem.1 hs
    obtain ⟨length, each⟩ := mapM_eq_ok.1 hspans
    obtain ⟨start, -, h⟩ := bind_eq_ok.1 (each i (length ▸ hi) hi)
    obtain ⟨stop, -, h⟩ := bind_eq_ok.1 h
    obtain ⟨handler, resolved, h⟩ := bind_eq_ok.1 h
    injection h with h
    rw [← h]
    exact resolve_lt resolved
  generalize hbase : (if blocks.isEmpty = true then [⟨none, 0, false, [], [], none⟩] else blocks) = base
    at hblocks
  have own : blocks.length ≤ base.length ∧ 0 < base.length ∧
      ∀ b ∈ base, (∀ e ∈ b.jumps, e.target < (stretches method).length) ∧
        ∀ q, b.next = some q → q < (stretches method).length := by
    cases blocks with
    | nil =>
      rw [List.isEmpty_nil, if_pos rfl] at hbase
      subst hbase
      simp
    | cons b rest =>
      rw [List.isEmpty_cons, if_neg Bool.false_ne_true] at hbase
      subst hbase
      simpa using targets
  obtain ⟨enough, nonempty, leads⟩ := own
  have size : g.blocks.length = base.length := by rw [hblocks, List.length_mapIdx]
  refine ⟨size ▸ nonempty, fun b hb e he => ?_⟩
  refine Nat.lt_of_lt_of_le (m := (stretches method).length) ?_ (size ▸ length ▸ enough)
  rw [hblocks] at hb
  obtain ⟨i, hi, rfl⟩ := List.mem_mapIdx.1 hb
  have mem := leads base[i] (List.getElem_mem hi)
  simp only [Block.edges, protect, List.mem_append, List.mem_map, List.mem_filter, Option.mem_toList,
    Option.map_eq_some_iff] at he
  rcases he with (jump | ⟨s, ⟨hs, -⟩, rfl⟩) | ⟨q, hq, rfl⟩
  · exact mem.1 e jump
  · exact handlers hs
  · exact mem.2 q hq

end Suspension.Graph
