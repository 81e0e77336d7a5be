import Suspension.Proofs.Flow.Edges
import Suspension.Proofs.Flow.Liveness
import Suspension.Proofs.Symbolic.Alike

/-!
# Finished traversals

A traversal is finished when no block is left to be visited: every block that was entered has been
visited, and every edge out of it has been followed.  The check of its edges then shows that an edge
delivers what its target was entered with, up to kinds.

## Main definitions
* `Widenings.forget`: the frame with which a block is entered.
* `Pass.Underway`: what holds while blocks are visited.
* `Pass.Complete`: what holds at the end.

## Main results
* `Pass.Underway.traverse_cases`: a traversal that is under way goes on with a visit.
* `Pass.complete_ofGraph`: a traversal visits all that it enters.
* `Pass.edge_alike`: a checked edge delivers a frame that looks like the one of its target.
-/

namespace Suspension

/-- The frame with which a block is entered: the classes that have to be are forgotten. -/
def Widenings.forget (widened : Widenings) (place : Nat) (f : SymFrame) : SymFrame :=
  (widened.filter (·.1 = place)).foldl (fun f w => w.2.apply f) f

theorem SymFrame.Alike.forget {S : Slot → Prop} (f : SymFrame) (widened : Widenings) (place : Nat) :
    f.Alike S (widened.forget place f) := by
  unfold Widenings.forget
  induction widened.filter (·.1 = place) generalizing f with
  | nil => exact .refl S f
  | cons w rest ih => exact (SymFrame.Alike.widen f w.2).trans (ih (w.2.apply f))

/-- A block that is no handler is interpreted from the frame that it was entered with. -/
theorem Block.opening_regular {b : Block} (noHandler : b.handler = false) (metrics : Metrics) (f : SymFrame) :
    b.opening metrics f = f := by
  rw [Block.opening, noHandler, if_neg Bool.false_ne_true]

namespace Pass

variable {g : Graph} {metrics : Metrics} {widened : Widenings} {root : SymFrame} {p p' : Pass}

/-! ## Following the edges out of a block -/

/-- What following the edges out of a block adds to a traversal. -/
structure Spread (widened : Widenings) (place : Nat) (exit : SymFrame) (edges : List Edge) (p p' : Pass) :
    Prop where
  visits : p'.visits = p.visits
  kept : ∀ (q : Nat) (entry : Entry), p.entries[q]? = some entry → p'.entries[q]? = some entry
  fresh : ∀ (q : Nat) (entry : Entry), p'.entries[q]? = some entry →
    p.entries[q]? = some entry ∨ ∃ kind, (⟨q, kind⟩ : Edge) ∈ edges ∧
      entry = ⟨widened.forget q (kind.deliver exit), some (place, kind)⟩
  targets : ∀ e ∈ edges, e.target ∈ p'.entries
  pending : ∃ new, p'.pending = new ++ p.pending ∧ new.Nodup ∧ (∀ q ∈ new, q ∉ p.entries) ∧
    ∀ q, q ∈ p'.entries ↔ q ∈ new ∨ q ∈ p.entries

theorem mem_entries_enter {place q : Nat} {f : SymFrame} {via : Option (Nat × EdgeKind)} :
    q ∈ (p.enter widened place f via).entries ↔ q = place ∨ q ∈ p.entries := by
  rw [enter, Std.ExtTreeMap.mem_insert, Std.compare_eq_iff_eq, eq_comm]

/-- Only the first edge to a block enters it, so what an edge leads to is new or was there. -/
theorem Spread.enter {e : Edge} {rest : List Edge} (unknown : e.target ∉ p.entries)
    (spread : Spread widened place exit rest
      (p.enter widened e.target (e.kind.deliver exit) (some (place, e.kind))) p') :
    Spread widened place exit (e :: rest) p p' := by
  obtain ⟨visits, kept, fresh, targets, new, pending, nodup, outside, entries⟩ := spread
  refine ⟨visits, fun q entry h => kept q entry ?_, fun q entry h => ?_, fun e' he => ?_,
    new ++ [e.target], by rw [pending]; simp [Pass.enter], ?_, fun q hq => ?_, fun q => ?_⟩
  · have ne : e.target ≠ q := by
      rintro rfl
      exact unknown (Std.ExtTreeMap.getElem?_eq_some_iff.1 h).1
    rw [Pass.enter, Std.ExtTreeMap.getElem?_insert, if_neg (by simpa using ne)]
    exact h
  · rcases fresh q entry h with old | ⟨kind, he, made⟩
    · rw [Pass.enter, Std.ExtTreeMap.getElem?_insert] at old
      split at old
      · next same =>
        obtain rfl : e.target = q := by simpa using same
        cases old
        exact .inr ⟨e.kind, by simp, rfl⟩
      · exact .inl old
    · exact .inr ⟨kind, by simp [he], made⟩
  · rcases List.mem_cons.1 he with rfl | he
    · exact (entries _).2 (.inr (mem_entries_enter.2 (.inl rfl)))
    · exact targets e' he
  · refine List.nodup_append.2 ⟨nodup, by simp, fun x hx y hy same => ?_⟩
    obtain rfl : y = e.target := by simpa using hy
    exact outside x hx (mem_entries_enter.2 (.inl same))
  · rcases List.mem_append.1 hq with hq | hq
    · exact fun h => outside q hq (mem_entries_enter.2 (.inr h))
    · obtain rfl : q = e.target := by simpa using hq
      exact unknown
  · rw [entries, mem_entries_enter, List.mem_append, List.mem_singleton, or_assoc]

theorem Spread.known {e : Edge} {rest : List Edge} (known : e.target ∈ p.entries)
    (spread : Spread widened place exit rest p p') : Spread widened place exit (e :: rest) p p' where
  visits := spread.visits
  kept := spread.kept
  fresh q entry h := (spread.fresh q entry h).imp id fun ⟨kind, he, made⟩ => ⟨kind, by simp [he], made⟩
  targets e' he := by
    rcases List.mem_cons.1 he with rfl | he
    · obtain ⟨entry, h⟩ := Option.isSome_iff_exists.1 (Std.ExtTreeMap.isSome_getElem?_iff_mem.2 known)
      exact (Std.ExtTreeMap.getElem?_eq_some_iff.1 (spread.kept _ _ h)).1
    · exact spread.targets e' he
  pending := spread.pending

theorem spread_spec (widened : Widenings) (place : Nat) (exit : SymFrame) (edges : List Edge) (p : Pass) :
    Spread widened place exit edges p (p.spread widened place exit edges) := by
  induction edges generalizing p with
  | nil => exact ⟨rfl, fun _ _ h => h, fun _ _ h => .inl h, by simp, [], by simp [spread]⟩
  | cons e rest ih =>
    rw [spread, List.foldl_cons, ← spread]
    by_cases known : e.target ∈ p.entries
    · rw [if_pos known]
      exact .known known (ih p)
    · rw [if_neg known]
      exact .enter known (ih _)

/-! ## Visiting blocks -/

/-- What holds while blocks are visited. -/
structure Underway (g : Graph) (metrics : Metrics) (widened : Widenings) (root : SymFrame) (p : Pass) :
    Prop where
  root : p.entries[0]? = some ⟨widened.forget 0 root, none⟩
  range : ∀ q ∈ p.entries, q < g.blocks.length
  seeds : ∀ (q : Nat) (entry : Entry), p.entries[q]? = some entry → ∀ place kind,
    entry.via = some (place, kind) →
      ∃ v, p.visits[place]? = some v ∧ entry.frame = widened.forget q (kind.deliver v.trail.frame)
  visited : ∀ (q : Nat) (v : Visit), p.visits[q]? = some v → ∃ b entry, g.block? q = some b ∧
    p.entries[q]? = some entry ∧ b.interpret (b.opening metrics entry.frame) = .ok v ∧
      ∀ e ∈ b.edges, e.target ∈ p.entries
  waiting : ∀ q ∈ p.entries, q ∈ p.visits ∨ q ∈ p.pending
  pending : ∀ q ∈ p.pending, q ∈ p.entries ∧ q ∉ p.visits
  nodup : p.pending.Nodup

/-- How many blocks have not been visited. -/
def unvisited (g : Graph) (p : Pass) : Nat := (List.range g.blocks.length).countP (· ∉ p.visits)

/-- One more block is visited.  What it adds is what spreading over its edges adds: that has no entry yet, while
what has been visited has one. -/
theorem Underway.visit (closed : g.Closed) (h : p.Underway g metrics widened root) {place : Nat}
    {pending : List Nat} (first : p.pending = place :: pending) {b : Block} {entry : Entry} {v : Visit}
    (hb : g.block? place = some b) (hentry : p.entries[place]? = some entry)
    (hv : b.interpret (b.opening metrics entry.frame) = .ok v) :
    let visited : Pass := { p with visits := p.visits.insert place v, pending }
    (visited.spread widened place v.trail.frame b.edges).Underway g metrics widened root := by
  intro visited
  obtain ⟨visits, kept, fresh, targets, new, waits, nodup, unknown, entries⟩ :=
    spread_spec widened place v.trail.frame b.edges visited
  obtain ⟨notAgain, rest⟩ := List.nodup_cons.1 (first ▸ h.nodup)
  have unvisited : place ∉ p.visits := (h.pending place (by simp [first])).2
  have own : (visited.spread widened place v.trail.frame b.edges).visits[place]? = some v := by
    rw [visits]
    simp [visited]
  have earlier {q : Nat} {u : Visit} (hu : p.visits[q]? = some u) :
      (visited.spread widened place v.trail.frame b.edges).visits[q]? = some u := by
    have ne : place ≠ q := by
      rintro rfl
      exact unvisited (Std.ExtTreeMap.getElem?_eq_some_iff.1 hu).1
    rw [visits, Std.ExtTreeMap.getElem?_insert, if_neg (by simpa using ne)]
    exact hu
  have seen {q : Nat} : q ∈ (visited.spread widened place v.trail.frame b.edges).visits ↔
      q = place ∨ q ∈ p.visits := by
    rw [visits, Std.ExtTreeMap.mem_insert, Std.compare_eq_iff_eq, eq_comm]
  refine { root := kept _ _ h.root, range := ?range, seeds := ?seeds, visited := ?visited,
           waiting := ?waiting, pending := ?pending, nodup := ?nodup }
  case range =>
    intro q hq
    rcases fresh q _ (Std.ExtTreeMap.getElem?_eq_some_getElem hq) with old | ⟨kind, hm, -⟩
    · exact h.range q (Std.ExtTreeMap.getElem?_eq_some_iff.1 old).1
    · exact closed.edges b (List.mem_of_getElem? hb) _ hm
  case seeds =>
    intro q entry' he src kind via
    rcases fresh q entry' he with old | ⟨kind', hm, rfl⟩
    · obtain ⟨u, hu, made⟩ := h.seeds q entry' old src kind via
      exact ⟨u, earlier hu, made⟩
    · cases via
      exact ⟨v, own, rfl⟩
  case visited =>
    intro q u hu
    rw [visits, Std.ExtTreeMap.getElem?_insert] at hu
    split at hu
    · next same =>
      obtain rfl : place = q := by simpa using same
      cases hu
      exact ⟨b, entry, hb, kept _ _ hentry, hv, targets⟩
    · obtain ⟨b', entry', hb', he, interpreted, edges⟩ := h.visited q u hu
      exact ⟨b', entry', hb', kept _ _ he, interpreted, fun e hm => (entries _).2 (.inr (edges e hm))⟩
  case waiting =>
    intro q hq
    rw [waits, List.mem_append]
    rcases (entries q).1 hq with fresh | old
    · exact .inr (.inl fresh)
    · rcases h.waiting q old with done | waits
      · exact .inl (seen.2 (.inr done))
      · rcases List.mem_cons.1 (first ▸ waits) with rfl | waits
        · exact .inl (seen.2 (.inl rfl))
        · exact .inr (.inr waits)
  case pending =>
    intro q hq
    rw [waits, List.mem_append] at hq
    rw [seen, not_or]
    rcases hq with hq | hq
    · have outside : q ∉ p.entries := unknown q hq
      refine ⟨(entries q).2 (.inl hq), ?_, fun done => ?_⟩
      · rintro rfl
        exact outside (Std.ExtTreeMap.getElem?_eq_some_iff.1 hentry).1
      · obtain ⟨-, entry', -, he, -⟩ := h.visited q _ (Std.ExtTreeMap.getElem?_eq_some_getElem done)
        exact outside (Std.ExtTreeMap.getElem?_eq_some_iff.1 he).1
    · obtain ⟨entered, unvisited⟩ := h.pending q (first ▸ List.mem_cons_of_mem _ hq)
      refine ⟨(entries q).2 (.inr entered), ?_, unvisited⟩
      rintro rfl
      exact notAgain hq
  case nodup =>
    rw [waits]
    refine List.nodup_append.2 ⟨nodup, rest, fun x hx y hy same => ?_⟩
    exact unknown x hx (same ▸ (h.pending y (first ▸ List.mem_cons_of_mem _ hy)).1)

theorem unvisited_visit (h : p.Underway g metrics widened root) {place : Nat} {pending : List Nat}
    (first : p.pending = place :: pending) {b : Block} {v : Visit} :
    let visited : Pass := { p with visits := p.visits.insert place v, pending }
    unvisited g (visited.spread widened place v.trail.frame b.edges) < unvisited g p := by
  intro visited
  obtain ⟨entered, fresh⟩ := h.pending place (by simp [first])
  have visits := (spread_spec widened place v.trail.frame b.edges visited).visits
  refine countP_lt (a := place) (fun q _ hq => ?_) (List.mem_range.2 (h.range place entered)) ?_ ?_
  · rw [visits] at hq
    simp only [visited, decide_eq_true_eq, Std.ExtTreeMap.mem_insert, not_or] at hq ⊢
    exact hq.2
  · simp [visits, visited]
  · simpa using fresh

/-- What waits has been entered. -/
theorem Underway.exists_next (h : p.Underway g metrics widened root) {place : Nat} {pending : List Nat}
    (first : p.pending = place :: pending) :
    ∃ b entry, g.block? place = some b ∧ p.entries[place]? = some entry := by
  obtain ⟨entered, -⟩ := h.pending place (by simp [first])
  exact ⟨_, _, List.getElem?_eq_getElem (h.range place entered), Std.ExtTreeMap.getElem?_eq_some_getElem entered⟩

/-- A traversal that is under way goes on with a visit, unless nothing waits. -/
theorem Underway.traverse_cases (h : p.Underway g metrics widened root) {n : Nat}
    (done : (traverse g metrics widened (n + 1) p).result = .ok p') :
    p.pending = [] ∧ p' = p ∨ ∃ place pending b entry v, p.pending = place :: pending ∧
      g.block? place = some b ∧ p.entries[place]? = some entry ∧
      b.interpret (b.opening metrics entry.frame) = .ok v ∧
      (traverse g metrics widened n (Pass.spread ⟨p.entries, p.visits.insert place v, pending⟩ widened place
        v.trail.frame b.edges)).result = .ok p' := by
  rcases Pass.traverse_cases done with ended | ⟨place, pending, first, ⟨b, entry, v, visit⟩ | ⟨missing, -⟩⟩
  · exact .inl ended
  · exact .inr ⟨place, pending, b, entry, v, first, visit⟩
  · obtain ⟨b, entry, hb, hentry⟩ := h.exists_next first
    rcases missing with none | none
    · cases hb.symm.trans none
    · cases hentry.symm.trans none

/-- A traversal with enough fuel visits all that it enters. -/
theorem underway_traverse (closed : g.Closed) {n : Nat} (h : p.Underway g metrics widened root)
    (enough : unvisited g p < n) (done : (traverse g metrics widened n p).result = .ok p') :
    p'.Underway g metrics widened root ∧ p'.pending = [] := by
  induction n generalizing p with
  | zero => exact absurd enough (Nat.not_lt_zero _)
  | succ n ih =>
    rcases h.traverse_cases done with ⟨none, rfl⟩ | ⟨place, pending, b, entry, v, first, hb, hentry, hv, done⟩
    · exact ⟨h, none⟩
    · refine ih (h.visit closed first hb hentry hv) ?_ done
      exact Nat.lt_of_lt_of_le (unvisited_visit h first) (Nat.lt_succ_iff.1 enough)

/-! ## At the end -/

/-- A finished traversal: what was entered has been visited, and the edges out of it were followed. -/
structure Complete (g : Graph) (metrics : Metrics) (widened : Widenings) (root : SymFrame) (p : Pass) :
    Prop where
  entry : p.entries[0]? = some ⟨widened.forget 0 root, none⟩
  visit : ∀ (q : Nat) (entry : Entry), p.entries[q]? = some entry → ∃ b v, g.block? q = some b ∧
    p.visits[q]? = some v ∧ b.interpret (b.opening metrics entry.frame) = .ok v
  interpreted : ∀ (q : Nat) (v : Visit), p.visits[q]? = some v →
    ∃ b, g.block? q = some b ∧ b.interpret v.opening = .ok v
  edge : ∀ (q : Nat) (b : Block) (v : Visit), g.block? q = some b → p.visits[q]? = some v →
    ∀ e ∈ b.edges, ∃ entry, p.entries[e.target]? = some entry ∧
      (entry.via = some (q, e.kind) → entry.frame = widened.forget e.target (e.kind.deliver v.trail.frame))

/-- A traversal starts with the first block entered and waiting. -/
theorem underway_start (closed : g.Closed) :
    (({} : Pass).enter widened 0 root none).Underway g metrics widened root where
  root := by simp [enter, Widenings.forget]
  range q hq := by
    obtain rfl : q = 0 := by simpa [mem_entries_enter] using hq
    exact closed.entry
  seeds q entry he place kind via := by
    rw [enter, Std.ExtTreeMap.getElem?_insert] at he
    split at he
    · cases he
      cases via
    · simp at he
  visited q v hv := by simp [enter] at hv
  waiting q hq := by
    obtain rfl : q = 0 := by simpa [mem_entries_enter] using hq
    simp [enter]
  pending q hq := by
    obtain rfl : q = 0 := by simpa [enter] using hq
    exact ⟨mem_entries_enter.2 (.inl rfl), by simp [enter]⟩
  nodup := by simp [enter]

/-- When nothing waits any more, all that was entered has been visited.  An entry waits or has been visited. -/
theorem Underway.complete (h : p.Underway g metrics widened root) (none : p.pending = []) :
    p.Complete g metrics widened root where
  entry := h.root
  visit q entry he := by
    have entered : q ∈ p.entries := (Std.ExtTreeMap.getElem?_eq_some_iff.1 he).1
    have visited := (h.waiting q entered).resolve_right (by simp [none])
    have hv := Std.ExtTreeMap.getElem?_eq_some_getElem visited
    obtain ⟨b, entry', hb, he', interpreted, -⟩ := h.visited q _ hv
    cases he.symm.trans he'
    exact ⟨b, _, hb, hv, interpreted⟩
  interpreted q v hv := by
    obtain ⟨b, entry, hb, -, interpreted, -⟩ := h.visited q v hv
    exact ⟨b, hb, (Block.interpret_eq_ok interpreted).1 ▸ interpreted⟩
  edge q b v hb hv e hm := by
    obtain ⟨b', -, hb', -, -, targets⟩ := h.visited q v hv
    cases hb.symm.trans hb'
    have he := Std.ExtTreeMap.getElem?_eq_some_getElem (targets e hm)
    refine ⟨_, he, fun via => ?_⟩
    obtain ⟨u, hu, made⟩ := h.seeds _ _ he q e.kind via
    cases hv.symm.trans hu
    exact made

/-- A traversal leaves no block waiting. -/
theorem underway_ofGraph (closed : g.Closed) (h : (ofGraph g metrics widened root).result = .ok p) :
    p.Underway g metrics widened root ∧ p.pending = [] := by
  have enough : unvisited g (({} : Pass).enter widened 0 root none) < g.blocks.length + 1 := by
    have := List.countP_le_length (p := fun q => decide (q ∉ (({} : Pass).enter widened 0 root none).visits))
      (l := List.range g.blocks.length)
    rw [List.length_range] at this
    exact Nat.lt_succ_of_le this
  exact underway_traverse closed (underway_start closed) enough h

/-- A traversal visits all that it enters. -/
theorem complete_ofGraph (closed : g.Closed) (h : (ofGraph g metrics widened root).result = .ok p) :
    p.Complete g metrics widened root :=
  (underway_ofGraph closed h).1.complete (underway_ofGraph closed h).2

/-! ## The checked edges -/

variable {live : Liveness} {policy : JoinPolicy}

theorem agree_iff {a b : Option Tag} : agree a b = true ↔ a.map Tag.kind = b.map Tag.kind := by
  cases a <;> cases b <;> simp [agree]

theorem agree_of_checkSlots {place : Nat} {entry incoming : SymFrame} {slots : List Slot}
    (h : (checkSlots .reject place entry incoming slots).result = .ok ()) :
    ∀ s ∈ slots, agree entry.locals[s]? incoming.locals[s]? = true := by
  induction slots with
  | nil => simp
  | cons slot rest ih =>
    rw [checkSlots] at h
    simp only at h
    split at h
    · next agrees =>
      intro s hs
      rcases List.mem_cons.1 hs with rfl | hs
      · exact agrees
      · exact ih h s hs
    · rw [Reported.result_bind] at h
      cases h

theorem exists_checkEdge_of_checkEdges {place : Nat} {exit : SymFrame} {edges : List Edge}
    {asked : Widenings} (h : (p.checkEdges g live policy place exit edges).result = .ok asked) {e : Edge}
    (he : e ∈ edges) :
    ∃ own, (p.checkEdge g live policy place exit e).result = .ok own ∧ own ⊆ asked := by
  induction edges generalizing asked with
  | nil => cases he
  | cons e' rest ih =>
    rw [checkEdges] at h
    simp only [Reported.result_bind] at h
    obtain ⟨first, hfirst, h⟩ := bind_eq_ok.1 h
    obtain ⟨others, later, h⟩ := bind_eq_ok.1 h
    cases h
    rcases List.mem_cons.1 he with rfl | he
    · exact ⟨first, hfirst, List.subset_append_left _ _⟩
    · obtain ⟨own, hown, sub⟩ := ih later he
      exact ⟨own, hown, List.subset_append_of_subset_right _ sub⟩

theorem exists_checkEdge_of_check {places : List Nat} {asked : Widenings}
    (h : (p.check g live policy places).result = .ok asked) {place : Nat} (hp : place ∈ places) {b : Block}
    {v : Visit} (hb : g.block? place = some b) (hv : p.visits[place]? = some v) {e : Edge}
    (he : e ∈ b.edges) :
    ∃ own, (p.checkEdge g live policy place v.trail.frame e).result = .ok own ∧ own ⊆ asked := by
  induction places generalizing asked with
  | nil => cases hp
  | cons place' rest ih =>
    rw [check] at h
    rcases List.mem_cons.1 hp with rfl | hp
    · rw [hv, hb] at h
      simp only [Reported.result_bind] at h
      obtain ⟨first, checked, h⟩ := bind_eq_ok.1 h
      obtain ⟨others, -, h⟩ := bind_eq_ok.1 h
      cases h
      obtain ⟨own, hown, sub⟩ := exists_checkEdge_of_checkEdges checked he
      exact ⟨own, hown, List.subset_append_of_subset_left _ sub⟩
    · split at h <;> simp only [Reported.result_bind] at h
      all_goals
        obtain ⟨_, _, h⟩ := bind_eq_ok.1 h
        obtain ⟨others, later, h⟩ := bind_eq_ok.1 h
        cases h
        obtain ⟨own, hown, sub⟩ := ih later hp
        exact ⟨own, hown, List.subset_append_of_subset_right _ sub⟩

/-- A checked edge delivers a stack of the kinds that its target was entered with, whatever the policy for
slots. -/
theorem kinds_of_checkEdge {place : Nat} {exit : SymFrame} {e : Edge} {asked : Widenings}
    (h : (p.checkEdge g live policy place exit e).result = .ok asked) {entry : Entry} {target : Block}
    (hentry : p.entries[e.target]? = some entry) (htarget : g.block? e.target = some target)
    (regular : e.kind ≠ .exception) (noHandler : target.handler = false)
    (other : entry.via ≠ some (place, e.kind)) :
    entry.frame.stack.map Tag.kind = (e.kind.deliver exit).stack.map Tag.kind := by
  unfold checkEdge at h
  rw [hentry, htarget] at h
  simp only [other, regular, if_false, noHandler, Bool.not_false, Bool.true_and] at h
  split at h
  · simp only [Reported.result_bind, Reported.result_fail] at h
    cases h
  · next kinds => simpa [sameKinds] using kinds

/-- A checked edge delivers a frame that looks like the one that its target was entered with. -/
theorem alike_of_checkEdge {place : Nat} {exit : SymFrame} {e : Edge} {asked : Widenings}
    (h : (p.checkEdge g live .reject place exit e).result = .ok asked) {entry : Entry} {target : Block}
    (hentry : p.entries[e.target]? = some entry) (htarget : g.block? e.target = some target)
    (regular : e.kind ≠ .exception) (noHandler : target.handler = false)
    (other : entry.via ≠ some (place, e.kind)) :
    entry.frame.Alike (· ∈ live.liveIn e.target) (e.kind.deliver exit) := by
  refine ⟨kinds_of_checkEdge h hentry htarget regular noHandler other, fun s hs => ?_⟩
  unfold checkEdge at h
  rw [hentry, htarget] at h
  simp only [other, regular, if_false, noHandler, Bool.not_false, Bool.true_and] at h
  split at h
  · simp only [Reported.result_bind, Reported.result_fail] at h
    cases h
  · simp only [Reported.result_bind] at h
    obtain ⟨_, slots, -⟩ := bind_eq_ok.1 h
    exact agree_iff.1 (agree_of_checkSlots slots s (Std.ExtTreeSet.mem_toList.2 hs))

/-- An edge out of a visited block leads to one that was visited, from the frame that it was entered with. -/
theorem Complete.edge_visited (complete : p.Complete g metrics widened root) {place : Nat} {b : Block}
    {v : Visit} (hb : g.block? place = some b) (hv : p.visits[place]? = some v) {e : Edge}
    (he : e ∈ b.edges) :
    ∃ entry target u, p.entries[e.target]? = some entry ∧ g.block? e.target = some target ∧
      p.visits[e.target]? = some u ∧ target.interpret u.opening = .ok u ∧
      u.opening = target.opening metrics entry.frame ∧
      (entry.via = some (place, e.kind) → entry.frame = widened.forget e.target (e.kind.deliver v.trail.frame)) := by
  obtain ⟨entry, hentry, made⟩ := complete.edge place b v hb hv e he
  obtain ⟨target, u, htarget, hu, interpreted⟩ := complete.visit _ entry hentry
  have opened := (Block.interpret_eq_ok interpreted).1
  exact ⟨entry, target, u, hentry, htarget, hu, opened ▸ interpreted, opened, made⟩

/-- An edge to a block that is no handler delivers a frame that looks like the one that the block was
entered with, wherever the block was entered from. -/
theorem edge_alike (complete : p.Complete g metrics widened root) {asked : Widenings}
    (checked : (p.check g live .reject (List.range g.blocks.length)).result = .ok asked) {place : Nat}
    {b : Block} {v : Visit} (hb : g.block? place = some b) (hv : p.visits[place]? = some v) {e : Edge}
    (he : e ∈ b.edges) (regular : e.kind ≠ .exception) {target : Block}
    (htarget : g.block? e.target = some target) (noHandler : target.handler = false) :
    ∃ u, p.visits[e.target]? = some u ∧ target.interpret u.opening = .ok u ∧
      u.opening.Alike (· ∈ live.liveIn e.target) (e.kind.deliver v.trail.frame) := by
  obtain ⟨entry, target', u, hentry, htarget', hu, interpreted, opened, made⟩ :=
    complete.edge_visited hb hv he
  cases htarget.symm.trans htarget'
  rw [Block.opening_regular noHandler] at opened
  refine ⟨u, hu, interpreted, opened ▸ ?_⟩
  by_cases first : entry.via = some (place, e.kind)
  · rw [made first]
    exact (SymFrame.Alike.forget _ widened e.target).symm
  · have inRange : place < g.blocks.length := (List.getElem?_eq_some_iff.1 hb).1
    obtain ⟨own, hown, -⟩ := exists_checkEdge_of_check checked (List.mem_range.2 inRange) hb hv he
    exact alike_of_checkEdge hown hentry htarget regular noHandler first

end Pass

end Suspension
