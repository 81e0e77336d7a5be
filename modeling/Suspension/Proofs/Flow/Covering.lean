import Suspension.Proofs.Flow.Stretches
import Suspension.Proofs.Machine.Over

/-!
# A graph has an edge for every move

A frame that stays in its method moves from one instruction to another.  Where it does not go on within a
block, the graph has an edge from the block that it leaves to the block that it enters, and the edge is of the
sort of the move.

## Main definitions
* `Graph.Cuts`: the runs of instructions that the blocks of a graph stand for.
* `Flow.kind?`, `Run.Moves`: how a frame moves within its method.

## Main results
* `Graph.covers_of_build`: a graph cuts its method into runs, and covers every move.
-/

namespace Suspension

/-- The runs of instructions that the blocks of a graph stand for, in order.  They make up the stream, each is
where its block starts, and no label stands inside one. -/
structure Graph.Cuts (g : Graph) (instrs : List Instr) (runs : List (List Instr)) : Prop where
  flatten : runs.flatten = instrs
  length : runs.length = g.blocks.length
  start : ∀ n b, g.block? n = some b → b.start = (runs.take n).flatten.length
  noLabel : ∀ run ∈ runs, ∀ i ∈ run.tail, i.defined? = none
  nonempty : instrs ≠ [] → ∀ run ∈ runs, run ≠ []

/-- The sort of move that an instruction makes: on to the next one, by a jump, or to a handler.  What a `ret`
does is no move, and leaving the method is none. -/
def Flow.kind? (i : Instr) : Flow → Option EdgeKind
  | .next => some .fallthrough
  | .jump _ => some i.jumpKind
  | .raise _ => some .exception
  | .goTo _ | .leave _ | .enter .. => none

variable {σ : Type} {cls : Class} {host : Host σ}

/-- A frame moves within its method: its next instruction, with the whole of a call that it makes, takes it to
another one. -/
def Run.Moves (cls : Class) (host : Host σ) (s : Situation σ) (kind : EdgeKind) (r : Run σ) : Prop :=
  ∃ patience i flow s', Run.fetch s.frame = .ok i ∧ Run.stepOver cls host patience s = .ok flow s' ∧
    flow.kind? i = some kind ∧ Run.go host ⟨s'.frame, [], s'.world⟩ flow = .running r

/-! ## What a move is -/

/-- An exception goes to the handler of a region that covers the place where it is raised.  Regions are tried in
order: one that does not cover, or does not catch, leaves it to those behind it. -/
theorem Frame.handlerFor_eq_some {f : Frame} {world : World σ} {place j : Nat} {exc : ObjectId}
    {regions : List Region} (h : f.handlerFor host world place exc regions = .ok (some j)) :
    ∃ r ∈ regions, ∃ start stop, f.target r.start = .ok start ∧ f.target r.stop = .ok stop ∧
      start ≤ place ∧ place < stop ∧ f.target r.handler = .ok j := by
  induction regions with
  | nil => cases h
  | cons r rest ih =>
    have later (h : f.handlerFor host world place exc rest = .ok (some j)) :
        ∃ r' ∈ r :: rest, ∃ start stop, f.target r'.start = .ok start ∧ f.target r'.stop = .ok stop ∧
          start ≤ place ∧ place < stop ∧ f.target r'.handler = .ok j := by
      obtain ⟨r', mem, found⟩ := ih h
      exact ⟨r', List.mem_cons_of_mem _ mem, found⟩
    obtain ⟨covered, hcovered, h⟩ := bind_eq_ok.1 h
    cases covered with
    | false => exact later h
    | true =>
      obtain ⟨caught, hcaught, h⟩ := bind_eq_ok.1 h
      cases caught with
      | false => exact later h
      | true =>
        obtain ⟨handler, hhandler, h⟩ := bind_eq_ok.1 h
        cases h
        obtain ⟨start, hstart, hcovered⟩ := bind_eq_ok.1 hcovered
        split at hcovered
        · next le =>
          obtain ⟨stop, hstop, lt⟩ := bind_eq_ok.1 hcovered
          refine ⟨r, List.mem_cons_self, start, stop, hstart, hstop, le, ?_, hhandler⟩
          simpa using Except.ok.inj lt
        · cases hcovered

/-- Where the text of a method leads from an instruction at a place. -/
inductive Instr.Leads (i : Instr) (method : Method) (place : Nat) : EdgeKind → Nat → Prop
  | on (runs : i.fallsThrough = true) : i.Leads method place .fallthrough (place + 1)
  | jump {l : Label} {j : Nat} (mem : l ∈ i.targets) (target : method.code.target? l = some j) :
    i.Leads method place i.jumpKind j
  | caught {r : Region} {start stop j : Nat} (mem : r ∈ method.code.regions)
      (hstart : method.code.target? r.start = some start) (hstop : method.code.target? r.stop = some stop)
      (le : start ≤ place) (lt : place < stop) (handler : method.code.target? r.handler = some j) :
    i.Leads method place .exception j

theorem Frame.target_eq_ok {f : Frame} {l : Label} {j : Nat} (h : f.target l = .ok j) :
    f.method.code.target? l = some j := by
  unfold target at h
  split at h
  · next found =>
    cases h
    exact found
  · cases h

/-- A move leads where its instruction does.  Paying and fetching leave the frame where it is, and a raise only
moves when a region of this frame takes it. -/
theorem Run.leads_of_moves {s : Situation σ} {kind : EdgeKind} {r : Run σ} (h : Moves cls host s kind r) :
    ∃ i, s.frame.method.code.instrs[s.frame.pc]? = some i ∧
      i.Leads s.frame.method s.frame.pc kind r.frame.pc := by
  obtain ⟨patience, i, flow, s', fetched, stepped, sort, went⟩ := h
  have at' : s.frame.method.code.instrs[s.frame.pc]? = some i := by
    unfold Run.fetch at fetched
    split at fetched
    · next found =>
      cases fetched
      exact found
    · cases fetched
  refine ⟨i, at', ?_⟩
  obtain ⟨_, s₁, burnt, stepped⟩ := bind_apply_eq_ok stepped
  obtain ⟨⟨method₁, pc₁⟩, -⟩ := (stays_inWorld _).ok burnt
  have same : s₁.frame = s.frame := by
    rw [inWorld_apply] at burnt
    split at burnt <;> cases burnt
    rfl
  obtain ⟨_, _, got, stepped⟩ := bind_apply_eq_ok stepped
  cases got
  obtain ⟨i', s₂, fetched', stepped⟩ := bind_apply_eq_ok stepped
  obtain ⟨_, s₃, moved, stepped⟩ := bind_apply_eq_ok stepped
  cases moved
  rw [same, fetched] at fetched'
  cases fetched'
  obtain ⟨method, pc, proceeds⟩ := Instr.proceeds_stepOver stepped
  dsimp only at method pc
  rw [same] at method pc
  cases flow with
  | next =>
    cases sort
    cases went
    rw [pc]
    exact .on proceeds
  | jump l =>
    cases sort
    simp only [go] at went
    split at went
    · next j target =>
      cases went
      exact .jump proceeds (method ▸ Frame.target_eq_ok target)
    · cases went
  | raise exc =>
    cases sort
    rw [go, unwind_eq] at went
    cases handled : s'.frame.handlerFor host s'.world (s'.frame.pc - 1) exc s'.frame.method.code.regions with
    | error e => simp [handled] at went
    | ok handler =>
      rw [handled] at went
      cases handler with
      | none => cases went
      | some j =>
        cases went
        rw [pc, Nat.add_sub_cancel, method] at handled
        obtain ⟨r, hr, start, stop, hstart, hstop, le, lt, hhandler⟩ := Frame.handlerFor_eq_some handled
        rw [← method] at hr ⊢
        exact .caught hr (Frame.target_eq_ok hstart) (Frame.target_eq_ok hstop) le lt
          (Frame.target_eq_ok hhandler)
  | goTo | leave | enter => cases sort

/-! ## What a graph covers -/

/-- A graph covers a move.  Inside a block, an instruction moves to the next one.  Otherwise the block of the
instruction has an edge of the sort of the move to the block that starts where the move leads.  Exceptions are
taken anywhere in a block, all other edges at its end. -/
def Graph.Covers (g : Graph) (runs : List (List Instr)) (place : Nat) (kind : EdgeKind) (j : Nat) : Prop :=
  ∃ n b run k, g.block? n = some b ∧ runs[n]? = some run ∧ place = b.start + k ∧ k < run.length ∧
    (kind = .fallthrough ∧ j = place + 1 ∧ k + 1 < run.length ∨
      (kind ≠ .exception → k + 1 = run.length) ∧
        ∃ e ∈ b.edges, e.kind = kind ∧ ∃ b', g.block? e.target = some b' ∧ b'.start = j)

namespace Graph

variable {className : String} {config : Config} {method : Method} {g : Graph}

/-- The runs of a method are its stretches; without instructions there is one run that is empty. -/
def runs (method : Method) : List (List Instr) :=
  if (stretches method).isEmpty then [[]] else (stretches method).map Stretch.instrs

theorem runs_of_stretch {n : Nat} {s : Stretch} (hs : (stretches method)[n]? = some s) :
    runs method = (stretches method).map Stretch.instrs := by
  refine if_neg fun empty => ?_
  rw [List.isEmpty_iff.1 empty] at hs
  cases hs

/-- The blocks of a graph cut the method into runs.  A method without instructions has one block all the same. -/
theorem cuts_of_build (h : build className method config = .ok g) : g.Cuts method.code.instrs (runs method) := by
  have tiles := tiles_stretches method
  have length := length_of_build h
  cases hss : stretches method with
  | nil =>
    have empty : method.code.instrs = [] := by
      rw [← tiles.flatMap_instrs, hss]
      rfl
    have alone : runs method = [[]] := by simp [runs, hss]
    rw [hss] at length
    obtain ⟨-, blocks, spans, hlow, -, hblocks⟩ := build_eq_ok h
    rw [hss] at hlow
    obtain ⟨rfl, -⟩ := Prod.mk.inj (Except.ok.inj hlow)
    rw [alone, empty]
    refine ⟨rfl, length.symm, fun n b hb => ?_, by simp, by simp⟩
    rw [block?, hblocks] at hb
    cases n with
    | zero =>
      cases hb
      rfl
    | succ n => cases hb
  | cons s rest =>
    have all : runs method = (stretches method).map Stretch.instrs :=
      runs_of_stretch (n := 0) (s := s) (by rw [hss]; rfl)
    have some {run : List Instr} (hrun : run ∈ runs method) :
        ∃ (n : Nat) (s : Stretch), (stretches method)[n]? = some s ∧ s.instrs = run := by
      rw [all] at hrun
      obtain ⟨s, hs, rfl⟩ := List.mem_map.1 hrun
      obtain ⟨n, hn⟩ := List.mem_iff_getElem?.1 hs
      exact ⟨n, s, hn, rfl⟩
    refine ⟨?_, ?_, fun n b hb => ?_, fun run hrun i hi => ?_, fun _ run hrun => ?_⟩
    · rw [all, ← List.flatMap_def, tiles.flatMap_instrs]
    · rw [all, List.length_map, length, hss, List.length_cons]
      omega
    · have lt : n < (stretches method).length := by
        have := (List.getElem?_eq_some_iff.1 hb).1
        rw [length, hss, List.length_cons] at this
        rw [hss, List.length_cons]
        omega
      obtain ⟨spans, -, lowered⟩ := lowered_of_build h
      obtain ⟨low, -, block⟩ := lowered n _ (List.getElem?_eq_getElem lt)
      obtain rfl := Option.some.inj (hb.symm.trans block)
      rw [all, ← List.map_take, ← List.flatMap_def]
      exact (tiles.drop (List.getElem?_eq_getElem lt)).1.trans (Nat.zero_add _)
    · obtain ⟨n, s, hs, rfl⟩ := some hrun
      have sound := tiles.sound hs
      obtain ⟨k, hk⟩ := List.mem_iff_getElem?.1 hi
      rw [List.getElem?_tail] at hk
      rcases sound.entry hk with ⟨zero, -⟩ | mem
      · cases zero
      · exact sound.noLabel _ mem
    · obtain ⟨n, s, hs, rfl⟩ := some hrun
      exact (tiles.sound hs).nonempty

/-- A graph covers what the text of its method leads to.  Jumps only stand at the end of a block, so a move that
does not leave the block goes on inside it.  A region starts with a stretch, so one that covers an instruction
covers the start of its block. -/
theorem covers_of_leads (h : build className method config = .ok g) {place j : Nat} {i : Instr}
    {kind : EdgeKind} (at' : method.code.instrs[place]? = some i) (leads : i.Leads method place kind j)
    (lt : j < method.code.instrs.length) : g.Covers (runs method) place kind j := by
  have tiles := tiles_stretches method
  obtain ⟨n, s, k, hs, hk, here⟩ := tiles.exists_stretch (List.getElem?_eq_some_iff.1 at').1
  obtain ⟨spans, hspans, lowered⟩ := lowered_of_build h
  obtain ⟨low, hlow, block⟩ := lowered n s hs
  rw [Nat.zero_add] at here
  have sound := tiles.sound hs
  have instr : s.instrs[k]? = some i := by
    have there := (tiles.getElem?_instrs hs (List.getElem?_eq_getElem hk)).2
    rw [Nat.sub_zero, ← here, at'] at there
    rw [List.getElem?_eq_getElem hk, there]
  have starts {q : Nat} {t : Stretch} (ht : (stretches method)[q]? = some t) :
      ∃ b', g.block? q = some b' ∧ b'.start = t.start := by
    obtain ⟨_, -, block⟩ := lowered q t ht
    exact ⟨_, block, rfl⟩
  refine ⟨n, _, s.instrs, k, block, by rw [runs_of_stretch hs, List.getElem?_map, hs]; rfl, here, hk, ?_⟩
  cases leads with
  | on runsOn =>
    by_cases last : k + 1 = s.instrs.length
    · refine .inr ⟨fun _ => last, ?_⟩
      cases ht : (stretches method)[n + 1]? with
      | none =>
        have := tiles.last hs ht
        omega
      | some t =>
        obtain ⟨b', block', start⟩ := starts ht
        refine ⟨⟨n + 1, .fallthrough⟩, ?_, rfl, b', block', ?_⟩
        · have more := (List.getElem?_eq_some_iff.1 ht).1
          have falls := (sound.fallsThrough_eq instr last).trans runsOn
          simp [Block.edges, protect, Stretch.block, falls, more]
        · rw [start, (tiles.succ hs ht).1]
          omega
    · exact .inl ⟨rfl, rfl, by omega⟩
  | @jump l _ mem target =>
    have last : k + 1 = s.instrs.length := by
      refine sound.last_of_endsBlock instr ?_
      cases targets : i.targets with
      | nil =>
        rw [targets] at mem
        cases mem
      | cons l' rest => simp [Instr.endsBlock, targets]
    refine .inr ⟨fun _ => last, ?_⟩
    have entry : (s.start + k, i) ∈ s.body := by
      rcases sound.entry instr with ⟨-, l', -, rfl⟩ | entry
      · cases mem
      · exact entry
    obtain ⟨e, he, resolved, kind⟩ := exists_jump hlow entry mem
    obtain ⟨t, ht, target'⟩ := target_of_resolve h resolved
    obtain ⟨b', block', start⟩ := starts ht
    refine ⟨e, ?_, kind, b', block', ?_⟩
    · exact List.mem_append_left _ (List.mem_append_left _ he)
    · rw [start]
      exact Option.some.inj (target'.symm.trans target)
  | @caught r start stop _ mem hstart hstop le lt' handler =>
    refine .inr ⟨fun not => absurd rfl not, ?_⟩
    obtain ⟨p, hp, start', stop', ⟨m, u, hu, first⟩, t, ht, handler'⟩ := span_of_region h hspans mem
    obtain rfl := Option.some.inj (start'.symm.trans hstart)
    obtain rfl := Option.some.inj (stop'.symm.trans hstop)
    obtain rfl := Option.some.inj (handler'.symm.trans handler)
    have covered : u.start ≤ s.start := tiles.start_le hs hu (by omega)
    obtain ⟨b', block', start⟩ := starts ht
    refine ⟨⟨p.handler, .exception⟩, ?_, rfl, b', block', start⟩
    refine List.mem_append_left _ (List.mem_append_right _ (List.mem_map.2 ⟨p, ?_, rfl⟩))
    refine List.mem_filter.2 ⟨hp, ?_⟩
    rw [first] at covered
    have within : s.start < p.stop := by omega
    simp [Stretch.block, covered, within]

/-- The graph of a method cuts the stream into runs, and covers every move that a frame of the method makes to
another instruction, other than by `ret`. -/
theorem covers_of_build (h : build className method config = .ok g) :
    ∃ runs, g.Cuts method.code.instrs runs ∧
      ∀ {σ : Type} (cls : Class) (host : Host σ) (s : Situation σ) (kind : EdgeKind) (r : Run σ),
        s.frame.method = method → Run.Moves cls host s kind r → r.frame.pc < method.code.instrs.length →
          g.Covers runs s.frame.pc kind r.frame.pc := by
  refine ⟨runs method, cuts_of_build h, fun cls host s kind r hm moves lt => ?_⟩
  obtain ⟨i, at', leads⟩ := Run.leads_of_moves moves
  rw [hm] at at' leads
  exact covers_of_leads h at' leads lt

/-- A method that throws what it finds on the stack, and catches it. -/
def rethrower : Method where
  access := staticFlag
  name := "retry"
  descriptor := "()V"
  maxLocals := 0
  code := {
    instrs := [.label 0, .plain .athrow, .label 1, .plain (.leave none)]
    regions := [⟨0, 1, 1, none⟩] }

/-- The throw of `rethrower` is a move to its handler, for which its graph has an edge. -/
theorem rethrower_covered :
    ∃ g, build "app/C" rethrower {} = .ok g ∧
      Run.Moves ⟨0x21, "app/C", some objectClass, [], [rethrower]⟩ (Host.nothing Unit)
        ⟨{ method := rethrower, stack := [.object ⟨0⟩], pc := 1 }, { outside := () }⟩ .exception
        ⟨{ method := rethrower, stack := [.object ⟨0⟩], pc := 2 }, [], { outside := () }⟩ ∧
      ∃ runs, g.Cuts rethrower.code.instrs runs ∧ g.Covers runs 1 .exception 2 := by
  obtain ⟨g, built⟩ : ∃ g, build "app/C" rethrower {} = .ok g := exists_ok rfl
  have moves : Run.Moves ⟨0x21, "app/C", some objectClass, [], [rethrower]⟩ (Host.nothing Unit)
      ⟨{ method := rethrower, stack := [.object ⟨0⟩], pc := 1 }, { outside := () }⟩ .exception
      ⟨{ method := rethrower, stack := [.object ⟨0⟩], pc := 2 }, [], { outside := () }⟩ :=
    ⟨0, _, _, _, rfl, rfl, rfl, rfl⟩
  obtain ⟨runs, cuts, covers⟩ := covers_of_build built
  exact ⟨g, built, moves, runs, cuts, covers _ _ _ _ _ rfl moves (by decide)⟩

end Graph

end Suspension
