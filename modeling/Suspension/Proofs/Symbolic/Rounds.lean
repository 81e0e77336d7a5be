import Mathlib.Data.List.Perm.Subperm
import Suspension.Proofs.Flow.Steps
import Suspension.Proofs.Symbolic.Complete

/-!
# Rounds come to an end

A check asks for a class to be forgotten only where it is still there, so every round but the last asks
for a place that no round before it asked for.  There are only so many places: the slots of every block,
and what can be on its stack, which no visit makes much higher.  So the rounds end because nothing is
asked for any more, not because their number is limited.

## Main definitions
* `Widening.tag?`: what a frame holds at the place where a class is forgotten.
* `Pass.Entered`: what holds of the frames that blocks are entered with.
* `Graph.places`: the places where classes may have to be forgotten.
* `Shape.round`, `Shape.Repeats`, `Shape.Ends`: the rounds, without a limit to their number.

## Main results
* `SymOp.length_apply`: how much an operation makes the stack higher.
* `Pass.narrow_of_check`: a check asks for classes that are still there.
* `Shape.fresh_of_round`: a round asks for places that no round before it asked for.
* `Shape.Repeats.ends`: rounds come to an end, and their limit is never met.
* `Shape.exists_settled_pass`: the last round asks for nothing.
-/

namespace Suspension

/-! ## The height of the stack -/

namespace SymFrame

variable {f f' : SymFrame}

theorem takeTags_eq_ok {n : Nat} {stack ts rest : List Tag} (h : takeTags n stack = .ok ts rest) :
    stack = ts ++ rest ∧ ts.length ≤ n := by
  induction stack generalizing n ts rest with
  | nil =>
    cases n with
    | zero =>
      cases h
      exact ⟨rfl, Nat.le_refl _⟩
    | succ n => cases h
  | cons t stack ih =>
    cases n with
    | zero =>
      cases h
      exact ⟨rfl, Nat.zero_le _⟩
    | succ n =>
      rw [takeTags] at h
      split at h
      · next fits =>
        split at h
        · next ts' rest' taken =>
          cases h
          obtain ⟨rfl, short⟩ := ih taken
          have wide : 1 ≤ t.words := by unfold Tag.words; cases t.width <;> decide
          exact ⟨rfl, by rw [List.length_cons]; omega⟩
        · cases h
      · cases h

theorem popWords_eq_ok {n : Nat} {ts : List Tag} (h : popWords n f = .ok ts f') :
    f.stack = ts ++ f'.stack ∧ ts.length ≤ n ∧ f'.locals = f.locals := by
  unfold popWords at h
  split at h
  · next taken =>
    cases h
    exact ⟨(takeTags_eq_ok taken).1, (takeTags_eq_ok taken).2, rfl⟩
  · cases h

theorem pop_eq_ok {t : Tag} (h : pop f = .ok t f') : f.stack = t :: f'.stack ∧ f'.locals = f.locals := by
  unfold pop at h
  split at h
  · cases h
  · next hs =>
    cases h
    exact ⟨hs, rfl⟩

theorem getLocal_eq_ok {slot : Slot} {t : Tag} (h : getLocal slot f = .ok t f') :
    f.locals[slot]? = some t ∧ f' = f := by
  unfold getLocal at h
  split at h
  · next hs =>
    cases h
    exact ⟨hs, rfl⟩
  · cases h

theorem dup_eq_ok {words under : Nat} (h : dup words under f = .ok () f') :
    ∃ top below rest, f.stack = top ++ (below ++ rest) ∧ top.length ≤ words ∧ below.length ≤ under ∧
      f'.stack = top ++ below ++ top ++ rest ∧ f'.locals = f.locals := by
  obtain ⟨top, f₁, htop, h⟩ := bind_apply_eq_ok h
  obtain ⟨below, f₂, hbelow, h⟩ := bind_apply_eq_ok h
  cases h
  obtain ⟨first, short, same⟩ := popWords_eq_ok htop
  obtain ⟨second, short', same'⟩ := popWords_eq_ok hbelow
  exact ⟨top, below, f₂.stack, by rw [first, second], short, short', rfl, same'.trans same⟩

theorem swap_eq_ok (h : swap f = .ok () f') :
    ∃ top below rest, f.stack = top ++ (below ++ rest) ∧ f'.stack = below ++ top ++ rest ∧
      f'.locals = f.locals := by
  obtain ⟨top, f₁, htop, h⟩ := bind_apply_eq_ok h
  obtain ⟨below, f₂, hbelow, h⟩ := bind_apply_eq_ok h
  cases h
  obtain ⟨first, -, same⟩ := popWords_eq_ok htop
  obtain ⟨second, -, same'⟩ := popWords_eq_ok hbelow
  exact ⟨top, below, f₂.stack, by rw [first, second], rfl, same'.trans same⟩

/-- A method is entered with an empty stack. -/
theorem stack_root {className : String} {method : Method} {root : SymFrame}
    (h : SymFrame.root className method = .ok root) : root.stack = [] := by
  obtain ⟨signature, -, h⟩ := bind_eq_ok.1 h
  obtain ⟨slots, -, h⟩ := bind_eq_ok.1 h
  cases h
  rfl

end SymFrame

namespace SymOp

variable {op : SymOp} {f f' : SymFrame}

/-- An operation copies at most two entries of the stack. -/
def Small (op : SymOp) : Prop := ∀ words under, op = .dup words under → words ≤ 2

/-- Only pushes and copies make the stack higher, and by two places at most. -/
theorem length_apply (small : op.Small) (h : op.apply f = .ok () f') :
    f'.stack.length ≤ f.stack.length + 2 := by
  have popped {t : Tag} {e e' : SymFrame} (h : SymFrame.pop e = .ok t e') :
      e.stack.length = e'.stack.length + 1 := by
    rw [(SymFrame.pop_eq_ok h).1, List.length_cons]
  have same {slot : Slot} {t : Tag} {e e' : SymFrame} (h : SymFrame.getLocal slot e = .ok t e') :
      e' = e := (SymFrame.getLocal_eq_ok h).2
  cases op with
  | push t =>
    cases h
    exact Nat.le_succ _
  | pop =>
    obtain ⟨t, f₁, hpop, h⟩ := bind_apply_eq_ok h
    cases h
    have := popped hpop
    omega
  | popWords n =>
    obtain ⟨ts, f₁, hpop, h⟩ := bind_apply_eq_ok h
    cases h
    rw [(SymFrame.popWords_eq_ok hpop).1, List.length_append]
    omega
  | set slot tag =>
    obtain ⟨t, f₁, hpop, h⟩ := bind_apply_eq_ok h
    cases h
    have := popped hpop
    simp only [SymFrame.setLocal]
    omega
  | get slot tag =>
    obtain ⟨t, f₁, hget, h⟩ := bind_apply_eq_ok h
    cases h
    rw [same hget]
    exact Nat.le_succ _
  | inc slot | read slot =>
    obtain ⟨t, f₁, hget, h⟩ := bind_apply_eq_ok h
    cases h
    rw [same hget]
    omega
  | aaload =>
    obtain ⟨index, f₁, hindex, h⟩ := bind_apply_eq_ok h
    obtain ⟨array, f₂, harray, h⟩ := bind_apply_eq_ok h
    cases h
    have := popped hindex
    have := popped harray
    simp only [List.length_cons]
    omega
  | dup words under =>
    obtain ⟨top, below, rest, hf, short, -, hf', -⟩ := SymFrame.dup_eq_ok h
    have := small words under rfl
    simp only [hf, hf', List.length_append]
    omega
  | swap =>
    obtain ⟨top, below, rest, hf, hf', -⟩ := SymFrame.swap_eq_ok h
    simp only [hf, hf', List.length_append]
    omega
  | suspend site =>
    cases h
    exact Nat.le_add_right _ _

end SymOp

/-- The operations of a block make the stack higher by two entries each at most. -/
theorem Step.length_run {steps : List Step} (small : ∀ s ∈ steps, s.op.Small) {f f' : SymFrame}
    (h : run steps f = .ok f') : f'.stack.length ≤ f.stack.length + 2 * steps.length := by
  induction steps generalizing f with
  | nil =>
    cases h
    exact Nat.le_add_right _ _
  | cons s rest ih =>
    rw [run] at h
    split at h
    · next f₁ h₁ =>
      have first := SymOp.length_apply (small s (by simp)) h₁
      have later := ih (fun x hx => small x (by simp [hx])) h
      rw [List.length_cons]
      omega
    · cases h

/-! ## The places where a class is forgotten -/

namespace Widening

variable {f : SymFrame} {w u : Widening}

/-- What a frame holds at the place. -/
def tag? (f : SymFrame) : Widening → Option Tag
  | .slot s => f.locals[s]?
  | .stack index => f.stack.reverse[index]?

/-- A class is there to be forgotten. -/
def Narrow (w : Widening) (f : SymFrame) : Prop := ∃ t, w.tag? f = some t ∧ t.isNarrow = true

theorem getElem?_widenLocal (f : SymFrame) (slot s : Slot) :
    (f.widenLocal slot).locals[s]? = if slot = s then f.locals[s]?.map Tag.widen else f.locals[s]? := by
  unfold SymFrame.widenLocal
  split
  · next t ht =>
    by_cases own : slot = s
    · subst own
      rw [if_pos rfl, ht, Option.map_some, Tag.widen]
      split
      · simp
      · exact ht
    · rw [if_neg own]
      split
      · rw [Std.ExtTreeMap.getElem?_insert, if_neg (by simpa using own)]
      · rfl
  · next none =>
    split
    · next own => rw [← own, none, Option.map_none]
    · rfl

theorem getElem?_widenStack (f : SymFrame) (index i : Nat) :
    (f.widenStack index).stack.reverse[i]? =
      if index = i then f.stack.reverse[i]?.map Tag.widen else f.stack.reverse[i]? := by
  unfold SymFrame.widenStack
  by_cases there : i < f.stack.length
  · split
    · next inside =>
      rw [List.getElem?_reverse (by simpa using there), List.getElem?_reverse there, List.length_modify,
        List.getElem?_modify]
      by_cases own : index = i
      · simp [own]
      · have other : f.stack.length - 1 - index ≠ f.stack.length - 1 - i := by omega
        simp [own, other]
    · next outside => rw [if_neg (by omega)]
  · have nothing : f.stack.reverse[i]? = none := by simpa using there
    rw [nothing, Option.map_none, ite_self]
    split
    · simpa using there
    · exact nothing

/-- Forgetting a class changes what is known at its place only.  A slot and a place on the stack never
interfere. -/
theorem tag?_apply (f : SymFrame) (w u : Widening) :
    w.tag? (u.apply f) = if u = w then (w.tag? f).map Tag.widen else w.tag? f := by
  cases u with
  | slot s =>
    cases w with
    | slot s' => simpa only [tag?, apply, slot.injEq] using getElem?_widenLocal f s s'
    | stack index =>
      have stack : (f.widenLocal s).stack = f.stack := by
        unfold SymFrame.widenLocal
        split
        · split <;> rfl
        · rfl
      rw [apply, tag?, stack, if_neg (by simp), tag?]
  | stack index =>
    cases w with
    | stack i => simpa only [tag?, apply, stack.injEq] using getElem?_widenStack f index i
    | slot s =>
      have locals : (f.widenStack index).locals = f.locals := by
        unfold SymFrame.widenStack
        split <;> rfl
      rw [apply, tag?, locals, if_neg (by simp), tag?]

theorem not_narrow_apply_self (w : Widening) (f : SymFrame) : ¬ w.Narrow (w.apply f) := by
  rintro ⟨t, ht, narrow⟩
  rw [tag?_apply, if_pos rfl] at ht
  obtain ⟨t', -, rfl⟩ := Option.map_eq_some_iff.1 ht
  rw [Tag.widen] at narrow
  split at narrow
  · cases narrow
  · contradiction

theorem Narrow.of_apply (h : w.Narrow (u.apply f)) : w.Narrow f := by
  obtain ⟨t, ht, narrow⟩ := h
  rw [tag?_apply] at ht
  split at ht
  · next own =>
    subst own
    exact absurd ⟨t, by rw [tag?_apply, if_pos rfl]; exact ht, narrow⟩ (not_narrow_apply_self u f)
  · exact ⟨t, ht, narrow⟩

end Widening

/-- Classes that have been asked for are not there any more. -/
theorem Widenings.not_narrow_forget {widened : Widenings} {place : Nat} {w : Widening}
    (asked : (place, w) ∈ widened) (f : SymFrame) : ¬ w.Narrow (widened.forget place f) := by
  have gone (ws : Widenings) (f : SymFrame) (h : (place, w) ∈ ws ∨ ¬ w.Narrow f) :
      ¬ w.Narrow (ws.foldl (fun f w => w.2.apply f) f) := by
    induction ws generalizing f with
    | nil => exact h.resolve_left (by simp)
    | cons u rest ih =>
      refine ih (u.2.apply f) ?_
      rcases h with h | h
      · rcases List.mem_cons.1 h with rfl | h
        · exact .inr (Widening.not_narrow_apply_self w f)
        · exact .inl h
      · exact .inr fun narrow => h narrow.of_apply
  exact gone _ f (.inl (List.mem_filter.2 ⟨asked, by simp⟩))

theorem Widenings.length_stack_forget (widened : Widenings) (place : Nat) (f : SymFrame) :
    (widened.forget place f).stack.length = f.stack.length := by
  have kinds := (SymFrame.Alike.forget (S := fun _ => True) f widened place).stack
  simpa using (congrArg List.length kinds).symm

/-! ## The frames that blocks are entered with -/

namespace Pass

variable {g : Graph} {metrics : Metrics} {widened : Widenings} {root : SymFrame} {p p' : Pass}

/-- Blocks are entered with the classes forgotten that were asked for, and with no more on the stack than
`height`. -/
def Entered (widened : Widenings) (height : Nat) (p : Pass) : Prop :=
  ∀ (q : Nat) (entry : Entry), p.entries[q]? = some entry →
    ∃ f, entry.frame = widened.forget q f ∧ f.stack.length ≤ height

theorem Entered.mono {height more : Nat} (h : p.Entered widened height) (le : height ≤ more) :
    p.Entered widened more := fun q entry he =>
  (h q entry he).imp fun _ hf => ⟨hf.1, Nat.le_trans hf.2 le⟩

theorem Entered.spread {height : Nat} (h : p.Entered widened height) (place : Nat) {exit : SymFrame}
    (low : exit.stack.length + 1 ≤ height) (edges : List Edge) :
    (p.spread widened place exit edges).Entered widened height := by
  intro q entry he
  rcases (spread_spec widened place exit edges p).fresh q entry he with old | ⟨kind, -, rfl⟩
  · exact h q entry old
  · refine ⟨_, rfl, ?_⟩
    cases kind <;> simp only [EdgeKind.deliver, SymFrame.clearStack, List.length_cons, List.length_nil] <;>
      omega

/-- What the visit of a block adds to the height of the stack, the delivery of its edges included. -/
theorem length_interpret {b : Block} (hb : b ∈ g.blocks)
    (small : ∀ b ∈ g.blocks, ∀ s ∈ b.steps, s.op.Small) {entry : SymFrame} {v : Visit}
    (h : b.interpret (b.opening metrics entry) = .ok v) :
    v.trail.frame.stack.length + 1 ≤
      entry.stack.length + Shape.visitBound g := by
  have ran := Step.length_run (small b hb) (Trail.run_of_foldlM (Block.interpret_eq_ok h).2)
  have opened : (b.opening metrics entry).stack.length ≤ entry.stack.length + 1 := by
    unfold Block.opening
    split
    · simp
    · exact Nat.le_succ _
  have share := le_total_of_mem (fun b : Block => b.steps.length) hb
  simp only [Shape.visitBound] at ran ⊢
  omega

theorem Entered.traverse (small : ∀ b ∈ g.blocks, ∀ s ∈ b.steps, s.op.Small) {n height : Nat}
    (h : p.Entered widened height) (done : (traverse g metrics widened n p).result = .ok p') :
    p'.Entered widened (height + n * Shape.visitBound g) := by
  induction n generalizing p height with
  | zero =>
    cases done
    exact h.mono (Nat.le_add_right _ _)
  | succ n ih =>
    rcases traverse_cases done with ⟨-, rfl⟩ | ⟨place, pending, -, ⟨b, entry, v, hb, hentry, hv, done⟩ | ⟨-, done⟩⟩
    · exact h.mono (Nat.le_add_right _ _)
    · obtain ⟨f, hf, low⟩ := h place entry hentry
      have grown := length_interpret (List.mem_of_getElem? hb) small hv
      rw [hf, widened.length_stack_forget] at grown
      have visited : Entered widened (height + Shape.visitBound g)
          ⟨p.entries, p.visits.insert place v, pending⟩ := h.mono (Nat.le_add_right _ _)
      refine (ih (visited.spread place (by omega) b.edges) done).mono ?_
      rw [Nat.succ_mul]
      omega
    · refine (ih (p := ⟨p.entries, p.visits, pending⟩) h done).mono ?_
      exact Nat.add_le_add_left (Nat.mul_le_mul_right _ (Nat.le_succ n)) _

theorem entered_ofGraph (small : ∀ b ∈ g.blocks, ∀ s ∈ b.steps, s.op.Small) (empty : root.stack = [])
    (h : (ofGraph g metrics widened root).result = .ok p) : p.Entered widened (Shape.stackBound g) := by
  have started : (({} : Pass).enter widened 0 root none).Entered widened 0 := by
    intro q entry he
    rw [enter, Std.ExtTreeMap.getElem?_insert] at he
    split at he
    · next same =>
      obtain rfl : 0 = q := by simpa using same
      cases he
      exact ⟨root, rfl, by simp [empty]⟩
    · simp at he
  exact (started.traverse small h).mono (by rw [Nat.zero_add]; exact Nat.le_refl _)

/-! ## What a check asks for -/

theorem narrow_of_needsWidening {entry incoming : Tag} (h : needsWidening entry incoming = true) :
    entry.isNarrow = true := by
  simp only [needsWidening, Bool.and_eq_true] at h
  exact h.1.1

theorem narrow_of_slotWidenings {entry incoming : SymFrame} {w : Widening}
    (h : w ∈ slotWidenings entry incoming) : w.Narrow entry := by
  obtain ⟨⟨slot, expected⟩, listed, h⟩ := List.mem_filterMap.1 h
  simp only at h
  split at h
  · split at h
    · next needs =>
      cases h
      exact ⟨expected, Std.ExtTreeMap.mem_toList_iff_getElem?_eq_some.1 listed, narrow_of_needsWidening needs⟩
    · cases h
  · cases h

theorem narrow_of_stackWidenings {entry incoming : SymFrame} {w : Widening}
    (h : w ∈ stackWidenings entry incoming) : w.Narrow entry := by
  obtain ⟨⟨⟨expected, found⟩, index⟩, listed, h⟩ := List.mem_filterMap.1 h
  simp only at h
  split at h
  · next needs =>
    cases h
    have zipped := (List.mem_zipIdx_iff_getElem?.1 listed)
    rw [List.getElem?_zip_eq_some] at zipped
    exact ⟨expected, zipped.1, narrow_of_needsWidening needs⟩
  · cases h

/-- A check asks only for classes that are still there. -/
def Asks (p : Pass) (g : Graph) (asked : Widenings) : Prop :=
  ∀ w ∈ asked, ∃ entry b, p.entries[w.1]? = some entry ∧ g.block? w.1 = some b ∧ w.2.Narrow entry.frame

variable {live : Liveness} {policy : JoinPolicy} {asked : Widenings}

/-- What the check of an edge asks for is a class to be forgotten, in a slot or on the stack. -/
theorem asks_of_checkEdge {place : Nat} {exit : SymFrame} {e : Edge}
    (h : (p.checkEdge g live policy place exit e).result = .ok asked) : p.Asks g asked := by
  unfold checkEdge at h
  split at h
  · next entry target hentry htarget =>
    have here {ws : List Widening} (narrow : ∀ w ∈ ws, w.Narrow entry.frame) :
        p.Asks g (ws.map (e.target, ·)) := by
      intro w hw
      obtain ⟨x, hx, rfl⟩ := List.mem_map.1 hw
      exact ⟨entry, target, hentry, htarget, narrow x hx⟩
    have slots : p.Asks g ((slotWidenings entry.frame (e.kind.deliver exit)).map (e.target, ·)) :=
      here fun w => narrow_of_slotWidenings
    have stack : p.Asks g ((if target.handler then []
        else stackWidenings entry.frame (e.kind.deliver exit)).map (e.target, ·)) := by
      refine here fun w hw => ?_
      split at hw
      · cases hw
      · exact narrow_of_stackWidenings hw
    split at h
    · cases h
      simp [Asks]
    · split at h
      · cases h
        exact slots
      · dsimp only at h
        split at h
        · simp only [Reported.result_bind, Reported.result_fail] at h
          cases h
        · simp only [Reported.result_bind] at h
          obtain ⟨_, -, h⟩ := bind_eq_ok.1 h
          cases h
          exact fun w hw => (List.mem_append.1 hw).elim (slots w) (stack w)
  · cases h
    simp [Asks]

theorem asks_of_check {places : List Nat} (h : (p.check g live policy places).result = .ok asked) :
    p.Asks g asked := by
  have append {xs ys : Widenings} (hx : p.Asks g xs) (hy : p.Asks g ys) : p.Asks g (xs ++ ys) :=
    fun w hw => (List.mem_append.1 hw).elim (hx w) (hy w)
  have edges {place : Nat} {exit : SymFrame} {es : List Edge} {asked : Widenings}
      (h : (p.checkEdges g live policy place exit es).result = .ok asked) : p.Asks g asked := by
    induction es generalizing asked with
    | nil =>
      cases h
      simp [Asks]
    | cons e rest ih =>
      rw [checkEdges] at h
      simp only [Reported.result_bind] at h
      obtain ⟨first, hfirst, h⟩ := bind_eq_ok.1 h
      obtain ⟨others, later, h⟩ := bind_eq_ok.1 h
      cases h
      exact append (asks_of_checkEdge hfirst) (ih later)
  induction places generalizing asked with
  | nil =>
    cases h
    simp [Asks]
  | cons place rest ih =>
    rw [check] at h
    split at h <;> simp only [Reported.result_bind] at h
    all_goals
      obtain ⟨first, hfirst, h⟩ := bind_eq_ok.1 h
      obtain ⟨others, later, h⟩ := bind_eq_ok.1 h
      cases h
      refine append ?_ (ih later)
    · exact edges hfirst
    · cases hfirst
      simp [Asks]

end Pass

/-! ## Rounds -/

/-- The places of a graph where classes may have to be forgotten. -/
def Graph.places (g : Graph) : Widenings :=
  (List.range g.blocks.length).flatMap fun q =>
    ((List.range 65536).map fun s => (q, .slot (UInt16.ofNat s))) ++
      (List.range (Shape.stackBound g)).map fun index => (q, .stack index)

theorem Graph.mem_places {g : Graph} {q : Nat} {w : Widening} {f : SymFrame} (hq : q < g.blocks.length)
    (low : f.stack.length ≤ Shape.stackBound g) (narrow : w.Narrow f) : (q, w) ∈ g.places := by
  refine List.mem_flatMap.2 ⟨q, List.mem_range.2 hq, List.mem_append.2 ?_⟩
  obtain ⟨t, ht, -⟩ := narrow
  cases w with
  | slot s => exact .inl (List.mem_map.2 ⟨s.toNat, List.mem_range.2 s.toNat_lt, by simp⟩)
  | stack index =>
    have inside : index < f.stack.length := by simpa using (List.getElem?_eq_some_iff.1 ht).1
    exact .inr (List.mem_map.2 ⟨index, List.mem_range.2 (by omega), rfl⟩)

theorem Graph.length_places (g : Graph) : g.places.length + 1 = Shape.roundBound g := by
  have all (n slots : Nat) : ((List.range n).flatMap fun q =>
      ((List.range slots).map fun s => ((q, .slot (UInt16.ofNat s)) : Nat × Widening)) ++
        (List.range (Shape.stackBound g)).map fun index => (q, .stack index)).length =
      n * (slots + Shape.stackBound g) := by
    induction n with
    | zero => simp
    | succ n ih =>
      rw [List.range_succ, List.flatMap_append, List.length_append, ih, Nat.succ_mul]
      simp
  rw [places, all, Shape.roundBound]

namespace Widenings

variable {ws more : Widenings}

theorem mem_add {w : Nat × Widening} : w ∈ ws.add more ↔ w ∈ ws ∨ w ∈ more := by
  unfold add
  induction more generalizing ws with
  | nil => simp
  | cons u rest ih =>
    rw [List.foldl_cons, ih]
    split
    · next old =>
      rw [List.mem_cons]
      constructor
      · exact Or.imp_right .inr
      · rintro (h | rfl | h)
        · exact .inl h
        · exact .inl old
        · exact .inr h
    · simp [or_assoc]

/-- What is asked for later comes behind what was asked for before. -/
theorem prefix_add (ws more : Widenings) : ws <+: ws.add more := by
  unfold add
  induction more generalizing ws with
  | nil => exact List.prefix_refl ws
  | cons u rest ih =>
    rw [List.foldl_cons]
    split
    · exact ih ws
    · exact (List.prefix_append ws [u]).trans (ih (ws ++ [u]))

theorem nodup_add (h : ws.Nodup) (more : Widenings) : (ws.add more).Nodup := by
  unfold add
  induction more generalizing ws with
  | nil => exact h
  | cons u rest ih =>
    rw [List.foldl_cons]
    split
    · exact ih h
    · next new =>
      refine ih (List.nodup_append.2 ⟨h, by simp, ?_⟩)
      rintro x hx y hy rfl
      exact new (List.mem_singleton.1 hy ▸ hx)

end Widenings

namespace Shape

/-- One round: every block that can be reached is visited, and the other edges are checked. -/
def round (g : Graph) (live : Liveness) (metrics : Metrics) (policy : JoinPolicy) (root : SymFrame)
    (widened : Widenings) : Except AnalysisError (Pass × Widenings) := do
  let p ← (Pass.ofGraph g metrics widened root).result
  let asked ← (p.check g live policy (List.range g.blocks.length)).result
  return (p, asked)

/-- So many rounds one after the other have asked for more, and this is all that they have asked for. -/
inductive Repeats (g : Graph) (live : Liveness) (metrics : Metrics) (policy : JoinPolicy) (root : SymFrame) :
    Nat → Widenings → Prop
  | start : Repeats g live metrics policy root 0 []
  | again {k : Nat} {widened : Widenings} {p : Pass} {asked : Widenings}
      (before : Repeats g live metrics policy root k widened)
      (went : round g live metrics policy root widened = .ok (p, asked)) (more : widened.add asked ≠ widened) :
      Repeats g live metrics policy root (k + 1) (widened.add asked)

/-- Rounds come to an end with one that fails, or with one that asks for no more. -/
inductive Ends (g : Graph) (live : Liveness) (metrics : Metrics) (policy : JoinPolicy) (root : SymFrame) :
    Except AnalysisError Shape → Prop
  | failed {k : Nat} {widened : Widenings} {e : AnalysisError}
      (before : Repeats g live metrics policy root k widened)
      (went : round g live metrics policy root widened = .error e) : Ends g live metrics policy root (.error e)
  | settled {k : Nat} {widened : Widenings} {p : Pass} {asked : Widenings}
      (before : Repeats g live metrics policy root k widened)
      (went : round g live metrics policy root widened = .ok (p, asked)) (same : widened.add asked = widened) :
      Ends g live metrics policy root (.ok (p.shape g))

variable {g : Graph} {metrics : Metrics} {s : Shape} {live : Liveness} {method : Method} {policy : JoinPolicy}
  {root : SymFrame} {widened asked : Widenings} {p : Pass} {k : Nat}

theorem round_eq_ok : round g live metrics policy root widened = .ok (p, asked) ↔
    (Pass.ofGraph g metrics widened root).result = .ok p ∧
      (p.check g live policy (List.range g.blocks.length)).result = .ok asked := by
  rw [round, bind_eq_ok]
  constructor
  · rintro ⟨p', traversed, h⟩
    obtain ⟨asked', checked, same⟩ := bind_eq_ok.1 h
    cases same
    exact ⟨traversed, checked⟩
  · rintro ⟨traversed, checked⟩
    exact ⟨p, traversed, bind_eq_ok.2 ⟨asked, checked, rfl⟩⟩

section

variable (small : ∀ b ∈ g.blocks, ∀ s ∈ b.steps, s.op.Small) (empty : root.stack = [])

include small empty

/-- Whatever a round asks for is still there, so no round before has asked for it, and it is one of the places
of the graph. -/
theorem fresh_of_round (went : round g live metrics policy root widened = .ok (p, asked)) {w : Nat × Widening}
    (hw : w ∈ asked) : w ∉ widened ∧ w ∈ g.places := by
  obtain ⟨traversed, checked⟩ := round_eq_ok.1 went
  obtain ⟨entry, b, he, hb, narrow⟩ := Pass.asks_of_check checked w hw
  obtain ⟨f, hf, low⟩ := Pass.entered_ofGraph small empty traversed w.1 entry he
  constructor
  · intro old
    exact Widenings.not_narrow_forget old f (hf ▸ narrow)
  · have lowered : entry.frame.stack.length ≤ stackBound g := by
      rw [hf, widened.length_stack_forget]
      exact low
    exact Graph.mem_places (List.getElem?_eq_some_iff.1 hb).1 lowered narrow

/-- A round adds nothing only if it asks for nothing. -/
theorem add_eq_self_iff (went : round g live metrics policy root widened = .ok (p, asked)) :
    widened.add asked = widened ↔ asked = [] := by
  constructor
  · intro same
    refine List.eq_nil_iff_forall_not_mem.2 fun w hw => ?_
    have new : w ∉ widened := (fresh_of_round small empty went hw).1
    exact new (same ▸ Widenings.mem_add.2 (.inr hw))
  · rintro rfl
    rfl

theorem Repeats.subset_places (h : Repeats g live metrics policy root k widened) : widened ⊆ g.places := by
  induction h with
  | start => exact List.nil_subset _
  | again before went more ih =>
    intro w hw
    rcases Widenings.mem_add.1 hw with old | new
    · exact ih old
    · exact (fresh_of_round small empty went new).2

omit small empty in
theorem Repeats.nodup (h : Repeats g live metrics policy root k widened) : widened.Nodup := by
  induction h with
  | start => exact List.nodup_nil
  | again before went more ih => exact Widenings.nodup_add ih _

omit small empty in
/-- Every round that is not the last one asks for some place more. -/
theorem Repeats.le_length (h : Repeats g live metrics policy root k widened) : k ≤ widened.length := by
  induction h with
  | start => exact Nat.zero_le _
  | @again k widened p asked before went more ih =>
    have longer : widened.length < (widened.add asked).length := by
      have front := Widenings.prefix_add widened asked
      refine Nat.lt_of_le_of_ne front.length_le fun same => more ?_
      exact (front.eq_of_length same).symm
    omega

/-- No more rounds ask for more than there are places to ask for. -/
theorem Repeats.le_places (h : Repeats g live metrics policy root k widened) : k ≤ g.places.length :=
  Nat.le_trans h.le_length (List.subperm_of_subset h.nodup (h.subset_places small empty)).length_le

/-- Rounds come to an end, if there may be enough of them. -/
theorem Repeats.ends (before : Repeats g live metrics policy root k widened) {n : Nat}
    (enough : g.places.length < k + n) (method : Method) :
    Ends g live metrics policy root (rounds g live method metrics policy root n widened).result := by
  induction n generalizing k widened with
  | zero => exact absurd (before.le_places small empty) (by omega)
  | succ n ih =>
    rw [rounds.eq_def]
    simp only [Reported.result_bind]
    cases traversed : (Pass.ofGraph g metrics widened root).result with
    | error e => exact .failed before (by rw [round, traversed, error_bind])
    | ok p =>
      rw [ok_bind]
      cases checked : (p.check g live policy (List.range g.blocks.length)).result with
      | error e => exact .failed before (by rw [round, traversed, ok_bind, checked, error_bind])
      | ok asked =>
        have went := round_eq_ok.2 ⟨traversed, checked⟩
        rw [ok_bind]
        split
        · next same => exact .settled before went same
        · next more => exact ih (.again before went more) (by omega)

end

/-- The steps of a graph that was built copy no more than two entries of the stack. -/
theorem small_of_build {className : String} {config : Config} (built : Graph.build className method config = .ok g) :
    ∀ b ∈ g.blocks, ∀ s ∈ b.steps, s.op.Small := by
  intro b hb s hs words under copies
  obtain ⟨i, site, effect, -, heffect, hm⟩ := Graph.step_of_build built hb hs
  exact Instr.le_two_of_mem_effect heffect (copies ▸ hm)

/-- The rounds over a graph that was built come to an end. -/
theorem ends_of_build {className : String} {config : Config} (built : Graph.build className method config = .ok g)
    (hroot : SymFrame.root className method = .ok root) (metrics : Metrics) (live : Liveness) (policy : JoinPolicy) :
    Ends g live metrics policy root (rounds g live method metrics policy root (roundBound g) []).result :=
  Repeats.start.ends (small_of_build built) (SymFrame.stack_root hroot) (by rw [← g.length_places]; omega) method

/-- The shape of a method is that of a traversal whose check asks for nothing. -/
theorem exists_settled_pass {className : String} {config : Config}
    (h : (ofMethod className method config metrics).result = .ok s) :
    ∃ g root widened p, Graph.build className method config = .ok g ∧
      SymFrame.root className method = .ok root ∧
      (Pass.ofGraph g metrics widened root).result = .ok p ∧
      (p.check g (Liveness.compute g) config.joinPolicy (List.range g.blocks.length)).result = .ok [] ∧
      s = p.shape g := by
  obtain ⟨g, root, built, hroot, h⟩ := exists_rounds h
  have ends := ends_of_build built hroot metrics (Liveness.compute g) config.joinPolicy
  rw [h] at ends
  cases ends with
  | @settled k widened p asked before went same =>
    obtain rfl := (add_eq_self_iff (small_of_build built) (SymFrame.stack_root hroot) went).1 same
    obtain ⟨traversed, checked⟩ := round_eq_ok.1 went
    exact ⟨g, root, widened, p, built, hroot, traversed, checked, rfl⟩

end Shape

end Suspension
