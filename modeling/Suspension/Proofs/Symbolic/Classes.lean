import Mathlib.Data.List.Forall2
import Suspension.Proofs.Symbolic.Paths
import Suspension.Proofs.Symbolic.Rounds

/-!
# Classes on paths

The class that a site records may contradict a path only if two joins on the path work together: one
hides a reference behind something else that came first, and a later one reveals at its place the class
that another path brings.  On any other path every class fits that is recorded at the sites of the path.

## Main definitions
* `Fits`, `Knows`: how what is recorded at a place stands to what a path brings there.
* `SymFrame.Related`, `SymFrame.Matches`: frames that are related place by place, and what keeps them so.
* `Pass.Hides`, `Pass.Reveals`: what joins do to references.
* `Pass.Clear`: nothing that a path loses sight of is revealed on it.

## Main results
* `SymOp.apply_related`, `Step.run_related`: operations keep both relations.
* `Pass.edge_fits`: an edge fits the block that it leads to.
* `classes_fit`: what a site records fits the paths that come to it.
-/

namespace Suspension

/-- What is recorded at a place does not contradict what a path brings there. -/
def Fits (recorded brought : Option Tag) : Prop :=
  ∀ c d, recorded = some (.ref c) → c ≠ objectClass → brought = some (.ref d) → c = d

/-- A reference that a path brings is recorded, with its class or without any. -/
def Knows (recorded brought : Option Tag) : Prop :=
  ∀ d, brought = some (.ref d) → recorded = some (.ref d) ∨ recorded = some .object

theorem Knows.fits {a b c : Option Tag} (known : Knows b c) (h : Fits a b) : Fits a c := by
  intro x y ha narrow hc
  rcases known y hc with hb | hb
  · exact h x y ha narrow hb
  · exact absurd (h x objectClass ha narrow hb) narrow

/-! ## Relations that operations keep -/

/-- What a relation between recorded and brought tags has to bear. -/
structure Lasting (r : Option Tag → Option Tag → Prop) : Prop where
  refl : ∀ o, r o o
  gone : ∀ o, r o none
  overwritten : ∀ t o, t.isWide = true → r (some t) o → r none o
  element : ∀ t u, t.kind = u.kind → r (some t) (some u) → r (some t.element) (some u.element)

theorem Tag.element_object : Tag.object.element = .object := by decide

/-- What is neither a reference nor null has no elements of which a class is known. -/
theorem Tag.element_of_kind {t : Tag} (h : t.kind ≠ .reference) : t.element = .object := by
  cases t with
  | null | ref name => exact absurd rfl h
  | _ => rfl

theorem fits_lasting : Lasting Fits := by
  refine ⟨fun o c d hc _ hd => ?_, fun o c d _ _ hd => ?_, fun t o _ _ c d hc => ?_, fun t u kind h => ?_⟩
  · cases hc.symm.trans hd
    rfl
  · cases hd
  · cases hc
  · intro c d hc narrow hd
    rw [Option.some.injEq] at hc hd
    by_cases reference : t.kind = .reference
    · cases t <;> cases reference
      · cases hc
      · next x =>
        have proper : x ≠ objectClass := by
          rintro rfl
          rw [show Tag.ref objectClass = .object from rfl, Tag.element_object] at hc
          cases hc
          exact narrow rfl
        cases u <;> cases kind
        · cases hd
        · next y =>
          cases h x y rfl proper rfl
          rw [hc] at hd
          cases hd
          rfl
    · rw [Tag.element_of_kind reference] at hc
      cases hc
      exact absurd rfl narrow

theorem knows_lasting : Lasting Knows := by
  refine ⟨fun o d hd => .inl hd, fun o d hd => ?_, fun t o wide h d hd => ?_, fun t u kind h => ?_⟩
  · cases hd
  · rcases h d hd with e | e <;> cases e <;> cases wide
  · intro d hd
    rw [Option.some.injEq] at hd
    by_cases reference : u.kind = .reference
    · cases u <;> cases reference
      · cases hd
      · next y =>
        rcases h y rfl with e | e <;> cases e
        · exact .inl (congrArg some hd)
        · exact .inr (congrArg some Tag.element_object)
    · exact .inr (congrArg some (Tag.element_of_kind (kind ▸ reference)))

/-! ## Related frames -/

/-- Tags of one kind that are related. -/
def Tag.Related (r : Option Tag → Option Tag → Prop) (t u : Tag) : Prop :=
  t.kind = u.kind ∧ r (some t) (some u)

/-- Frames whose stacks hold values of the same kinds, and that are related place by place. -/
structure SymFrame.Related (r : Option Tag → Option Tag → Prop) (f g : SymFrame) : Prop where
  stack : List.Forall₂ (Tag.Related r) f.stack g.stack
  slots : ∀ s : Slot, r f.locals[s]? g.locals[s]?

namespace SymFrame.Related

variable {r : Option Tag → Option Tag → Prop} {f g f' g' : SymFrame}

/-- Related stacks are related place by place. -/
theorem forall₂_iff {xs ys : List Tag} (none : r none none) :
    List.Forall₂ (Tag.Related r) xs ys ↔
      xs.map Tag.kind = ys.map Tag.kind ∧ ∀ i : Nat, r xs[i]? ys[i]? := by
  constructor
  · intro h
    induction h with
    | nil => exact ⟨rfl, fun _ => none⟩
    | cons first _ ih =>
      refine ⟨by rw [List.map_cons, List.map_cons, first.1, ih.1], fun i => ?_⟩
      cases i with
      | zero => exact first.2
      | succ i => exact ih.2 i
  · rintro ⟨kinds, h⟩
    induction xs generalizing ys with
    | nil =>
      obtain rfl : ys = [] := by simpa using kinds.symm
      exact .nil
    | cons x xs ih =>
      cases ys with
      | nil => cases kinds
      | cons y ys =>
        rw [List.map_cons, List.map_cons, List.cons.injEq] at kinds
        exact .cons ⟨kinds.1, h 0⟩ (ih kinds.2 fun i => h (i + 1))

theorem kinds (lasting : Lasting r) (h : f.Related r g) : f.stack.map Tag.kind = g.stack.map Tag.kind :=
  ((forall₂_iff (lasting.refl none)).1 h.stack).1

/-- Frames of one shape are related if they are at every place. -/
theorem iff_tag? (lasting : Lasting r) :
    f.Related r g ↔ f.stack.map Tag.kind = g.stack.map Tag.kind ∧ ∀ w : Widening, r (w.tag? f) (w.tag? g) := by
  constructor
  · intro h
    refine ⟨h.kinds lasting, fun w => ?_⟩
    cases w with
    | slot s => exact h.slots s
    | stack index => exact ((forall₂_iff (lasting.refl none)).1 (List.forall₂_reverse_iff.2 h.stack)).2 index
  · rintro ⟨same, h⟩
    refine ⟨List.forall₂_reverse_iff.1 ?_, fun s => h (.slot s)⟩
    refine (forall₂_iff (lasting.refl none)).2 ⟨?_, fun i => h (.stack i)⟩
    rw [List.map_reverse, List.map_reverse, same]

theorem push (h : f.Related r g) {t u : Tag} (same : t.kind = u.kind) (related : r (some t) (some u)) :
    SymFrame.Related r { f with stack := t :: f.stack } { g with stack := u :: g.stack } :=
  ⟨.cons ⟨same, related⟩ h.stack, h.slots⟩

/-- An edge delivers related frames. -/
theorem deliver (lasting : Lasting r) (h : f.Related r g) (k : EdgeKind) :
    (k.deliver f).Related r (k.deliver g) := by
  cases k with
  | branch | fallthrough => exact h
  | subroutine => exact h.push rfl (lasting.refl _)
  | exception => exact ⟨.nil, h.slots⟩

end SymFrame.Related

/-- Stores of related tags into related slots. -/
theorem Locals.related_store {r : Option Tag → Option Tag → Prop} (lasting : Lasting r) {m n : Locals}
    {slot : Slot} {t u : Tag} (same : t.kind = u.kind) (related : r (some t) (some u))
    (h : ∀ s : Slot, r m[s]? n[s]?) (s : Slot) : r (m.store slot t)[s]? (n.store slot u)[s]? := by
  rw [getElem?_store, getElem?_store, ← Tag.isWide_of_kind same]
  split
  · exact related
  · split
    · exact lasting.refl none
    · rw [getElem?_clearBelow, getElem?_clearBelow]
      split
      · next cleared =>
        split
        · exact lasting.refl none
        · obtain ⟨t', ht', wide⟩ := Option.map_eq_some_iff.1 cleared.2.2
          have := h s
          rw [ht'] at this
          exact lasting.overwritten t' _ wide this
      · split
        · exact lasting.gone _
        · exact h s

/-! ## Operations on related frames -/

/-- Where both succeed on related frames, their results and the frames that they leave are related. -/
def SymFrame.Matches {α : Type} (r : Option Tag → Option Tag → Prop) (R : α → α → Prop) (x y : SymM α) : Prop :=
  ∀ f g a b f' g', f.Related r g → x f = .ok a f' → y g = .ok b g' → R a b ∧ f'.Related r g'

namespace SymFrame.Matches

variable {α β : Type} {r : Option Tag → Option Tag → Prop} {R : α → α → Prop} {Q : β → β → Prop}

theorem bind {x y : SymM α} {k l : α → SymM β} (first : Matches r R x y)
    (next : ∀ a b, R a b → Matches r Q (k a) (l b)) : Matches r Q (x >>= k) (y >>= l) := by
  intro f g c d f'' g'' rel hf hg
  obtain ⟨a, f', hx, hk⟩ := bind_apply_eq_ok hf
  obtain ⟨b, g', hy, hl⟩ := bind_apply_eq_ok hg
  obtain ⟨related, rel'⟩ := first f g a b f' g' rel hx hy
  exact next a b related f' g' c d f'' g'' rel' hk hl

theorem pure {a b : α} (h : R a b) : Matches r R (pure a) (pure b) := by
  intro f g a' b' f' g' rel hf hg
  cases hf
  cases hg
  exact ⟨h, rel⟩

theorem push {t u : Tag} (related : t.Related r u) :
    Matches r (fun _ _ => True) (SymFrame.push t) (SymFrame.push u) := by
  intro f g a b f' g' rel hf hg
  cases hf
  cases hg
  exact ⟨trivial, rel.push related.1 related.2⟩

theorem pushAll {ts us : List Tag} (related : List.Forall₂ (Tag.Related r) ts us) :
    Matches r (fun _ _ => True) (SymFrame.pushAll ts) (SymFrame.pushAll us) := by
  intro f g a b f' g' rel hf hg
  cases hf
  cases hg
  exact ⟨trivial, List.rel_append related rel.stack, rel.slots⟩

theorem pop : Matches r (Tag.Related r) SymFrame.pop SymFrame.pop := by
  intro f g t u f' g' rel hf hg
  obtain ⟨fstack, flocals⟩ := pop_eq_ok hf
  obtain ⟨gstack, glocals⟩ := pop_eq_ok hg
  obtain ⟨stack, slots⟩ := rel
  rw [fstack, gstack, List.forall₂_cons] at stack
  exact ⟨stack.1, stack.2, by rw [flocals, glocals]; exact slots⟩

/-- Tags of the same kinds cover the same words, so as many are taken from both stacks. -/
theorem popWords (lasting : Lasting r) (n : Nat) :
    Matches r (List.Forall₂ (Tag.Related r)) (SymFrame.popWords n) (SymFrame.popWords n) := by
  intro f g ts us f' g' rel hf hg
  obtain ⟨us', g'', hg', same, -⟩ := SymFrame.Follows.popWords (S := fun _ => False) n f g ts f'
    ⟨rel.kinds lasting, fun _ hs => hs.elim⟩ hf
  cases hg.symm.trans hg'
  have length : ts.length = us.length := by simpa using congrArg List.length same
  obtain ⟨fstack, -, flocals⟩ := popWords_eq_ok hf
  obtain ⟨gstack, -, glocals⟩ := popWords_eq_ok hg
  obtain ⟨stack, slots⟩ := rel
  rw [fstack, gstack] at stack
  have taken := List.forall₂_take ts.length stack
  have left := List.forall₂_drop ts.length stack
  rw [List.take_left, length, List.take_left] at taken
  rw [List.drop_left, length, List.drop_left] at left
  exact ⟨taken, left, by rw [flocals, glocals]; exact slots⟩

theorem dup (lasting : Lasting r) (words under : Nat) :
    Matches r (fun _ _ => True) (SymFrame.dup words under) (SymFrame.dup words under) :=
  (popWords lasting words).bind fun _ _ top => (popWords lasting under).bind fun _ _ below =>
    pushAll (List.rel_append (List.rel_append top below) top)

theorem swap (lasting : Lasting r) : Matches r (fun _ _ => True) SymFrame.swap SymFrame.swap :=
  (popWords lasting 1).bind fun _ _ top => (popWords lasting 1).bind fun _ _ below =>
    pushAll (List.rel_append below top)

theorem set (lasting : Lasting r) (slot : Slot) (tag : Option Tag) :
    Matches r (fun _ _ => True) (SymOp.set slot tag).apply (SymOp.set slot tag).apply := by
  refine pop.bind fun t u related f g a b f' g' rel hf hg => ?_
  cases hf
  cases hg
  refine ⟨trivial, rel.stack, ?_⟩
  cases tag with
  | none => exact Locals.related_store lasting related.1 related.2 rel.slots
  | some given => exact Locals.related_store lasting rfl (lasting.refl _) rel.slots

end SymFrame.Matches

namespace SymOp

variable {r : Option Tag → Option Tag → Prop} {op : SymOp} {S : Slot → Prop} {f g f' g' : SymFrame}

/-- A slot that is read holds related tags of one kind. -/
theorem getLocal_related (rel : f.Related r g) (alike : f.Alike S g) {slot : Slot} (known : S slot) {t u : Tag}
    (hf : SymFrame.getLocal slot f = .ok t f') (hg : SymFrame.getLocal slot g = .ok u g') :
    t.Related r u ∧ f'.Related r g' := by
  obtain ⟨ht, rfl⟩ := SymFrame.getLocal_eq_ok hf
  obtain ⟨hu, rfl⟩ := SymFrame.getLocal_eq_ok hg
  have same := alike.slots slot known
  have related := rel.slots slot
  rw [ht, hu] at same related
  exact ⟨⟨Option.some.inj same, related⟩, rel⟩

theorem aaload_related (lasting : Lasting r) (rel : f.Related r g) (loads : SymOp.aaload.LoadsReference f)
    (loads' : SymOp.aaload.LoadsReference g) (hf : SymOp.aaload.apply f = .ok () f')
    (hg : SymOp.aaload.apply g = .ok () g') : f'.Related r g' := by
  obtain ⟨index, f₁, hindex, hf⟩ := bind_apply_eq_ok hf
  obtain ⟨array, f₂, harray, hf⟩ := bind_apply_eq_ok hf
  obtain ⟨index', g₁, hindex', hg⟩ := bind_apply_eq_ok hg
  obtain ⟨array', g₂, harray', hg⟩ := bind_apply_eq_ok hg
  obtain ⟨-, rel₁⟩ := SymFrame.Matches.pop f g index index' f₁ g₁ rel hindex hindex'
  obtain ⟨related, rel₂⟩ := SymFrame.Matches.pop f₁ g₁ array array' f₂ g₂ rel₁ harray harray'
  have first : array.element.kind = .reference := loads rfl index array f₂.stack (by
    rw [(SymFrame.pop_eq_ok hindex).1, (SymFrame.pop_eq_ok harray).1])
  have second : array'.element.kind = .reference := loads' rfl index' array' g₂.stack (by
    rw [(SymFrame.pop_eq_ok hindex').1, (SymFrame.pop_eq_ok harray').1])
  have elements : array.element.Related r array'.element :=
    ⟨first.trans second.symm, lasting.element array array' related.1 related.2⟩
  exact (SymFrame.Matches.push elements f₂ g₂ () () f' g' rel₂ hf hg).2

/-- An operation that succeeds on two frames keeps them related.  Most operations act on the top of the stack,
where the general rules apply. -/
theorem apply_related (lasting : Lasting r) (rel : f.Related r g) (alike : f.Alike S g)
    (reads : ∀ slot, op.Reads slot → S slot) (loads : op.LoadsReference f) (loads' : op.LoadsReference g)
    (hf : op.apply f = .ok () f') (hg : op.apply g = .ok () g') : f'.Related r g' := by
  have plain (same : SymFrame.Matches r (fun _ _ => True) op.apply op.apply) : f'.Related r g' :=
    (same f g () () f' g' rel hf hg).2
  cases op with
  | push t => exact plain (.push ⟨rfl, lasting.refl _⟩)
  | pop => exact plain (SymFrame.Matches.pop.bind fun _ _ _ => .pure trivial)
  | popWords n => exact plain ((SymFrame.Matches.popWords lasting n).bind fun _ _ _ => .pure trivial)
  | set slot tag => exact plain (.set lasting slot tag)
  | get slot tag =>
    obtain ⟨t, f₁, read, hf⟩ := bind_apply_eq_ok hf
    obtain ⟨u, g₁, read', hg⟩ := bind_apply_eq_ok hg
    obtain ⟨related, rel₁⟩ := getLocal_related rel alike (reads slot (.inr (.inr ⟨tag, rfl⟩))) read read'
    have pushed : (tag.getD t).Related r (tag.getD u) := by
      cases tag with
      | none => exact related
      | some given => exact ⟨rfl, lasting.refl _⟩
    exact (SymFrame.Matches.push pushed f₁ g₁ () () f' g' rel₁ hf hg).2
  | inc slot | read slot =>
    obtain ⟨t, f₁, read, hf⟩ := bind_apply_eq_ok hf
    obtain ⟨u, g₁, read', hg⟩ := bind_apply_eq_ok hg
    cases hf
    cases hg
    obtain ⟨-, rfl⟩ := SymFrame.getLocal_eq_ok read
    obtain ⟨-, rfl⟩ := SymFrame.getLocal_eq_ok read'
    exact rel
  | aaload => exact aaload_related lasting rel loads loads' hf hg
  | dup words under => exact plain (.dup lasting words under)
  | swap => exact plain (.swap lasting)
  | suspend site => exact plain (.pure trivial)

end SymOp

theorem Step.LoadReferences.left {steps rest : List Step} {f : SymFrame}
    (h : LoadReferences (steps ++ rest) f) : LoadReferences steps f := by
  induction steps generalizing f with
  | nil => trivial
  | cons s steps ih => exact ⟨h.1, fun f' applied => ih (h.2 f' applied)⟩

theorem Graph.LoadReferences.last {g : Graph} {place last : Nat} {es : List Edge} (path : g.Path place es last)
    {f f' : SymFrame} (h : g.LoadReferences place es f) (followed : g.follow place es f = .ok f') :
    Step.LoadReferences (g.steps last) f' := by
  induction path generalizing f with
  | done =>
    cases followed
    exact h
  | along _ _ _ _ _ _ ih =>
    obtain ⟨exit, ran, followed⟩ := bind_eq_ok.1 followed
    exact ih (h.2 exit ran) followed

/-- Steps that succeed on two frames keep them related.  What a step reads is live or defined, so it is alike in
both frames. -/
theorem Step.run_related {r : Option Tag → Option Tag → Prop} (lasting : Lasting r) {steps : List Step}
    {a : Accesses} {live : Slot → Prop} {f g f' g' : SymFrame} (rel : f.Related r g)
    (alike : f.Alike (fun s => live s ∨ s ∈ a.defs) g) (uses : ∀ s ∈ (a.after steps).uses, live s)
    (loads : LoadReferences steps f) (loads' : LoadReferences steps g) (hf : run steps f = .ok f')
    (hg : run steps g = .ok g') : f'.Related r g' := by
  induction steps generalizing a f g with
  | nil =>
    cases hf
    cases hg
    exact rel
  | cons step rest ih =>
    rw [run] at hf hg
    split at hf
    · next f₁ h₁ =>
      have reads (slot : Slot) (hr : step.op.Reads slot) : live slot ∨ slot ∈ a.defs :=
        (Accesses.mem_of_reads hr).elim .inr fun used =>
          .inl (uses slot (Accesses.mem_uses_after rest used))
      obtain ⟨g₁, hg₁, alike₁⟩ := SymOp.apply_alike alike reads loads.1 loads'.1 h₁
      have rel₁ := SymOp.apply_related lasting rel alike reads loads.1 loads'.1 h₁ hg₁
      have alike₂ : f₁.Alike (fun s => live s ∨ s ∈ (a.step step.op).defs) g₁ :=
        alike₁.mono fun s hs => by rwa [Accesses.mem_defs_step, ← or_assoc] at hs
      rw [hg₁] at hg
      exact ih rel₁ alike₂ uses (loads.2 f₁ h₁) (loads'.2 g₁ hg₁) hf hg
    · cases hf

/-! ## Edges -/

/-- At every place, forgetting leaves what was known or forgets a class.  Widenings at the place are applied one
by one, and a class that one forgets, none brings back. -/
theorem Widenings.tag?_forget (widened : Widenings) (place : Nat) (f : SymFrame) (w : Widening) :
    w.tag? (widened.forget place f) = w.tag? f ∨
      ∃ c, w.tag? f = some (.ref c) ∧ w.tag? (widened.forget place f) = some .object := by
  unfold forget
  induction widened.filter (·.1 = place) generalizing f with
  | nil => exact .inl rfl
  | cons u rest ih =>
    rw [List.foldl_cons]
    have first : w.tag? (u.2.apply f) = w.tag? f ∨
        ∃ c, w.tag? f = some (.ref c) ∧ w.tag? (u.2.apply f) = some .object := by
      rw [Widening.tag?_apply]
      split
      · cases h : w.tag? f with
        | none => exact .inl rfl
        | some t =>
          rw [Option.map_some, Tag.widen]
          cases t with
          | ref c =>
            split
            · exact .inr ⟨c, rfl, rfl⟩
            · exact .inl rfl
          | _ => exact .inl rfl
      · exact .inl rfl
    rcases ih (u.2.apply f) with later | ⟨c, hc, later⟩
    · rw [later]
      exact first
    · refine .inr ?_
      rcases first with same | ⟨c', hc', -⟩
      · exact ⟨c, same ▸ hc, later⟩
      · exact ⟨c', hc', later⟩

theorem fits_forget (widened : Widenings) (place : Nat) (f : SymFrame) (w : Widening) :
    Fits (w.tag? (widened.forget place f)) (w.tag? f) := by
  intro c d hc narrow hd
  rcases widened.tag?_forget place f w with same | ⟨-, -, forgotten⟩
  · rw [same, hd] at hc
    cases hc
    rfl
  · cases hc.symm.trans forgotten
    exact absurd rfl narrow

theorem knows_forget (widened : Widenings) (place : Nat) (f : SymFrame) (w : Widening) :
    Knows (w.tag? (widened.forget place f)) (w.tag? f) := by
  intro d hd
  rcases widened.tag?_forget place f w with same | ⟨-, -, forgotten⟩
  · exact .inl (same ▸ hd)
  · exact .inr forgotten

theorem eq_of_not_needsWidening {c d : String} (h : ¬ needsWidening (.ref c) (.ref d) = true)
    (narrow : c ≠ objectClass) : c = d := by
  simpa [needsWidening, Tag.isNarrow, narrow] using h

theorem fits_of_slotWidenings {entry incoming : SymFrame} (h : Pass.slotWidenings entry incoming = [])
    (s : Slot) : Fits entry.locals[s]? incoming.locals[s]? := by
  intro c d hc narrow hd
  have none := List.filterMap_eq_nil_iff.1 h (s, .ref c)
    (Std.ExtTreeMap.mem_toList_iff_getElem?_eq_some.2 hc)
  simp only [hd] at none
  split at none
  · cases none
  · next fits => exact eq_of_not_needsWidening fits narrow

theorem fits_of_stackWidenings {entry incoming : SymFrame} (h : Pass.stackWidenings entry incoming = [])
    (index : Nat) : Fits entry.stack.reverse[index]? incoming.stack.reverse[index]? := by
  intro c d hc narrow hd
  have zipped : (entry.stack.reverse.zip incoming.stack.reverse)[index]? = some (.ref c, .ref d) :=
    List.getElem?_zip_eq_some.2 ⟨hc, hd⟩
  have none := List.filterMap_eq_nil_iff.1 h ((.ref c, .ref d), index)
    (List.mem_zipIdx_iff_getElem?.2 zipped)
  simp only at none
  split at none
  · cases none
  · next fits => exact eq_of_not_needsWidening fits narrow

namespace Pass

variable {g : Graph} {metrics : Metrics} {widened : Widenings} {root : SymFrame} {p : Pass} {live : Liveness}
  {policy : JoinPolicy}

/-- An edge that asks for nothing fits what its target was entered with. -/
theorem fits_of_checkEdge {place : Nat} {exit : SymFrame} {e : Edge}
    (h : (p.checkEdge g live policy place exit e).result = .ok []) {entry : Entry} {target : Block}
    (hentry : p.entries[e.target]? = some entry) (htarget : g.block? e.target = some target)
    (regular : e.kind ≠ .exception) (noHandler : target.handler = false)
    (other : entry.via ≠ some (place, e.kind)) (w : Widening) :
    Fits (w.tag? entry.frame) (w.tag? (e.kind.deliver exit)) := by
  unfold checkEdge at h
  rw [hentry, htarget] at h
  simp only [other, regular, if_false, noHandler, Bool.not_false, Bool.true_and] at h
  split at h
  · simp only [Reported.result_bind, Reported.result_fail] at h
    cases h
  · simp only [Reported.result_bind] at h
    obtain ⟨_, -, h⟩ := bind_eq_ok.1 h
    obtain ⟨slots, stack⟩ := List.append_eq_nil_iff.1 (Except.ok.inj h)
    cases w with
    | slot s => exact fits_of_slotWidenings (List.map_eq_nil_iff.1 slots) s
    | stack index => exact fits_of_stackWidenings (List.map_eq_nil_iff.1 stack) index

/-- An edge to a block that is no handler fits what the block was visited with. -/
theorem edge_fits (complete : p.Complete g metrics widened root)
    (settled : (p.check g live policy (List.range g.blocks.length)).result = .ok []) {place : Nat} {b : Block}
    {v u : Visit} (hb : g.block? place = some b) (hv : p.visits[place]? = some v) {e : Edge}
    (he : e ∈ b.edges) (regular : e.kind ≠ .exception) {target : Block}
    (htarget : g.block? e.target = some target) (noHandler : target.handler = false)
    (hu : p.visits[e.target]? = some u) (w : Widening) :
    Fits (w.tag? u.opening) (w.tag? (e.kind.deliver v.trail.frame)) := by
  obtain ⟨entry, target', u', hentry, htarget', hu', -, opened, made⟩ := complete.edge_visited hb hv he
  cases htarget.symm.trans htarget'
  cases hu.symm.trans hu'
  rw [Block.opening_regular noHandler] at opened
  rw [opened]
  by_cases first : entry.via = some (place, e.kind)
  · rw [made first]
    exact fits_forget widened e.target _ w
  · have inRange : place < g.blocks.length := (List.getElem?_eq_some_iff.1 hb).1
    obtain ⟨own, hown, sub⟩ := exists_checkEdge_of_check settled (List.mem_range.2 inRange) hb hv he
    obtain rfl : own = [] := List.eq_nil_of_subset_nil sub
    exact fits_of_checkEdge hown hentry htarget regular noHandler first w

/-! ## Paths -/

/-- An edge hides a reference: its target was visited with something else in the place. -/
def Hides (p : Pass) (place : Nat) (e : Edge) : Prop :=
  ∃ v u w d, p.visits[place]? = some v ∧ p.visits[e.target]? = some u ∧
    Widening.tag? (e.kind.deliver v.trail.frame) w = some (.ref d) ∧ ∀ c, w.tag? u.opening ≠ some (.ref c)

/-- An edge reveals a class: its target was visited with a class in the place of something else. -/
def Reveals (p : Pass) (place : Nat) (e : Edge) : Prop :=
  ∃ v u w c, p.visits[place]? = some v ∧ p.visits[e.target]? = some u ∧
    Widening.tag? u.opening w = some (.ref c) ∧ c ≠ objectClass ∧
      ∀ d, w.tag? (e.kind.deliver v.trail.frame) ≠ some (.ref d)

/-- No edge of a path reveals a class. -/
def Discreet (p : Pass) : Nat → List Edge → Prop
  | _, [] => True
  | place, e :: rest => ¬ p.Reveals place e ∧ p.Discreet e.target rest

/-- No edge of a path reveals a class behind one that hides a reference. -/
def Clear (p : Pass) : Nat → List Edge → Prop
  | _, [] => True
  | place, e :: rest => (¬ p.Hides place e ∧ p.Clear e.target rest) ∨ p.Discreet e.target rest

/-- A frame is related to the one that the block at a place was visited with, which it looks like. -/
def Relates (p : Pass) (g : Graph) (r : Option Tag → Option Tag → Prop) (place : Nat) (f : SymFrame) : Prop :=
  p.Resembles g place f ∧ ∃ v, p.visits[place]? = some v ∧ v.opening.Related r f

/-- The visit of a block and the path that comes to it stay related while they go through its steps. -/
theorem Relates.run {r : Option Tag → Option Tag → Prop} (lasting : Lasting r) {place : Nat}
    {f f₁ f₂ : SymFrame} {v : Visit} (h : p.Relates g r place f) (hv : p.visits[place]? = some v)
    {steps rest : List Step} (split : g.steps place = steps ++ rest)
    (loads : Step.LoadReferences (g.steps place) v.opening) (loads' : Step.LoadReferences (g.steps place) f)
    (recorded : Step.run steps v.opening = .ok f₁) (ran : Step.run steps f = .ok f₂) : f₁.Related r f₂ := by
  obtain ⟨⟨b, v', hb, hv', -, alike⟩, v'', hv'', rel⟩ := h
  cases hv.symm.trans hv'
  cases hv.symm.trans hv''
  have start : v.opening.Alike
      (fun s => s ∈ (Liveness.compute g).liveIn place ∨ s ∈ ({} : Accesses).defs) f :=
    alike.mono fun s hs => hs.resolve_right (by simp)
  have uses (s : Slot) (hs : s ∈ (({} : Accesses).after steps).uses) :
      s ∈ (Liveness.compute g).liveIn place := by
    refine Liveness.mem_compute_of_uses hb ?_
    rw [Graph.steps_eq hb] at split
    show s ∈ (({} : Accesses).after b.steps).uses
    rw [split, Accesses.after, List.foldl_append]
    exact Accesses.mem_uses_after rest hs
  rw [split] at loads loads'
  exact Step.run_related lasting rel start uses loads.left loads'.left recorded ran

/-- What an edge of a path finds: between the frame that the visit delivers and the one that the path delivers a
relation lasts, and the target was visited with a frame that fits what the visit delivers.  The recorded visit
ran the same steps, so relations between the frames last through them. -/
theorem Relates.along {r : Option Tag → Option Tag → Prop} (lasting : Lasting r)
    (complete : p.Complete g metrics widened root)
    (settled : (p.check g (Liveness.compute g) .reject (List.range g.blocks.length)).result = .ok [])
    (loads : ∀ (place : Nat) (v : Visit), p.visits[place]? = some v →
      Step.LoadReferences (g.steps place) v.opening)
    {place : Nat} {f exit : SymFrame} (h : p.Relates g r place f) {b target : Block} {e : Edge}
    (here : g.block? place = some b) (out : e ∈ b.edges) (regular : e.kind ≠ .exception)
    (there : g.block? e.target = some target) (noHandler : target.handler = false)
    (loads' : Step.LoadReferences (g.steps place) f) (ran : Step.run (g.steps place) f = .ok exit) :
    ∃ v u, p.visits[place]? = some v ∧ p.visits[e.target]? = some u ∧
      (∀ w : Widening, Fits (w.tag? u.opening) (w.tag? (e.kind.deliver v.trail.frame))) ∧
      (∀ w : Widening, r (w.tag? (e.kind.deliver v.trail.frame)) (w.tag? (e.kind.deliver exit))) ∧
      ∀ {q : Option Tag → Option Tag → Prop}, Lasting q →
        (∀ w : Widening, q (w.tag? u.opening) (w.tag? (e.kind.deliver exit))) →
          p.Relates g q e.target (e.kind.deliver exit) := by
  have relates := h
  obtain ⟨⟨b', v, hb, hv, interpreted, alike⟩, -⟩ := h
  cases here.symm.trans hb
  obtain ⟨exit', ran', delivered⟩ := Resembles.run hb interpreted alike (loads _ v hv) loads'
  cases ran.symm.trans ran'
  obtain ⟨u, hu, interpreted', entered⟩ := edge_alike complete settled hb hv out regular there noHandler
  have recorded : Step.run (g.steps place) v.opening = .ok v.trail.frame := by
    rw [Graph.steps_eq hb]
    exact Trail.run_of_foldlM (Block.interpret_eq_ok interpreted).2
  have rel := relates.run lasting hv (List.append_nil _).symm (loads _ v hv) loads' recorded ran
  have arrived := entered.trans (delivered e out regular)
  exact ⟨v, u, hv, hu, edge_fits complete settled hb hv out regular there noHandler hu,
    ((SymFrame.Related.iff_tag? lasting).1 (rel.deliver lasting e.kind)).2, fun lasting' hq =>
      ⟨⟨target, u, there, hu, interpreted', arrived⟩, u, hu,
        (SymFrame.Related.iff_tag? lasting').2 ⟨arrived.stack, hq⟩⟩⟩

section

variable (complete : p.Complete g metrics widened root)
  (settled : (p.check g (Liveness.compute g) .reject (List.range g.blocks.length)).result = .ok [])
  (loads : ∀ (place : Nat) (v : Visit), p.visits[place]? = some v →
    Step.LoadReferences (g.steps place) v.opening)

include complete settled loads

/-- What is recorded goes on to fit a path that reveals nothing. -/
theorem Discreet.fits {place last : Nat} {es : List Edge} (path : g.Path place es last)
    (discreet : p.Discreet place es) {f f' : SymFrame} (h : p.Relates g Fits place f)
    (loads' : g.LoadReferences place es f) (followed : g.follow place es f = .ok f') :
    p.Relates g Fits last f' := by
  induction path generalizing f with
  | done =>
    cases followed
    exact h
  | @along place last b target e rest here out regular there noHandler more ih =>
    obtain ⟨exit, ran, followed⟩ := bind_eq_ok.1 followed
    obtain ⟨v, u, hv, hu, fits, lasts, next⟩ :=
      h.along fits_lasting complete settled loads here out regular there noHandler loads'.1 ran
    refine ih discreet.2 (next fits_lasting fun w c d hc narrow hd => ?_) (loads'.2 exit ran) followed
    by_cases shown : ∃ x, w.tag? (e.kind.deliver v.trail.frame) = some (.ref x)
    · obtain ⟨x, hx⟩ := shown
      obtain rfl := fits w c x hc narrow hx
      exact lasts w c d hx narrow hd
    · exact absurd ⟨v, u, w, c, hv, hu, hc, narrow, fun x hx => shown ⟨x, hx⟩⟩ discreet.1

/-- As long as nothing is hidden, references are known; from then on, what is recorded fits.  Each edge of the
path either keeps what is known, or all later ones are discreet. -/
theorem Clear.fits {place last : Nat} {es : List Edge} (path : g.Path place es last)
    (clear : p.Clear place es) {f f' : SymFrame} (h : p.Relates g Knows place f)
    (loads' : g.LoadReferences place es f) (followed : g.follow place es f = .ok f') :
    p.Relates g Fits last f' := by
  induction path generalizing f with
  | done =>
    cases followed
    obtain ⟨resembles, v, hv, rel⟩ := h
    obtain ⟨kinds, knows⟩ := (SymFrame.Related.iff_tag? knows_lasting).1 rel
    exact ⟨resembles, v, hv, (SymFrame.Related.iff_tag? fits_lasting).2
      ⟨kinds, fun w => (knows w).fits (fits_lasting.refl _)⟩⟩
  | @along place last b target e rest here out regular there noHandler more ih =>
    obtain ⟨exit, ran, followed⟩ := bind_eq_ok.1 followed
    obtain ⟨v, u, hv, hu, fits, lasts, next⟩ :=
      h.along knows_lasting complete settled loads here out regular there noHandler loads'.1 ran
    rcases clear with ⟨kept, clear⟩ | discreet
    · refine ih clear (next knows_lasting fun w d hd => ?_) (loads'.2 exit ran) followed
      obtain ⟨x, hx⟩ : ∃ x, w.tag? (e.kind.deliver v.trail.frame) = some (.ref x) :=
        (lasts w d hd).elim (fun e => ⟨d, e⟩) fun e => ⟨objectClass, e⟩
      obtain ⟨c, hc⟩ : ∃ c, w.tag? u.opening = some (.ref c) := by
          exact Classical.byContradiction fun none => kept ⟨v, u, w, x, hv, hu, hx, fun c hc => none ⟨c, hc⟩⟩
      by_cases narrow : c = objectClass
      · exact .inr (hc.trans (by rw [narrow]; rfl))
      · obtain rfl := fits w c x hc narrow hx
        rcases lasts w d hd with same | forgotten
        · cases hx.symm.trans same
          exact .inl hc
        · cases hx.symm.trans forgotten
          exact absurd rfl narrow
    · exact Discreet.fits complete settled loads more discreet
        (next fits_lasting fun w => (lasts w).fits (fits w)) (loads'.2 exit ran) followed

end

/-- A method knows the references that it is entered with. -/
theorem relates_root (complete : p.Complete g metrics widened root) {b : Block}
    (block : g.block? 0 = some b) (noHandler : b.handler = false) : p.Relates g Knows 0 root := by
  obtain ⟨b', v, hb, hv, interpreted⟩ := complete.visit 0 _ complete.entry
  cases block.symm.trans hb
  rw [Block.opening_regular noHandler] at interpreted
  refine ⟨(Start.entry block noHandler).resembles complete, v, hv, ?_⟩
  rw [(Block.interpret_eq_ok interpreted).1, SymFrame.Related.iff_tag? knows_lasting]
  exact ⟨(SymFrame.Alike.forget (S := fun _ => True) root widened 0).stack.symm, knows_forget widened 0 root⟩

/-- What is recorded at a site was found where the site is. -/
theorem run_of_site {className : String} {method : Method} {config : Config}
    (built : Graph.build className method config = .ok g) (complete : p.Complete g metrics widened root)
    {site last place : Nat} {snapshot : SymFrame} (recorded : (p.shape g).site? site = some snapshot)
    {before rest : List Step} (there : g.steps last = before ++ ⟨place, .suspend site⟩ :: rest) :
    ∃ v, p.visits[last]? = some v ∧ Step.run before v.opening = .ok snapshot := by
  obtain ⟨q, v, hv, taken⟩ := Shape.exists_visit_of_site recorded
  obtain ⟨c, hc, interpreted⟩ := complete.interpreted q v hv
  rcases Trail.mem_snapshots (Block.interpret_eq_ok interpreted).2 taken with old | ⟨before', place', rest', hsteps, ran⟩
  · cases old
  · cases hb : g.block? last with
    | none => simp [Graph.steps, hb] at there
    | some b =>
      rw [Graph.steps_eq hb] at there
      obtain ⟨rfl, rfl⟩ := Graph.eq_of_suspends built hb hc there hsteps rfl rfl
      exact ⟨v, hv, ran⟩

end Pass

/-- A class that is recorded at a site fits every path that comes there, unless the path comes along an edge
that hides a reference and later along one that reveals a class. -/
theorem classes_fit {className : String} {method : Method} {config : Config} {metrics : Metrics}
    {s : Shape} (reject : config.joinPolicy = .reject)
    (accepted : (Shape.ofMethod className method config metrics).result = .ok s) :
    ∃ g root widened p, Graph.build className method config = .ok g ∧
      SymFrame.root className method = .ok root ∧
      (Pass.ofGraph g metrics widened root).result = .ok p ∧ s = p.shape g ∧
      (p.LoadReferences g root → ∀ {b : Block} {es : List Edge} {last site place : Nat}
        {before rest : List Step} {entered f snapshot : SymFrame},
        g.block? 0 = some b → b.handler = false → g.Path 0 es last → p.Clear 0 es →
        g.follow 0 es root = .ok entered → g.steps last = before ++ ⟨place, .suspend site⟩ :: rest →
        Step.run before entered = .ok f → s.site? site = some snapshot →
          ∀ w : Widening, Fits (w.tag? snapshot) (w.tag? f)) := by
  obtain ⟨g, root, widened, p, built, hroot, hp, settled, rfl⟩ := Shape.exists_settled_pass accepted
  refine ⟨g, root, widened, p, built, hroot, hp, rfl, fun loads => ?_⟩
  intro b es last site place before rest entered f snapshot block noHandler path clear followed there ran
    recorded
  have complete := Pass.complete_ofGraph (Graph.closed_of_build built) hp
  rw [reject] at settled
  have start : p.Start g root 0 root := .entry block noHandler
  have known := Pass.relates_root complete block noHandler
  have loads' := loads.paths 0 root es last start path
  have arrived := Pass.Clear.fits complete settled loads.visits path clear known loads' followed
  obtain ⟨v, hv, taken⟩ := Pass.run_of_site built complete recorded there
  have rel := arrived.run fits_lasting hv there (loads.visits last v hv) (loads'.last path followed) taken ran
  exact ((SymFrame.Related.iff_tag? fits_lasting).1 rel).2

/-- Comes to its pause on two ways, with objects of two classes in one slot and of one in another. -/
def fork : Method where
  access := staticFlag
  name := "execute"
  descriptor := "(I)V"
  maxLocals := 3
  code := {
    instrs := [.typed .new "app/A", .slot (.store .reference) 1, .typed .new "app/A",
      .slot (.store .reference) 2, .slot (.load .int) 0, .jump (.ifZero .eq) 1,
      .typed .new "app/B", .slot (.store .reference) 1,
      .label 1, .pause, .plain (.leave none)]
    regions := [] }

/-- The graph of the fork. -/
def forkGraph : Graph where
  blocks := [
    ⟨none, 0, false, [⟨0, .push (.ref "app/A")⟩, ⟨1, .set 1 none⟩, ⟨2, .push (.ref "app/A")⟩,
      ⟨3, .set 2 none⟩, ⟨4, .get 0 (some .int)⟩, ⟨5, .pop⟩], [⟨2, .branch⟩], some 1⟩,
    ⟨none, 6, false, [⟨6, .push (.ref "app/B")⟩, ⟨7, .set 1 none⟩], [], some 2⟩,
    ⟨some 1, 8, false, [⟨9, .suspend 0⟩], [], none⟩]
  sites := [.pause]

/-- The class that both ways bring is recorded, the other one is forgotten. -/
theorem fork_fits :
    ∃ s snapshot f, (Shape.ofMethod "app/C" fork {} ⟨1, 0, 3, []⟩).result = .ok s ∧
      s.site? 0 = some snapshot ∧ snapshot.locals[(1 : Slot)]? = some .object ∧
      snapshot.locals[(2 : Slot)]? = some (.ref "app/A") ∧ f.locals[(2 : Slot)]? = some (.ref "app/A") ∧
      ∀ w : Widening, Fits (w.tag? snapshot) (w.tag? f) := by
  have recorded : ((Shape.ofMethod "app/C" fork {} ⟨1, 0, 3, []⟩).result.toOption.bind fun s =>
      (s.site? 0).map fun f => (f.locals[(1 : Slot)]?, f.locals[(2 : Slot)]?)) =
      some (some .object, some (.ref "app/A")) := by decide +kernel
  obtain ⟨s, accepted, recorded⟩ := Option.bind_eq_some_iff.1 recorded
  obtain ⟨snapshot, hs, recorded⟩ := Option.map_eq_some_iff.1 recorded
  obtain ⟨g, root, widened, p, built, hroot, -, -, fits⟩ := classes_fit rfl (eq_ok_of_toOption accepted)
  have known : Graph.build "app/C" fork {} = .ok forkGraph := eq_ok_of_toOption (by decide +kernel)
  cases built.symm.trans known
  have brought : ((SymFrame.root "app/C" fork).toOption.bind fun root =>
      (forkGraph.follow 0 [⟨2, .branch⟩] root).toOption.map fun f => f.locals[(2 : Slot)]?) =
      some (some (.ref "app/A")) := by decide +kernel
  rw [hroot] at brought
  obtain ⟨f, followed, brought⟩ := Option.map_eq_some_iff.1 brought
  have none : ∀ b ∈ forkGraph.blocks, ∀ s ∈ b.steps, s.op ≠ .aaload := by decide
  have path : forkGraph.Path 0 [⟨2, .branch⟩] 2 := .along rfl (by decide) (by decide) rfl rfl .done
  have there : forkGraph.steps 2 = [] ++ ⟨9, .suspend 0⟩ :: [] := rfl
  refine ⟨s, snapshot, f, eq_ok_of_toOption accepted, hs, (Prod.mk.inj recorded).1, (Prod.mk.inj recorded).2,
    brought, ?_⟩
  exact fits ⟨fun place v _ => .block none place v.opening, fun place f es _ _ _ => .of_none none place es f⟩
    rfl rfl path (.inr trivial) (eq_ok_of_toOption followed) there rfl hs

end Suspension
