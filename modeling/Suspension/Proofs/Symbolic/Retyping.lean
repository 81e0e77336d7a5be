import Mathlib.Data.List.Induction
import Suspension.Proofs.Symbolic.FirstStores
import Suspension.Proofs.Symbolic.Rounds

/-!
# Handlers are retyped by their first store

What is recorded at a label is the frame that its block was entered with in the last round.  At a handler the
exception takes the place of the stack, and the first store of the block, if there is one, is recorded as well;
what is stored later in the block changes nothing.

## Main definitions
* `Metrics.handed`: the frame in which a handler starts.
* `Method.Known`: what is recorded at a label whose block was entered with some frame.
* `Shape.Retyped`: what a shape has of the labels and of the first stores of handlers.

## Main results
* `Trail.firstStore_of_lowers`: the first store of a block, and what it records.
* `Pass.getElem?_labels`, `Pass.getElem?_retypeAt`: the labels and the first stores of a shape, block by block.
* `Pass.visited_iff`: the blocks that are visited are those that can be reached.
* `Shape.retyped_of_ofMethod`: the shape of every method that is accepted.
-/

namespace Suspension

/-! ## The first store of a block -/

section

variable {className : String} {config : Config} {place site : Nat} {code front rest : List Instr} {steps : List Step}
  {t t' : Trail}

/-- A step is an operation of one of the instructions. -/
theorem Lowers.exists_instr (h : Lowers className config place site code steps) {s : Step} (hs : s ∈ steps) :
    ∃ i ∈ code, ∃ site effect, i.effect className config site = .ok effect ∧ s.op ∈ effect.ops := by
  induction h with
  | nil => cases hs
  | @cons _ _ i _ effect _ effect_eq _ ih =>
    rcases List.mem_append.1 hs with own | later
    · obtain ⟨op, mem, rfl⟩ := List.mem_map.1 own
      exact ⟨i, List.mem_cons_self, _, effect, effect_eq, mem⟩
    · obtain ⟨i', mem, found⟩ := ih later
      exact ⟨i', List.mem_cons_of_mem _ mem, found⟩

namespace Trail

/-- The first store is not replaced. -/
theorem firstStore_of_some (h : steps.foldlM follow t = .ok t') {x : Nat × Slot × Tag}
    (known : t.firstStore = some x) : t'.firstStore = some x := by
  induction steps generalizing t with
  | nil =>
    cases h
    exact known
  | cons s rest ih =>
    rw [List.foldlM_cons] at h
    obtain ⟨t₁, h₁, h⟩ := bind_eq_ok.1 h
    have kept := (follow_eq_ok h₁).2.2
    rw [known] at kept
    exact ih h kept

/-- Instructions that store nothing leave the first store alone. -/
theorem firstStore_of_none (lowers : Lowers className config place site code steps)
    (noStore : ∀ i ∈ code, i.storedSlot? = none) (h : steps.foldlM follow t = .ok t') :
    t'.firstStore = t.firstStore := by
  have silent : ∀ s ∈ steps, ∀ slot tag, s.op ≠ .set slot tag := by
    intro s hs slot tag
    obtain ⟨i, mem, _, _, effect_eq, hop⟩ := lowers.exists_instr hs
    exact i.ne_set_of_mem_effect effect_eq (noStore i mem) hop slot tag
  clear lowers
  induction steps generalizing t with
  | nil =>
    cases h
    rfl
  | cons s rest ih =>
    rw [List.foldlM_cons] at h
    obtain ⟨t₁, h₁, h⟩ := bind_eq_ok.1 h
    rw [ih h fun x hx => silent x (List.mem_cons_of_mem _ hx), (follow_eq_ok h₁).2.2]
    split
    · next set => exact absurd set (silent s List.mem_cons_self _ _)
    · rfl

/-- The first of the stores is recorded, with what it took off the stack or the tag that it gives. -/
theorem firstStore_of_lowers {k : Storage} {slot : Slot}
    (lowers : Lowers className config place site (front ++ .store k slot :: rest) steps)
    (noStore : ∀ i ∈ front, i.storedSlot? = none) (fresh : t.firstStore = none) (h : steps.foldlM follow t = .ok t') :
    ∃ f popped stack, Step.run (stepsOf className config front) t.frame = .ok f ∧ f.stack = popped :: stack ∧
      t'.firstStore = some (place + front.length, slot, k.tag?.getD popped) := by
  obtain ⟨xs, ys, rfl, first, second⟩ := lowers.split
  rw [List.foldlM_append] at h
  obtain ⟨t₁, h₁, h⟩ := bind_eq_ok.1 h
  cases second with
  | @cons _ _ _ _ effect more effect_eq later =>
    cases effect_eq
    rw [List.map_singleton, List.singleton_append, List.foldlM_cons] at h
    obtain ⟨t₂, h₂, h⟩ := bind_eq_ok.1 h
    obtain ⟨applied, -, recorded⟩ := follow_eq_ok h₂
    obtain ⟨popped, f, popped_eq, stored⟩ := bind_apply_eq_ok applied
    refine ⟨t₁.frame, popped, f.stack, ?_, (SymFrame.pop_eq_ok popped_eq).1, firstStore_of_some h ?_⟩
    · rw [← first.same.run_eq]
      exact run_of_foldlM h₁
    · injection stored with _ frame
      rw [firstStore_of_none first noStore h₁, fresh] at recorded
      rw [recorded, ← frame]
      simp [SymFrame.setLocal, Locals.store]

end Trail

end

namespace Method

variable {className : String} {config : Config}

/-- The first store behind a label, when the instructions from there on are interpreted from a frame: the frame
comes to the store, which takes its value off the stack and records it or the tag that it gives; or there is no
store. -/
inductive Finds (m : Method) (className : String) (config : Config) (start : Nat) (opening : SymFrame) :
    Option (Nat × Slot × Tag) → Prop
  | store {place : Nat} {k : Storage} {slot : Slot} {f : SymFrame} {popped : Tag} {stack : List Tag}
      (first : m.FirstStore start place k slot)
      (ran : Step.run (stepsOf className config (m.between start place)) opening = .ok f)
      (top : f.stack = popped :: stack) :
      Finds m className config start opening (some (place, slot, k.tag?.getD popped))
  | none (without : ∀ place k slot, ¬ m.FirstStore start place k slot) : Finds m className config start opening none

theorem Finds.firstStore {m : Method} {start place : Nat} {opening : SymFrame} {slot : Slot} {tag : Tag}
    (h : m.Finds className config start opening (some (place, slot, tag))) : ∃ k, m.FirstStore start place k slot := by
  cases h with
  | store first ran top => exact ⟨_, first⟩

theorem Finds.eq_of_firstStore {m : Method} {start place : Nat} {opening : SymFrame} {k : Storage} {slot : Slot}
    {found : Option (Nat × Slot × Tag)} (h : m.Finds className config start opening found)
    (store : m.FirstStore start place k slot) : ∃ tag, found = some (place, slot, tag) := by
  cases h with
  | store first ran top =>
    obtain ⟨rfl, -, rfl⟩ := store.unique first
    exact ⟨_, rfl⟩
  | none without => exact absurd store (without _ _ _)

/-- Following the steps of a stretch finds the first store behind its label.  Nothing in the stretch stores, or
the first instruction that does splits it. -/
theorem finds_of_lowers {m : Method} {n site : Nat} {s : Stretch} {l : Label} {steps : List Step} {opening : SymFrame}
    {t : Trail} (hs : (Graph.stretches m)[n]? = some s) (starts : s.label = some l)
    (lowers : Lowers className config s.start site s.instrs steps)
    (followed : steps.foldlM Trail.follow { frame := opening } = .ok t) :
    m.Finds className config s.start opening t.firstStore := by
  cases store : s.instrs.find? (·.storedSlot?.isSome) with
  | none =>
    have noStore (i) (mem : i ∈ s.instrs) : i.storedSlot? = none := by simpa using List.find?_eq_none.1 store i mem
    rw [Trail.firstStore_of_none lowers noStore followed]
    refine .none fun place k slot first => ?_
    obtain ⟨front, rest, split, -⟩ := (Graph.firstStore_iff hs starts).1 first
    have stored := noStore (.store k slot) (by simp [split])
    cases stored
  | some i =>
    obtain ⟨stores, front, rest, split, noStore⟩ := List.find?_eq_some_iff_append.1 store
    obtain ⟨⟨slot, k⟩, stored⟩ := Option.isSome_iff_exists.1 stores
    obtain rfl := Instr.eq_store stored
    have noStore (i) (mem : i ∈ front) : i.storedSlot? = none := by simpa using noStore i mem
    have first : m.FirstStore s.start (s.start + front.length) k slot :=
      (Graph.firstStore_iff hs starts).2 ⟨front, rest, split, rfl, noStore⟩
    have between : m.between s.start (s.start + front.length) = front := by
      rw [Graph.between_eq hs (by simp [split]), split, List.take_left]
    rw [split] at lowers
    obtain ⟨f, popped, stack, ran, top, found⟩ := Trail.firstStore_of_lowers lowers noStore rfl followed
    rw [found]
    refine .store first ?_ top
    rw [between]
    exact ran

end Method

/-! ## What is recorded for each block -/

/-- What is found in a map into which entries were put one after the other, if the entries that were put at one
key agree.  The induction is on the end of the list, since what was put last is found. -/
theorem getElem?_of_foldl {κ α β : Type} [Ord κ] [Std.TransOrd κ] [Std.LawfulEqOrd κ] {k : κ} {b : β}
    {f : Std.ExtTreeMap κ β → α → Std.ExtTreeMap κ β} {P : α → β → Prop} {l : List α}
    (hit : ∀ m a b, P a b → (f m a)[k]? = some b) (miss : ∀ m a, (∀ b, ¬ P a b) → (f m a)[k]? = m[k]?)
    (agree : ∀ a ∈ l, ∀ a' ∈ l, ∀ b b', P a b → P a' b' → b = b') :
    (l.foldl f ∅)[k]? = some b ↔ ∃ a ∈ l, P a b := by
  induction l using List.reverseRecOn with
  | nil => simp
  | append_singleton before a ih =>
    rw [List.foldl_append, List.foldl_cons, List.foldl_nil]
    have last : a ∈ before ++ [a] := by simp
    have earlier {a'} (mem : a' ∈ before) : a' ∈ before ++ [a] := List.mem_append_left _ mem
    by_cases here : ∃ b', P a b'
    · obtain ⟨b', put⟩ := here
      rw [hit _ a b' put]
      constructor
      · rintro ⟨⟩
        exact ⟨a, last, put⟩
      · rintro ⟨a', mem, put'⟩
        rw [agree a last a' mem b' b put put']
    · have none : ∀ b, ¬ P a b := fun b put => here ⟨b, put⟩
      rw [miss _ a none, ih fun x hx y hy => agree x (earlier hx) y (earlier hy)]
      constructor
      · rintro ⟨a', mem, put⟩
        exact ⟨a', earlier mem, put⟩
      · rintro ⟨a', mem, put⟩
        rcases List.mem_append.1 mem with mem | mem
        · exact ⟨a', mem, put⟩
        · obtain rfl := List.mem_singleton.1 mem
          exact absurd put (none b)

namespace Pass

variable {className : String} {method : Method} {config : Config} {metrics : Metrics} {g : Graph} {p : Pass}
  {widened : Widenings} {root : SymFrame} {l : Label}

/-- The visited blocks that start with a label, with the label and the visit. -/
def labelled (p : Pass) (g : Graph) : List (Block × Label × Visit) :=
  p.visits.toList.filterMap fun v => do
    let b ← g.block? v.1
    let l ← b.label
    return (b, l, v.2)

theorem mem_labelled {b : Block} {v : Visit} : (b, l, v) ∈ p.labelled g ↔
    ∃ n : Nat, g.block? n = some b ∧ b.label = some l ∧ p.visits[n]? = some v := by
  simp only [labelled, List.mem_filterMap, Option.bind_eq_bind, Option.bind_eq_some_iff, Option.pure_def,
    Option.some.injEq, Prod.mk.injEq]
  constructor
  · rintro ⟨⟨n, v'⟩, visited, b', hb, l', label, rfl, rfl, rfl⟩
    exact ⟨n, hb, label, Std.ExtTreeMap.mem_toList_iff_getElem?_eq_some.1 visited⟩
  · rintro ⟨n, hb, label, visited⟩
    exact ⟨(n, v), Std.ExtTreeMap.mem_toList_iff_getElem?_eq_some.2 visited, b, hb, l, label, rfl, rfl, rfl⟩

/-- The labels of a shape are those of the visited blocks.  What was put at the label is found there, as one
label starts one block. -/
theorem getElem?_labels (built : Graph.build className method config = .ok g) {x : LabelSnapshot} :
    (p.shape g).labels[l]? = some x ↔ ∃ (n : Nat) (b : Block) (v : Visit), g.block? n = some b ∧ b.label = some l ∧
      p.visits[n]? = some v ∧ x = b.snapshot v := by
  refine (getElem?_of_foldl (l := p.labelled g) (P := fun e x => e.2.1 = l ∧ x = e.1.snapshot e.2.2) ?hit ?miss
    ?agree).trans ⟨?found, ?put⟩
  case hit =>
    rintro m ⟨b, l', v⟩ x ⟨rfl, rfl⟩
    exact Std.ExtTreeMap.getElem?_insert_self
  case miss =>
    rintro m ⟨b, l', v⟩ other
    have ne : l' ≠ l := fun same => other _ ⟨same, rfl⟩
    rw [Std.ExtTreeMap.getElem?_insert, if_neg (by simpa using ne)]
  case agree =>
    rintro ⟨b, _, v⟩ mem ⟨b', _, v'⟩ mem' _ _ ⟨rfl, rfl⟩ ⟨rfl, rfl⟩
    obtain ⟨n, hb, label, hv⟩ := mem_labelled.1 mem
    obtain ⟨n', hb', label', hv'⟩ := mem_labelled.1 mem'
    have found := (Graph.find_eq_ok_iff built).2 ⟨b, hb, label⟩
    obtain rfl : n = n' := Except.ok.inj (found.symm.trans ((Graph.find_eq_ok_iff built).2 ⟨b', hb', label'⟩))
    cases hb.symm.trans hb'
    cases hv.symm.trans hv'
    rfl
  case found =>
    rintro ⟨⟨b, l', v⟩, mem, rfl, rfl⟩
    obtain ⟨n, hb, label, hv⟩ := mem_labelled.1 mem
    exact ⟨n, b, v, hb, label, hv, rfl⟩
  case put =>
    rintro ⟨n, b, v, hb, label, hv, rfl⟩
    exact ⟨(b, l, v), mem_labelled.2 ⟨n, hb, label, hv⟩, rfl, rfl⟩

/-- How a visited block with a label was entered, and what its visit has found of the first store behind the label. -/
theorem exists_finds (built : Graph.build className method config = .ok g)
    (h : (ofGraph g metrics widened root).result = .ok p) {n : Nat} {b : Block} {v : Visit}
    (hb : g.block? n = some b) (label : b.label = some l) (hv : p.visits[n]? = some v) :
    ∃ entry s, p.entries[n]? = some entry ∧ v.opening = b.opening metrics entry.frame ∧
      (Graph.stretches method)[n]? = some s ∧ s.label = some l ∧ (b.handler = true ↔ method.Handles l) ∧
      method.Finds className config s.start v.opening v.trail.firstStore := by
  obtain ⟨_, entry, hb', hentry, interpreted, -⟩ :=
    (underway_ofGraph (Graph.closed_of_build built) h).1.visited n v hv
  cases hb.symm.trans hb'
  obtain ⟨opened, followed⟩ := Block.interpret_eq_ok interpreted
  obtain ⟨s, site, hs, starts, handler, lowers⟩ := Graph.exists_stretch_of_label built hb label
  exact ⟨entry, s, hentry, opened, hs, starts, handler, opened ▸ Method.finds_of_lowers hs starts lowers followed⟩

/-- The stores of a shape are the first ones of the visited handlers.  The first store of a block stands in its
stretch, and a place lies in one stretch. -/
theorem getElem?_retypeAt (built : Graph.build className method config = .ok g)
    (h : (ofGraph g metrics widened root).result = .ok p) {place : Nat} :
    (p.shape g).retypeAt[place]? = some l ↔ ∃ (n : Nat) (b : Block) (v : Visit), g.block? n = some b ∧
      b.label = some l ∧ p.visits[n]? = some v ∧ b.handler = true ∧
        ∃ slot tag, v.trail.firstStore = some (place, slot, tag) := by
  refine (getElem?_of_foldl (l := p.labelled g) (P := fun e l => l = e.2.1 ∧ e.1.handler = true ∧
    ∃ slot tag, e.2.2.trail.firstStore = some (place, slot, tag)) ?hit ?miss ?agree).trans ⟨?found, ?put⟩
  case hit =>
    rintro m ⟨b, l', v⟩ _ ⟨rfl, handler, slot, tag, first⟩
    dsimp only at handler first ⊢
    rw [handler, first]
    exact Std.ExtTreeMap.getElem?_insert_self
  case miss =>
    rintro m ⟨b, l', v⟩ other
    dsimp only
    split
    · next place' slot tag handler first =>
      have ne : place' ≠ place := by
        rintro rfl
        exact other l' ⟨rfl, handler, slot, tag, first⟩
      rw [Std.ExtTreeMap.getElem?_insert, if_neg (by simpa using ne)]
    · rfl
  case agree =>
    rintro ⟨b, l₁, v⟩ mem ⟨b', l₂, v'⟩ mem' _ _ ⟨rfl, -, slot, tag, first⟩ ⟨rfl, -, slot', tag', first'⟩
    obtain ⟨n, hb, label, hv⟩ := mem_labelled.1 mem
    obtain ⟨n', hb', label', hv'⟩ := mem_labelled.1 mem'
    obtain ⟨-, s, -, -, hs, starts, -, finds⟩ := exists_finds built h hb label hv
    obtain ⟨-, t, -, -, ht, starts', -, finds'⟩ := exists_finds built h hb' label' hv'
    obtain ⟨k, store⟩ := (first ▸ finds).firstStore
    obtain ⟨k', store'⟩ := (first' ▸ finds').firstStore
    have inside := Graph.lt_of_firstStore hs starts store
    have inside' := Graph.lt_of_firstStore ht starts' store'
    obtain ⟨i, rfl⟩ := Nat.exists_eq_add_of_le (Nat.le_of_lt store.behind)
    obtain ⟨j, at_⟩ := Nat.exists_eq_add_of_le (Nat.le_of_lt store'.behind)
    obtain ⟨-, rfl, -⟩ := (Graph.tiles_stretches method).unique hs ht (by omega) (by omega) at_
    exact Option.some.inj (starts.symm.trans starts')
  case found =>
    rintro ⟨⟨b, l', v⟩, mem, rfl, handler, first⟩
    obtain ⟨n, hb, label, hv⟩ := mem_labelled.1 mem
    exact ⟨n, b, v, hb, label, hv, handler, first⟩
  case put =>
    rintro ⟨n, b, v, hb, label, hv, handler, first⟩
    exact ⟨(b, l, v), mem_labelled.2 ⟨n, hb, label, hv⟩, rfl, handler, first⟩

/-- The blocks that are visited are those that can be reached.  A finished traversal has followed every edge out
of what it visited. -/
theorem visited_iff (closed : g.Closed) (h : (ofGraph g metrics widened root).result = .ok p) {q : Nat} :
    (∃ v, p.visits[q]? = some v) ↔ g.Reachable q := by
  have reached : g.KeepsAt metrics fun n _ => g.Reachable n :=
    ⟨fun _ _ hb _ _ before _ e he => .along before hb he, fun _ _ _ _ => id, fun _ _ _ => id⟩
  have every := every_ofGraph reached .entry h
  have complete := complete_ofGraph closed h
  constructor
  · rintro ⟨v, hv⟩
    obtain ⟨-, -, -, reachable, -⟩ := every.visits q v hv
    exact reachable
  · intro reachable
    induction reachable with
    | entry =>
      obtain ⟨-, v, -, hv, -⟩ := complete.visit 0 _ complete.entry
      exact ⟨v, hv⟩
    | @along n b e before here out ih =>
      obtain ⟨v, hv⟩ := ih
      obtain ⟨entry, hentry, -⟩ := complete.edge n b v here hv e out
      obtain ⟨-, u, -, hu, -⟩ := complete.visit _ entry hentry
      exact ⟨u, hu⟩

end Pass

/-! ## What a shape has of labels and handlers -/

/-- The frame in which a handler starts: that with which it was entered, with the exception alone on the stack. -/
def Metrics.handed (metrics : Metrics) (l : Label) (entered : SymFrame) : SymFrame :=
  { entered with stack := [.ref ((metrics.caughtBy l).getD throwableClass)] }

/-- What is recorded at a label whose block was entered with a frame. -/
inductive Method.Known (m : Method) (className : String) (config : Config) (metrics : Metrics) (l : Label)
    (start : Nat) (entered : SymFrame) : LabelSnapshot → Prop
  | regular (noHandler : ¬ m.Handles l) : Known m className config metrics l start entered ⟨false, entered⟩
  | untouched (handler : m.Handles l)
      (finds : m.Finds className config start (metrics.handed l entered) none) :
      Known m className config metrics l start entered ⟨true, metrics.handed l entered⟩
  | retyped {place : Nat} {slot : Slot} {tag : Tag} (handler : m.Handles l)
      (finds : m.Finds className config start (metrics.handed l entered) (some (place, slot, tag))) :
      Known m className config metrics l start entered ⟨true, (metrics.handed l entered).setLocal slot tag⟩

namespace Shape

/-- The block of a label can be reached. -/
def Reached (g : Graph) (l : Label) : Prop := ∃ q, g.find l = .ok q ∧ g.Reachable q

/-- What a shape has of the labels and of the first stores of handlers, if `p` was the last round. -/
structure Retyped (s : Shape) (p : Pass) (g : Graph) (m : Method) (className : String) (config : Config)
    (metrics : Metrics) : Prop where
  stores : ∀ (place : Nat) (l : Label), s.retypeAt[place]? = some l ↔ m.Handles l ∧ Reached g l ∧
    ∃ start k slot, m.code.instrs[start]? = some (.label l) ∧ m.FirstStore start place k slot
  once : ∀ (place place' : Nat) (l : Label), s.retypeAt[place]? = some l → s.retypeAt[place']? = some l →
    place = place'
  labels : ∀ l, l ∈ s.labels ↔ Reached g l
  known : ∀ (l : Label) (x : LabelSnapshot), s.labels[l]? = some x → ∃ (q : Nat) (entry : Entry) (start : Nat),
    g.find l = .ok q ∧ p.entries[q]? = some entry ∧ m.code.instrs[start]? = some (.label l) ∧
      m.Known className config metrics l start entry.frame x

end Shape

theorem Block.opening_of_label {b : Block} {l : Label} (label : b.label = some l) (metrics : Metrics)
    (entered : SymFrame) : b.opening metrics entered = if b.handler then metrics.handed l entered else entered := by
  rw [opening, label]
  rfl

namespace Pass

variable {className : String} {method : Method} {config : Config} {metrics : Metrics} {g : Graph} {p : Pass}
  {widened : Widenings} {root : SymFrame} {l : Label}

/-- The snapshot of a visited block is what is known at its label.  Only a handler can be retyped, and only if a
store was found. -/
theorem known_snapshot {b : Block} {v : Visit} {start : Nat} {entered : SymFrame} (label : b.label = some l)
    (handler : b.handler = true ↔ method.Handles l) (opened : v.opening = b.opening metrics entered)
    (finds : method.Finds className config start v.opening v.trail.firstStore) :
    method.Known className config metrics l start entered (b.snapshot v) := by
  rw [Block.opening_of_label label] at opened
  cases sort : b.handler with
  | false =>
    rw [sort, if_neg Bool.false_ne_true] at opened
    have noHandler : ¬ method.Handles l := by
      rw [← handler, sort]
      exact Bool.false_ne_true
    simp only [Block.snapshot, sort, opened]
    exact .regular noHandler
  | true =>
    rw [sort, if_pos rfl] at opened
    rw [opened] at finds
    simp only [Block.snapshot, sort, opened]
    cases first : v.trail.firstStore with
    | none =>
      rw [first] at finds
      exact .untouched (handler.1 sort) finds
    | some x =>
      rw [first] at finds
      exact .retyped (handler.1 sort) finds

variable (built : Graph.build className method config = .ok g) (h : (ofGraph g metrics widened root).result = .ok p)

include built h

/-- The block of a label was visited if it can be reached. -/
theorem reached_iff : Shape.Reached g l ↔
    ∃ (n : Nat) (b : Block) (v : Visit), g.block? n = some b ∧ b.label = some l ∧ p.visits[n]? = some v := by
  have visited {n : Nat} := visited_iff (Graph.closed_of_build built) h (q := n)
  constructor
  · rintro ⟨n, found, reachable⟩
    obtain ⟨b, hb, label⟩ := (Graph.find_eq_ok_iff built).1 found
    obtain ⟨v, hv⟩ := visited.2 reachable
    exact ⟨n, b, v, hb, label, hv⟩
  · rintro ⟨n, b, v, hb, label, hv⟩
    exact ⟨n, (Graph.find_eq_ok_iff built).2 ⟨b, hb, label⟩, visited.1 ⟨v, hv⟩⟩

/-- A handler that can be reached is retyped by the first store behind its label. -/
theorem retypeAt_iff {place : Nat} : (p.shape g).retypeAt[place]? = some l ↔ method.Handles l ∧ Shape.Reached g l ∧
    ∃ start k slot, method.code.instrs[start]? = some (.label l) ∧ method.FirstStore start place k slot := by
  rw [getElem?_retypeAt built h]
  constructor
  · rintro ⟨n, b, v, hb, label, hv, isHandler, slot, tag, first⟩
    obtain ⟨-, s, -, -, hs, starts, handler, finds⟩ := exists_finds built h hb label hv
    obtain ⟨k, store⟩ := (first ▸ finds).firstStore
    exact ⟨handler.1 isHandler, (reached_iff built h).2 ⟨n, b, v, hb, label, hv⟩, s.start, k, slot,
      Graph.getElem?_start hs starts, store⟩
  · rintro ⟨handles, reached, start, k, slot, defined, store⟩
    obtain ⟨n, b, v, hb, label, hv⟩ := (reached_iff built h).1 reached
    obtain ⟨-, s, -, -, hs, starts, handler, finds⟩ := exists_finds built h hb label hv
    obtain rfl := Graph.eq_start built hs starts defined
    obtain ⟨tag, first⟩ := finds.eq_of_firstStore store
    exact ⟨n, b, v, hb, label, hv, handler.2 handles, slot, tag, first⟩

/-- The shape of a finished traversal has its handlers retyped by their first stores. -/
theorem retyped_shape : (p.shape g).Retyped p g method className config metrics where
  stores _ _ := retypeAt_iff built h
  once place place' l retyped retyped' := by
    obtain ⟨-, -, start, k, slot, defined, store⟩ := (retypeAt_iff built h).1 retyped
    obtain ⟨-, -, start', k', slot', defined', store'⟩ := (retypeAt_iff built h).1 retyped'
    obtain rfl := Graph.eq_of_defined built defined defined'
    exact (store.unique store').1
  labels l := by
    rw [← Std.ExtTreeMap.isSome_getElem?_iff_mem, Option.isSome_iff_exists, reached_iff built h]
    simp only [getElem?_labels built]
    constructor
    · rintro ⟨x, n, b, v, hb, label, hv, -⟩
      exact ⟨n, b, v, hb, label, hv⟩
    · rintro ⟨n, b, v, hb, label, hv⟩
      exact ⟨_, n, b, v, hb, label, hv, rfl⟩
  known l x recorded := by
    obtain ⟨n, b, v, hb, label, hv, rfl⟩ := (getElem?_labels built).1 recorded
    obtain ⟨entry, s, hentry, opened, hs, starts, handler, finds⟩ := exists_finds built h hb label hv
    exact ⟨n, entry, s.start, (Graph.find_eq_ok_iff built).2 ⟨b, hb, label⟩, hentry, Graph.getElem?_start hs starts,
      known_snapshot label handler opened finds⟩

end Pass

/-! ## What is measured of handlers -/

namespace Metrics

/-- What a handler catches is noted, and nothing that was noted before is lost. -/
theorem exists_lookup_noteCaught {l handler : Label} {c : String} {caught : List (Label × String)}
    (h : handler = l ∨ ∃ c, caught.lookup l = some c) : ∃ c', (noteCaught handler c caught).lookup l = some c' := by
  induction caught with
  | nil =>
    obtain rfl : handler = l := h.resolve_right (by simp)
    exact ⟨c, by simp [noteCaught]⟩
  | cons entry rest ih =>
    obtain ⟨l', c'⟩ := entry
    rw [noteCaught]
    by_cases here : l = l'
    · subst here
      split <;> exact ⟨_, List.lookup_cons_self⟩
    · have behind (x : String) (more : List (Label × String)) : ((l', x) :: more).lookup l = more.lookup l := by
        rw [List.lookup_cons, beq_eq_false_iff_ne.2 here]
      rw [behind] at h
      split
      · next same =>
        rw [behind]
        exact h.resolve_left fun own => here (same.trans own).symm
      · rw [behind]
        exact ih h

/-- A handler of a method that was measured catches some class. -/
theorem exists_caughtBy {className : String} {method : Method} {config : Config} {metrics : Metrics} {l : Label}
    (measured : measure className method config = .ok metrics) (handles : method.Handles l) :
    ∃ c, metrics.caughtBy l = some c := by
  have noted (regions : List Region) (caught : List (Label × String))
      (h : (∃ r ∈ regions, r.handler = l) ∨ ∃ c, caught.lookup l = some c) :
      ∃ c, (regions.foldl (fun caught r => noteCaught r.handler (r.catchType.getD throwableClass) caught)
        caught).lookup l = some c := by
    induction regions generalizing caught with
    | nil => exact h.resolve_left (by simp)
    | cons r rest ih =>
      refine ih _ ?_
      rcases h with ⟨r', mem, handler⟩ | known
      · rcases List.mem_cons.1 mem with rfl | mem
        · exact .inr (exists_lookup_noteCaught (.inl handler))
        · exact .inl ⟨r', mem, handler⟩
      · exact .inr (exists_lookup_noteCaught (.inr known))
  obtain ⟨signature, -, measured⟩ := bind_eq_ok.1 measured
  obtain ⟨slots, -, measured⟩ := bind_eq_ok.1 measured
  cases measured
  exact noted _ _ (.inl handles)

end Metrics

/-- In the shape of a method that is accepted, each handler that can be reached is retyped by the first store of its
block, once, and not at all if there is none; what is recorded at the other labels is what their blocks were
entered with in the last round. -/
theorem Shape.retyped_of_ofMethod {className : String} {method : Method} {config : Config} {metrics : Metrics}
    {s : Shape} (accepted : (ofMethod className method config metrics).result = .ok s) :
    ∃ (g : Graph) (root : SymFrame) (k : Nat) (widened : Widenings) (p : Pass),
      Graph.build className method config = .ok g ∧ SymFrame.root className method = .ok root ∧
      Repeats g (Liveness.compute g) metrics config.joinPolicy root k widened ∧
      round g (Liveness.compute g) metrics config.joinPolicy root widened = .ok (p, []) ∧
      s.Retyped p g method className config metrics ∧
      (Metrics.measure className method config = .ok metrics →
        ∀ l, method.Handles l → ∃ caught, metrics.caughtBy l = some caught) := by
  obtain ⟨g, root, built, hroot, h⟩ := exists_rounds accepted
  have ends := ends_of_build built hroot metrics (Liveness.compute g) config.joinPolicy
  rw [h] at ends
  cases ends with
  | @settled k widened p asked before went same =>
    obtain rfl := (add_eq_self_iff (small_of_build built) (SymFrame.stack_root hroot) went).1 same
    exact ⟨g, root, k, widened, p, built, hroot, before, went, Pass.retyped_shape built (round_eq_ok.1 went).1,
      fun measured _ => Metrics.exists_caughtBy measured⟩

/-- Stores the exception in its handler, and then a number. -/
def doubleStore : Method where
  access := staticFlag
  name := "execute"
  descriptor := "(I)V"
  maxLocals := 3
  code := {
    instrs := [.label 0, .plain .nop, .label 1, .plain (.leave none), .label 2, .store .reference 1, .iconst 1,
      .store .int 2, .plain (.leave none)]
    regions := [⟨0, 1, 2, some "java/lang/Exception"⟩] }

/-- What is measured of it. -/
def doubleStoreMetrics : Metrics := { maxLocals := 3, caught := [(2, "java/lang/Exception")] }

/-- The handler is retyped by the first of its stores only, and the slot of the second one is not recorded. -/
theorem doubleStore_retyped :
    ∃ (s : Shape) (x : LabelSnapshot), Metrics.measure "app/C" doubleStore {} = .ok doubleStoreMetrics ∧
      (Shape.ofMethod "app/C" doubleStore {} doubleStoreMetrics).result = .ok s ∧
      (∀ place : Nat, s.retypeAt[place]? = some 2 ↔ place = 5) ∧ s.labels[(2 : Label)]? = some x ∧
      x.types.stack = [.ref "java/lang/Exception"] ∧
      x.types.locals.toList = [(0, .int), (1, .ref "java/lang/Exception")] := by
  have seen : ((Shape.ofMethod "app/C" doubleStore {} doubleStoreMetrics).result.toOption.bind fun s =>
      (s.labels[(2 : Label)]?).map fun x => (s.retypeAt[5]?, x.types.stack, x.types.locals.toList)) =
      some (some 2, [.ref "java/lang/Exception"], [(0, .int), (1, .ref "java/lang/Exception")]) := by decide +kernel
  obtain ⟨s, accepted, seen⟩ := Option.bind_eq_some_iff.1 seen
  obtain ⟨x, recorded, seen⟩ := Option.map_eq_some_iff.1 seen
  obtain ⟨retyped, seen⟩ := Prod.mk.inj seen
  obtain ⟨stack, locals⟩ := Prod.mk.inj seen
  have accepted := eq_ok_of_toOption accepted
  obtain ⟨g, root, k, widened, p, -, -, -, -, known, -⟩ := Shape.retyped_of_ofMethod accepted
  refine ⟨s, x, eq_ok_of_toOption (by decide +kernel), accepted, fun place => ⟨fun also => ?_, ?_⟩, recorded, stack,
    locals⟩
  · exact known.once place 5 2 also retyped
  · rintro rfl
    exact retyped

end Suspension
