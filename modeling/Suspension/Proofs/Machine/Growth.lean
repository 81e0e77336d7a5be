import Suspension.Proofs.Machine.Straight

/-!
# Worlds that grow

Suspendable code calls services on its own context.  Asking for a store may add a handle to the heap, and
throwing a signal adds an object; apart from that such code replaces one context and leaves the world as
it was.

## Main definitions
* `Heap.HandlesIntact`, `Heap.Grows`: a heap whose shared handles are in place, and one that only gained
  objects.
* `World.Reaches`: one context was replaced, and the heap grew.
* `Frame.Holds`: a slot of the frame holds a handle of a live context.
* `Value.Fits`: a value passes the cast to what is known of it.

## Main results
* `Heap.get?_handle`: a handle that was asked for is on the heap.
* `World.Reaches.trans`, `Frame.Holds.after`: what one piece of code does after another.
-/

namespace Suspension

variable {σ : Type}

/-- Of two values under one id the later one counts. -/
theorem Arena.set_set {α : Type} (a : Arena α) (id : Nat) (x y : α) :
    (a.set id x).set id y = a.set id y := by
  by_cases hc : a.contains id = true
  · have : (a.set id x).contains id = true := by
      rw [Arena.contains, Arena.get?_set, if_pos ⟨rfl, hc⟩, Option.isSome_some]
    simp only [Arena.set, if_pos hc] at this
    simp [Arena.set, hc, this, Array.setIfInBounds_setIfInBounds]
  · simp [Arena.set, hc]

/-! ## Heaps that only grow -/

namespace Heap

/-- Every shared handle is on the heap. -/
def HandlesIntact (h : Heap) : Prop :=
  ∀ id face r, h.handles.lookup (id, face) = some r → h.get? r = some (.handle face id)

/-- Objects may have been added to a heap; those that were there have not changed. -/
structure Grows (h h' : Heap) : Prop where
  kept : ∀ r o, h.get? r = some o → h'.get? r = some o
  strings : h'.strings = h.strings
  intact : h.HandlesIntact → h'.HandlesIntact

namespace Grows

variable {h h' h'' : Heap}

theorem refl (h : Heap) : h.Grows h := ⟨fun _ _ ho => ho, rfl, id⟩

theorem trans (a : h.Grows h') (b : h'.Grows h'') : h.Grows h'' :=
  ⟨fun r o ho => b.kept r o (a.kept r o ho), b.strings.trans a.strings, fun hi => b.intact (a.intact hi)⟩

end Grows

variable {h : Heap}

theorem get?_alloc (h : Heap) (o : HeapObject) (r : ObjectId) :
    (h.alloc o).2.get? r = if r.index = h.objects.nextId then some o else h.get? r :=
  Arena.get?_push ..

@[simp] theorem get?_alloc_self (h : Heap) (o : HeapObject) :
    (h.alloc o).2.get? (h.alloc o).1 = some o := by
  rw [get?_alloc, if_pos]
  rfl

theorem index_lt_of_get? {r : ObjectId} {o : HeapObject} (ho : h.get? r = some o) :
    r.index < h.objects.nextId := by
  apply Nat.lt_of_not_le
  intro hle
  rw [get?, Arena.get?_eq_none_of_le _ hle] at ho
  cases ho

/-- A new object is none of those that were there. -/
theorem get?_alloc_of_get? {r : ObjectId} {o new : HeapObject} (ho : h.get? r = some o) :
    (h.alloc new).2.get? r = some o := by
  rw [get?_alloc, if_neg (Nat.ne_of_lt (index_lt_of_get? ho)), ho]

/-- Objects that are there, the constants and the handles decide whether a heap grew. -/
theorem grows_of_kept {h' : Heap} (kept : ∀ r o, h.get? r = some o → h'.get? r = some o)
    (strings : h'.strings = h.strings) (handles : h'.handles = h.handles) : h.Grows h' :=
  ⟨kept, strings, fun hi id face r hr => kept r _ (hi id face r (handles ▸ hr))⟩

theorem get?_set (h : Heap) (r other : ObjectId) (o : HeapObject) (ho : (h.get? r).isSome = true) :
    (h.set r o).get? other = if other = r then some o else h.get? other := by
  have same : other.index = r.index ↔ other = r := by
    cases other
    cases r
    simp
  refine (Arena.get?_set ..).trans ?_
  by_cases e : other = r
  · rw [if_pos e, if_pos ⟨same.2 e, ho⟩]
  · rw [if_neg e, if_neg fun c => e (same.1 c.1)]
    rfl

theorem set_set (h : Heap) (r : ObjectId) (o o' : HeapObject) : (h.set r o).set r o' = h.set r o' := by
  simp only [set, Arena.set_set]

theorem setField_eq {r : ObjectId} {className : String} {fields : Std.ExtTreeMap String Value}
    (ho : h.get? r = some (.plain className fields)) (name : String) (v : Value) :
    h.setField r name v = .ok (h.set r (.plain className (fields.insert name v))) := by
  simp [setField, get, ho]
  rfl

theorem grows_alloc (h : Heap) (o : HeapObject) : h.Grows (h.alloc o).2 :=
  ⟨fun _ _ ho => get?_alloc_of_get? ho, rfl, fun hi id face r hr => get?_alloc_of_get? (hi id face r hr)⟩

/-- The handle of a face of a context is on the heap, and was possibly added. -/
theorem get?_handle (hi : h.HandlesIntact) (id : ContextId) (face : ContextFace) :
    (h.handle id face).2.get? (h.handle id face).1 = some (.handle face id) := by
  unfold handle
  split
  · next r hr => exact hi id face r hr
  · exact get?_alloc_self h _

theorem grows_handle (h : Heap) (id : ContextId) (face : ContextFace) :
    h.Grows (h.handle id face).2 := by
  unfold handle
  split
  · exact .refl h
  · have grows := grows_alloc h (.handle face id)
    refine ⟨grows.kept, rfl, fun hi id' face' r hr => ?_⟩
    by_cases same : ((id', face') == (id, face)) = true
    · rw [List.lookup_cons, same] at hr
      obtain ⟨rfl, rfl⟩ : id' = id ∧ face' = face := by simpa using same
      cases hr
      exact get?_alloc_self h _
    · rw [List.lookup_cons, Bool.not_eq_true _ |>.mp same] at hr
      exact grows.intact hi id' face' r hr

end Heap

/-! ## Contexts -/

namespace Contexts

theorem get?_set (cs : Contexts) (id other : ContextId) (c : Context) :
    (cs.set id c).get? other =
      if other = id ∧ cs.contains id = true then some c else cs.get? other := by
  have same : other.index = id.index ↔ other = id := by
    cases other
    cases id
    simp
  by_cases h : other = id ∧ cs.contains id = true
  · rw [if_pos h]
    exact (Arena.get?_set ..).trans (if_pos ⟨same.2 h.1, h.2⟩)
  · rw [if_neg h]
    exact (Arena.get?_set ..).trans (if_neg fun e => h ⟨same.1 e.1, e.2⟩)

theorem contains_of_get? {cs : Contexts} {id : ContextId} {c : Context} (h : cs.get? id = some c) :
    cs.contains id = true := by
  rw [get?] at h
  simp [contains, Arena.contains, h]

theorem get?_set_self {cs : Contexts} {id : ContextId} {c : Context} (h : cs.get? id = some c)
    (c' : Context) : (cs.set id c').get? id = some c' := by
  rw [get?_set, if_pos ⟨rfl, contains_of_get? h⟩]

theorem get?_set_ne {cs : Contexts} {id other : ContextId} (h : other ≠ id) (c : Context) :
    (cs.set id c).get? other = cs.get? other := by
  rw [get?_set, if_neg fun e => h e.1]

theorem set_set (cs : Contexts) (id : ContextId) (c c' : Context) :
    (cs.set id c).set id c' = cs.set id c' := by
  simp only [set, Arena.set_set]

theorem set_get? {cs : Contexts} {id : ContextId} {c : Context} (h : cs.get? id = some c) :
    cs.set id c = cs := by
  have hc := contains_of_get? h
  obtain ⟨⟨slots⟩, pending, current⟩ := cs
  have hslot : slots[id.index]? = some (some c) := by
    simpa [get?, Arena.get?, Option.join_eq_some_iff] using h
  obtain ⟨hlt, hval⟩ := Array.getElem?_eq_some_iff.1 hslot
  simp only [set, Arena.set, show (Arena.mk slots).contains id.index = true from hc, if_true]
  congr 2
  apply Array.ext
  · simp
  · intro i h1 h2
    rw [Array.getElem_setIfInBounds]
    · by_cases hi : id.index = i
      · subst hi
        simp [hval]
      · simp [hi]
    · exact h2

end Contexts

/-! ## Worlds in which one context changed -/

/-- One live context was replaced, and nothing else changed but for objects that were added. -/
structure World.Reaches (id : ContextId) (c : Context) (w w' : World σ) : Prop where
  contexts : w'.contexts = w.contexts.set id c
  heap : w.heap.Grows w'.heap
  statics : w'.statics = w.statics
  outside : w'.outside = w.outside
  fuel : w'.fuel = w.fuel

namespace World.Reaches

variable {id : ContextId} {c c' : Context} {w w' w'' : World σ}

theorem refl (h : w.contexts.get? id = some c) : w.Reaches id c w :=
  ⟨(Contexts.set_get? h).symm, .refl _, rfl, rfl, rfl⟩

theorem trans (h : w.Reaches id c w') (h' : w'.Reaches id c' w'') : w.Reaches id c' w'' :=
  ⟨by rw [h'.contexts, h.contexts, Contexts.set_set], h.heap.trans h'.heap,
    h'.statics.trans h.statics, h'.outside.trans h.outside, h'.fuel.trans h.fuel⟩

end World.Reaches

/-- A slot of a frame holds the handle of a live context. -/
structure Frame.Holds (f : Frame) (slot : Slot) (w : World σ) (id : ContextId) (c : Context) :
    Prop where
  handle : ∃ r, f.locals[slot]? = some (.object r) ∧ w.heap.get? r = some (.handle .context id)
  live : w.contexts.get? id = some c
  intact : w.heap.HandlesIntact

theorem Frame.Holds.after {f g : Frame} {slot : Slot} {w w' : World σ} {id : ContextId}
    {c c' : Context} (h : f.Holds slot w id c) (reaches : w.Reaches id c' w')
    (same : g.locals[slot]? = f.locals[slot]?) : g.Holds slot w' id c' := by
  obtain ⟨r, hr, ho⟩ := h.handle
  exact ⟨⟨r, same.trans hr, reaches.heap.kept r _ ho⟩,
    by rw [reaches.contexts, Contexts.get?_set_self h.live], reaches.heap.intact h.intact⟩

theorem Frame.Holds.live_after {f : Frame} {slot : Slot} {w w' : World σ} {id : ContextId}
    {c c' : Context} (h : f.Holds slot w id c) (reaches : w.Reaches id c' w') :
    w'.contexts.get? id = some c' := by
  rw [reaches.contexts, Contexts.get?_set_self h.live]

theorem Frame.Holds.moved {f : Frame} {slot : Slot} {w : World σ} {id : ContextId} {c : Context}
    (h : f.Holds slot w id c) (n : Nat) (stack : List Value) : (f.moved n stack).Holds slot w id c :=
  ⟨h.handle, h.live, h.intact⟩

/-! ## The class of an object -/

namespace World

variable {w w' : World σ} {host : Host σ} {r : ObjectId} {target : String} {b : Bool}

theorem superclass_congr (h : w'.outside = w.outside) (className : String) :
    w'.superclass host className = w.superclass host className := by
  rw [superclass, superclass, h]

theorem extends?_congr (h : w'.outside = w.outside) (steps : Nat) (className : String) :
    w'.extends? host target steps className = w.extends? host target steps className := by
  induction steps generalizing className with
  | zero =>
    unfold extends?
    rw [superclass_congr h]
    split
    · rfl
    · cases w.superclass host className <;> rfl
  | succ n ih =>
    unfold extends?
    rw [superclass_congr h]
    split
    · rfl
    · cases w.superclass host className with
      | none => rfl
      | some next => exact ih next

theorem instanceOf_congr (h : w'.outside = w.outside) (hc : w'.heap.classOf r = w.heap.classOf r) :
    w'.instanceOf host r target = w.instanceOf host r target := by
  rw [instanceOf, instanceOf, hc]
  simp only [extends?_congr h]

@[simp] theorem instanceOf_paying (w : World σ) (fuel : Option Nat) :
    (w.paying fuel).instanceOf host r target = w.instanceOf host r target :=
  instanceOf_congr rfl rfl

/-- Objects that are there keep their class. -/
theorem instanceOf_grows (grows : w.heap.Grows w'.heap) (outside : w'.outside = w.outside)
    (ht : target ≠ objectClass) (hb : w.instanceOf host r target = .ok b) :
    w'.instanceOf host r target = .ok b := by
  rw [← hb]
  refine instanceOf_congr outside ?_
  cases ho : w.heap.get? r with
  | none => simp [World.instanceOf, ht, Heap.classOf, Heap.get, ho, bind, Except.bind] at hb
  | some o => simp [Heap.classOf, Heap.get, ho, grows.kept r o ho]

end World

namespace Run

/-- The world decides on a handler by the class of the exception and by what is outside. -/
theorem handlerFor_congr {host : Host σ} {f g : Frame} {w w' : World σ} {exc : ObjectId}
    (method : g.method = f.method) (outside : w'.outside = w.outside)
    (known : w'.heap.classOf exc = w.heap.classOf exc) (place : Nat) (regions : List Region) :
    g.handlerFor host w' place exc regions = f.handlerFor host w place exc regions := by
  have target (l : Label) : g.target l = f.target l := by
    rw [Frame.target, Frame.target, method]
  induction regions with
  | nil => rfl
  | cons r rest ih =>
    have tested : r.catches host w' exc = r.catches host w exc := by
      unfold Region.catches
      split
      · rfl
      · exact World.instanceOf_congr outside known
    have covered : g.covers r place = f.covers r place := by
      simp only [Frame.covers, target]
    rw [Frame.handlerFor, Frame.handlerFor, tested, covered, ih]
    simp only [target]

end Run

/-- A value passes the cast to what is known of it. -/
def Value.Fits (v : Value) (host : Host σ) (w : World σ) (t : Tag) : Prop :=
  ∀ c, t.castTarget = some c → v = .null ∨ ∃ r, v = .object r ∧ w.instanceOf host r c = .ok true

theorem Tag.castTarget_ne {t : Tag} {c : String} (h : t.castTarget = some c) : c ≠ objectClass := by
  cases t <;> simp_all [castTarget]
  exact fun e => h.1 (h.2.trans e)

theorem Value.Fits.mono {v : Value} {host : Host σ} {w w' : World σ} {t : Tag}
    (h : v.Fits host w t) (grows : w.heap.Grows w'.heap) (outside : w'.outside = w.outside) :
    v.Fits host w' t := by
  intro target ht
  rcases h target ht with rfl | ⟨r, rfl, hr⟩
  · exact .inl rfl
  · exact .inr ⟨r, rfl, World.instanceOf_grows grows outside (Tag.castTarget_ne ht) hr⟩

theorem Value.Fits.after {v : Value} {host : Host σ} {w w' : World σ} {t : Tag} {id : ContextId}
    {c : Context} (h : v.Fits host w t) (reaches : w.Reaches id c w') : v.Fits host w' t :=
  h.mono reaches.heap reaches.outside

end Suspension
