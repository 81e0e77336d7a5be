import Suspension.Proofs.Machine.Growth
import Suspension.Proofs.Success

/-!
# What operations leave alone

An operation keeps to a relation between states if that relation holds between the state before and the
state after it, whether it succeeds or fails.  The relations here let the heap change in any way that leaves
the handles on it alone.

## Main definitions
* `Keeping`, `Does`, `Keeps`: a relation that survives sequencing, and an operation that keeps to it.
* `Heap.KeepsHandles`, `Host.LeavesHandles`: handles that are left alone.
* `Frame.keeping`, `World.keeping`, `Situation.keeping`: what may become of local slots and of contexts.

## Main results
* `Does.bind`: operations one after the other.
* `keeps_changeHeap`, `keeps_askHost`, `keeps_construct`: operations on the world.
-/

namespace Suspension

/-! ## Operations that keep to a relation -/

/-- A relation between states that survives sequencing. -/
structure Keeping (τ : Type) where
  rel : τ → τ → Prop
  refl : ∀ s, rel s s
  trans : ∀ {s t u}, rel s t → rel t u → rel s u

/-- An operation keeps to a relation, and what it yields when it succeeds is of a given sort. -/
structure Does {ε τ α : Type} (K : Keeping τ) (P : α → Prop) (x : EStateM ε τ α) : Prop where
  ok : ∀ {s a t}, x s = .ok a t → K.rel s t ∧ P a
  error : ∀ {s e t}, x s = .error e t → K.rel s t

/-- An operation keeps to a relation. -/
abbrev Keeps {ε τ α : Type} (K : Keeping τ) (x : EStateM ε τ α) : Prop := Does K (fun _ => True) x

section

variable {ε τ α β : Type} {K : Keeping τ} {P : α → Prop} {Q : β → Prop}

theorem does_pure {a : α} (h : P a) : Does K P (pure a : EStateM ε τ α) where
  ok := by
    rintro s _ _ ⟨⟩
    exact ⟨K.refl s, h⟩
  error := by rintro s _ _ ⟨⟩

theorem keeps_pure (a : α) : Keeps K (pure a : EStateM ε τ α) := does_pure trivial

theorem does_throw (e : ε) : Does K P (throw e : EStateM ε τ α) where
  ok := by rintro s _ _ ⟨⟩
  error := by
    rintro s _ _ ⟨⟩
    exact K.refl s

theorem keeps_get : Keeps K (get : EStateM ε τ τ) where
  ok := by
    rintro s _ _ ⟨⟩
    exact ⟨K.refl s, trivial⟩
  error := by rintro s _ _ ⟨⟩

theorem keeps_modify {f : τ → τ} (h : ∀ s, K.rel s (f s)) :
    Keeps K (modify f : EStateM ε τ PUnit) where
  ok := by
    rintro s _ _ ⟨⟩
    exact ⟨h s, trivial⟩
  error := by rintro s _ _ ⟨⟩

/-- Operations one after the other, where the second depends on what the first yields. -/
theorem Does.bind {x : EStateM ε τ α} {f : α → EStateM ε τ β} (hx : Does K P x)
    (hf : ∀ a, P a → Does K Q (f a)) : Does K Q (x >>= f) where
  ok := by
    intro s b u h
    obtain ⟨a, t, first, second⟩ := bind_apply_eq_ok h
    obtain ⟨before, ha⟩ := hx.ok first
    obtain ⟨after, hb⟩ := (hf a ha).ok second
    exact ⟨K.trans before after, hb⟩
  error := by
    intro s e u h
    rw [bind_apply] at h
    cases first : x s with
    | error e t =>
      rw [first] at h
      cases h
      exact hx.error first
    | ok a t =>
      rw [first] at h
      obtain ⟨before, ha⟩ := hx.ok first
      exact K.trans before ((hf a ha).error h)

/-- Operations one after the other. -/
theorem Does.seq {x : EStateM ε τ α} {f : α → EStateM ε τ β} (hx : Does K P x)
    (hf : ∀ a, Does K Q (f a)) : Does K Q (x >>= f) :=
  hx.bind fun a _ => hf a

theorem does_except {x : Except ε α} (h : ∀ a, x = .ok a → P a) :
    Does K P (liftM x : EStateM ε τ α) := by
  cases x with
  | error e => exact does_throw e
  | ok a => exact does_pure (h a rfl)

theorem keeps_except (x : Except ε α) : Keeps K (liftM x : EStateM ε τ α) :=
  does_except fun _ _ => trivial

theorem keeps_mapM {f : α → EStateM ε τ β} (h : ∀ a, Keeps K (f a)) (l : List α) :
    Keeps K (l.mapM f) := by
  induction l with
  | nil => exact keeps_pure _
  | cons a l ih =>
    rw [List.mapM_cons]
    exact (h a).seq fun _ => ih.seq fun _ => keeps_pure _

end

/-! ## Handles on a heap -/

namespace Heap

/-- The handles on a heap are still there. -/
structure KeepsHandles (h h' : Heap) : Prop where
  kept : ∀ r face id, h.get? r = some (.handle face id) → h'.get? r = some (.handle face id)
  intact : h.HandlesIntact → h'.HandlesIntact

namespace KeepsHandles

variable {h h' h'' : Heap}

theorem refl (h : Heap) : h.KeepsHandles h := ⟨fun _ _ _ ho => ho, id⟩

theorem trans (a : h.KeepsHandles h') (b : h'.KeepsHandles h'') : h.KeepsHandles h'' :=
  ⟨fun r face id ho => b.kept r face id (a.kept r face id ho), fun hi => b.intact (a.intact hi)⟩

end KeepsHandles

variable {h h' : Heap}

theorem Grows.keepsHandles (g : h.Grows h') : h.KeepsHandles h' :=
  ⟨fun r _ _ ho => g.kept r _ ho, g.intact⟩

theorem keepsHandles_alloc (h : Heap) (o : HeapObject) : h.KeepsHandles (h.alloc o).2 :=
  (grows_alloc h o).keepsHandles

theorem keepsHandles_intern (h : Heap) (s : String) : h.KeepsHandles (h.intern s).2 := by
  unfold intern
  split
  · exact .refl h
  · have grows := grows_alloc h (.string s)
    exact ⟨fun r _ _ ho => grows.kept r _ ho, fun hi id face r hr => grows.intact hi id face r hr⟩

/-- An object that is no handle may be replaced. -/
theorem keepsHandles_set {r : ObjectId} {o new : HeapObject} (ho : h.get? r = some o)
    (other : ∀ face id, o ≠ .handle face id) : h.KeepsHandles (h.set r new) := by
  have kept : ∀ r' face id, h.get? r' = some (.handle face id) →
      (h.set r new).get? r' = some (.handle face id) := by
    intro r' face id hr'
    have ne : r' ≠ r := by
      rintro rfl
      exact other face id (Option.some.inj (ho.symm.trans hr'))
    rw [get?_set _ _ _ _ (by simp [ho]), if_neg ne, hr']
  exact ⟨kept, fun hi id face r' hr' => kept r' face id (hi id face r' hr')⟩

theorem keepsHandles_setField {r : ObjectId} {name : String} {v : Value}
    (hs : h.setField r name v = .ok h') : h.KeepsHandles h' := by
  obtain ⟨o, ho, hs⟩ := bind_eq_ok.1 hs
  split at hs
  · cases hs
    unfold get at ho
    split at ho
    · next found =>
      cases ho
      exact keepsHandles_set found fun _ _ e => by cases e
    · cases ho
  · cases hs

theorem keepsHandles_setElement {r : ObjectId} {index : Nat} {v : Value} {b : Bool}
    (hs : h.setElement r index v = .ok (b, h')) : h.KeepsHandles h' := by
  obtain ⟨o, ho, hs⟩ := bind_eq_ok.1 hs
  split at hs
  · split at hs
    · cases hs
      unfold get at ho
      split at ho
      · next found =>
        cases ho
        exact keepsHandles_set found fun _ _ e => by cases e
      · cases ho
    · cases hs
      exact .refl h
  · cases hs
    exact .refl h

/-- Objects that are added one after the other leave the handles alone if each of them does. -/
theorem keepsHandles_foldlM {α β : Type} {add : Heap → α → Except ExecError (ObjectId × Heap)}
    (collect : β → ObjectId → β) (each : ∀ h a r h', add h a = .ok (r, h') → h.KeepsHandles h')
    {as : List α} {b b' : β}
    (hf : as.foldlM (fun (b, h) a => do
      let (r, h) ← add h a
      return (collect b r, h)) (b, h) = .ok (b', h')) : h.KeepsHandles h' := by
  induction as generalizing b h with
  | nil =>
    cases hf
    exact .refl _
  | cons a as ih =>
    rw [List.foldlM_cons] at hf
    obtain ⟨⟨b₁, h₁⟩, first, hf⟩ := bind_eq_ok.1 hf
    obtain ⟨⟨r, h₂⟩, added, first⟩ := bind_eq_ok.1 first
    cases first
    exact (each _ _ _ _ added).trans (ih hf)

theorem keepsHandles_allocArray {descriptor : String} {count : Nat} {dims : List Nat} {r : ObjectId}
    (ha : h.allocArray descriptor count dims = .ok (r, h')) : h.KeepsHandles h' := by
  induction dims generalizing h h' r descriptor count with
  | nil =>
    unfold allocArray at ha
    obtain ⟨_, -, ha⟩ := bind_eq_ok.1 ha
    obtain ⟨_, -, ha⟩ := bind_eq_ok.1 ha
    cases ha
    exact keepsHandles_alloc h _
  | cons inner more ih =>
    unfold allocArray at ha
    obtain ⟨element, -, ha⟩ := bind_eq_ok.1 ha
    obtain ⟨⟨elems, h₁⟩, folded, ha⟩ := bind_eq_ok.1 ha
    cases ha
    have inners := keepsHandles_foldlM (fun (elems : Array Value) r => elems.push (.object r))
      (fun _ _ _ _ added => ih added) folded
    exact inners.trans (keepsHandles_alloc h₁ _)

end Heap

/-! ## Operations on the world -/

/-- A host leaves the handles on the heap alone. -/
structure Host.LeavesHandles {σ : Type} (host : Host σ) : Prop where
  ok : ∀ {kind m receiver args heap outside v heap' outside'},
    host.invoke kind m receiver args (heap, outside) = .ok v (heap', outside') →
      heap.KeepsHandles heap'
  error : ∀ {kind m receiver args heap outside e heap' outside'},
    host.invoke kind m receiver args (heap, outside) = .error e (heap', outside') →
      heap.KeepsHandles heap'

/-- The host that provides nothing changes nothing. -/
theorem Host.leavesHandles_nothing (σ : Type) : (Host.nothing σ).LeavesHandles where
  ok called := by cases called
  error called := by
    cases called
    exact .refl _

/-- What becomes of the contexts is up to a relation between them; the handles are left alone. -/
def World.keeping (C : Keeping Contexts) : Keeping (World σ) where
  rel w w' := C.rel w.contexts w'.contexts ∧ w.heap.KeepsHandles w'.heap
  refl _ := ⟨C.refl _, .refl _⟩
  trans a b := ⟨C.trans a.1 b.1, a.2.trans b.2⟩

section

variable {C : Keeping Contexts} {α : Type}

/-- An operation that changes nothing but the heap, and leaves the handles on it alone. -/
theorem World.keeping_withHeap (w : World σ) {h : Heap} (outside : σ)
    (keeps : w.heap.KeepsHandles h) : (World.keeping C).rel w { w with heap := h, outside } :=
  ⟨C.refl _, keeps⟩

theorem keeps_changeHeap {f : Heap → Except ExecError (α × Heap)}
    (h : ∀ {heap a heap'}, f heap = .ok (a, heap') → heap.KeepsHandles heap') :
    Keeps (World.keeping C) (World.changeHeap f : WorldM σ α) where
  ok := by
    intro w a w' e
    unfold World.changeHeap at e
    split at e
    · next changed =>
      cases e
      exact ⟨w.keeping_withHeap w.outside (h changed), trivial⟩
    · cases e
  error := by
    intro w e w' he
    unfold World.changeHeap at he
    split at he
    · cases he
    · cases he
      exact (World.keeping C).refl w

theorem keeps_changeHeap_ok {f : Heap → α × Heap} (h : ∀ heap : Heap, heap.KeepsHandles (f heap).2) :
    Keeps (World.keeping C) (World.changeHeap fun heap => .ok (f heap) : WorldM σ α) :=
  keeps_changeHeap fun {heap _ _} e => by
    have changed := h heap
    rwa [Except.ok.inj e] at changed

theorem keeps_alloc (o : HeapObject) : Keeps (World.keeping C) (World.alloc o : WorldM σ ObjectId) :=
  keeps_changeHeap_ok fun h => h.keepsHandles_alloc o

theorem keeps_intern (s : String) : Keeps (World.keeping C) (World.intern s : WorldM σ ObjectId) :=
  keeps_changeHeap_ok fun h => h.keepsHandles_intern s

theorem keeps_handle (id : ContextId) (face : ContextFace) :
    Keeps (World.keeping C) (World.handle id face : WorldM σ ObjectId) :=
  keeps_changeHeap_ok fun h => (h.grows_handle id face).keepsHandles

theorem keeps_setField (r : ObjectId) (name : String) (v : Value) :
    Keeps (World.keeping C) (World.setField r name v : WorldM σ Unit) :=
  keeps_changeHeap fun e => by
    obtain ⟨h, set, e⟩ := map_eq_ok.1 e
    cases e
    exact Heap.keepsHandles_setField set

theorem keeps_setStatic (owner name : String) (v : Value) :
    Keeps (World.keeping C) (World.setStatic owner name v : WorldM σ Unit) where
  ok := by
    rintro w _ _ ⟨⟩
    exact ⟨⟨C.refl _, .refl _⟩, trivial⟩
  error := by rintro _ _ _ ⟨⟩

theorem keeps_object (r : ObjectId) : Keeps (World.keeping C) (World.object r : WorldM σ HeapObject) :=
  keeps_get.seq fun _ => keeps_except _

theorem keeps_isOf (host : Host σ) (r : ObjectId) (target : String) :
    Keeps (World.keeping C) (World.isOf host r target) :=
  keeps_get.seq fun _ => keeps_except _

/-- A constructor of a foreign class sets fields at most. -/
theorem keeps_construct (m : MemberRef) (receiver : Option Value) (args : List Value) :
    Keeps (World.keeping C) (construct m receiver args : WorldM σ Unit) := by
  unfold construct
  split
  · refine (keeps_except _).seq fun _ => (keeps_setField ..).seq fun _ => ?_
    split
    · exact keeps_setField ..
    · exact keeps_pure _
  · exact keeps_pure _

theorem keeps_askHost {host : Host σ} (leaves : host.LeavesHandles) (kind : InvokeKind)
    (m : MemberRef) (receiver : Option Value) (args : List Value) :
    Keeps (World.keeping C) (askHost host kind m receiver args) where
  ok := by
    intro w v w' e
    unfold askHost at e
    split at e
    · next answered =>
      cases e
      exact ⟨w.keeping_withHeap _ (leaves.ok answered), trivial⟩
    · cases e
  error := by
    intro w v w' e
    unfold askHost at e
    split at e
    · cases e
    · next failed =>
      cases e
      exact w.keeping_withHeap _ (leaves.error failed)

end

/-! ## Operations on a frame and its world -/

/-- What becomes of the local slots is up to a relation between them; the frame stays where it is. -/
def Frame.keeping (L : Keeping LocalValues) : Keeping Frame where
  rel f g := g.method = f.method ∧ g.pc = f.pc ∧ L.rel f.locals g.locals
  refl _ := ⟨rfl, rfl, L.refl _⟩
  trans a b := ⟨b.1.trans a.1, b.2.1.trans a.2.1, L.trans a.2.2 b.2.2⟩

/-- What becomes of a frame and of its world. -/
def Situation.keeping (L : Keeping LocalValues) (C : Keeping Contexts) : Keeping (Situation σ) where
  rel s t := (Frame.keeping L).rel s.frame t.frame ∧ (World.keeping C).rel s.world t.world
  refl _ := ⟨(Frame.keeping L).refl _, (World.keeping C).refl _⟩
  trans a b := ⟨(Frame.keeping L).trans a.1 b.1, (World.keeping C).trans a.2 b.2⟩

section

variable {L : Keeping LocalValues} {C : Keeping Contexts} {α : Type} {P : α → Prop}

/-- An operation on the frame leaves the world alone. -/
theorem Does.onFrame {x : FrameM α} (h : Does (Frame.keeping L) P x) :
    Does (Situation.keeping L C) P (liftM x : StepM σ α) where
  ok := by
    intro s a t e
    rw [liftM_frame_apply] at e
    split at e
    · next done =>
      cases e
      exact ⟨⟨(h.ok done).1, (World.keeping C).refl _⟩, (h.ok done).2⟩
    · cases e
  error := by
    intro s e t he
    rw [liftM_frame_apply] at he
    split at he
    · cases he
    · next failed =>
      cases he
      exact ⟨h.error failed, (World.keeping C).refl _⟩

/-- An operation on the world leaves the frame alone. -/
theorem Does.inWorld {x : WorldM σ α} (h : Does (World.keeping C) P x) :
    Does (Situation.keeping L C) P (Suspension.inWorld x) where
  ok := by
    intro s a t e
    rw [inWorld_apply] at e
    split at e
    · next done =>
      cases e
      exact ⟨⟨(Frame.keeping L).refl _, (h.ok done).1⟩, (h.ok done).2⟩
    · cases e
  error := by
    intro s e t he
    rw [inWorld_apply] at he
    split at he
    · cases he
    · next failed =>
      cases he
      exact ⟨(Frame.keeping L).refl _, h.error failed⟩

end

end Suspension
