import Suspension.Proofs.Machine.Growth

/-!
# Objects that are handed out

What becomes of references to objects under any sequence of operations on an empty heap.  Equal string constants
share one object, and so do requests for one face of one context; two tables lead to these objects, and have to
agree with the heap and with each other.  What one operation can do to a heap is said once, in `Heap.Moves`; the
laws are shown of it, and then for any sequence of operations.

## Main definitions
* `HeapOp`, `HeapOp.run`, `World.afterAll`: the operations, one of them carried out, and many of them.
* `HeapObject.bare`: an object but for what its fields hold.
* `Heap.shared?`, `Heap.Indexed`: the object that is shared by all who ask for it, and tables that are right.
* `Heap.Moves`: what one operation can do.
* `World.Canonical`: the laws of the references that are handed out.

## Main results
* `HeapOp.moves`: an operation does one of these things.
* `World.continues_afterAll`: nothing that was handed out is lost under operations.
* `references_canonical`: the laws hold after any operations on an empty heap.
-/

namespace Suspension

variable {σ : Type}

/-- The operations that hand out an object, and the one that changes an object. -/
inductive HeapOp where
  | alloc (o : HeapObject)
  | intern (s : String)
  | handle (id : ContextId) (face : ContextFace)
  | setField (r : ObjectId) (name : String) (v : Value)

namespace HeapOp

/-- Carries out an operation, which may hand out an object. -/
def run : HeapOp → WorldM σ (Option ObjectId)
  | .alloc o => some <$> World.alloc o
  | .intern s => some <$> World.intern s
  | .handle id face => some <$> World.handle id face
  | .setField r name v => do
    World.setField r name v
    return none

/-- What an operation answers. -/
def answer (op : HeapOp) (w : World σ) : Except ExecError (Option ObjectId) :=
  match op.run w with
  | .ok r _ => .ok r
  | .error e _ => .error e

/-- The world that an operation leaves, even one that fails. -/
def after (op : HeapOp) (w : World σ) : World σ :=
  match op.run w with
  | .ok _ w' | .error _ w' => w'

/-- The object that is shared by all who ask for it in this way. -/
def shares : HeapOp → Option HeapObject
  | .intern s => some (.string s)
  | .handle id face => some (.handle face id)
  | .alloc _ | .setField .. => none

/-- The object that is asked for. -/
def asks : HeapOp → Option HeapObject
  | .alloc o => some o
  | op => op.shares

end HeapOp

/-- The world that operations leave. -/
def World.afterAll (w : World σ) (ops : List HeapOp) : World σ := ops.foldl (fun w op => op.after w) w

/-- An object without what its fields hold: what it is an object of. -/
def HeapObject.bare : HeapObject → HeapObject
  | .plain className _ => .new className
  | o => o

namespace Heap

/-- The object that is shared by all who ask for it. -/
def shared? (h : Heap) : HeapObject → Option ObjectId
  | .string s => h.strings[s]?
  | .handle face id => h.handles.lookup (id, face)
  | _ => none

/-- The tables lead to what they are asked for. -/
def Indexed (h : Heap) : Prop := ∀ o r, h.shared? o = some r → h.get? r = some o

/-- Heaps that differ in one object only. -/
structure Replaces (h h' : Heap) (r : ObjectId) (o : HeapObject) : Prop where
  next : h'.objects.nextId = h.objects.nextId
  strings : h'.strings = h.strings
  handles : h'.handles = h.handles
  get? : ∀ other, h'.get? other = if other = r then some o else h.get? other

end Heap

/-- The laws of the references that are handed out from now on. -/
structure World.Canonical (w : World σ) : Prop where
  /-- What is asked for is handed out, and stays on the heap, the same but for what its fields hold. -/
  handed : ∀ (op : HeapOp) o, op.asks = some o → ∃ r, op.answer w = .ok (some r) ∧
    ∀ more, ∃ o', (w.afterAll (op :: more)).heap.get? r = some o' ∧ o'.bare = o.bare
  /-- A new object was not there before, and is not handed out again. -/
  allocated : ∀ o r, (HeapOp.alloc o).answer w = .ok (some r) → w.heap.get? r = none ∧
    ∀ more (op : HeapOp), op.answer (w.afterAll (.alloc o :: more)) ≠ .ok (some r)
  /-- A string constant stays that string, and is handed out whenever it is asked for, and to nobody else. -/
  interned : ∀ s r, (HeapOp.intern s).answer w = .ok (some r) → ∀ more,
    (w.afterAll (.intern s :: more)).heap.get? r = some (.string s) ∧
      ∀ op : HeapOp, op.answer (w.afterAll (.intern s :: more)) = .ok (some r) ↔ op = .intern s
  /-- A handle stays that of its face of its context, and is handed out whenever it is asked for, and to nobody
  else. -/
  handled : ∀ id face r, (HeapOp.handle id face).answer w = .ok (some r) → ∀ more,
    (w.afterAll (.handle id face :: more)).heap.get? r = some (.handle face id) ∧
      ∀ op : HeapOp, op.answer (w.afterAll (.handle id face :: more)) = .ok (some r) ↔ op = .handle id face
  /-- A field of an instance is set, and nothing else changes; if there is no such instance, nothing changes. -/
  assigned : ∀ r name v,
    match w.heap.get? r with
    | some (.plain className fields) => (HeapOp.setField r name v).answer w = .ok none ∧
        w.heap.Replaces ((HeapOp.setField r name v).after w).heap r (.plain className (fields.insert name v))
    | some _ => (HeapOp.setField r name v).answer w = .error (.typeMismatch .plainObject (.object r)) ∧
        (HeapOp.setField r name v).after w = w
    | none => (HeapOp.setField r name v).answer w = .error (.danglingRef r) ∧
        (HeapOp.setField r name v).after w = w

/-! ## What one operation can do -/

namespace Heap

variable {h h' h'' : Heap} {op : HeapOp} {answer : Except ExecError (Option ObjectId)} {r : ObjectId} {o : HeapObject}

/-- An object was added. -/
structure Adds (h h' : Heap) (r : ObjectId) (o : HeapObject) : Prop where
  unused : h.get? r = none
  get? : ∀ other, h'.get? other = if other = r then some o else h.get? other

/-- What an operation can answer and leave. -/
inductive Moves (h : Heap) : HeapOp → Except ExecError (Option ObjectId) → Heap → Prop
  | alloc {o : HeapObject} {r : ObjectId} {h' : Heap} (adds : h.Adds h' r o)
      (same : ∀ other, h'.shared? other = h.shared? other) : Moves h (.alloc o) (.ok (some r)) h'
  | find {op : HeapOp} {o : HeapObject} {r : ObjectId} (shares : op.shares = some o) (there : h.shared? o = some r) :
      Moves h op (.ok (some r)) h
  | share {op : HeapOp} {o : HeapObject} {r : ObjectId} {h' : Heap} (shares : op.shares = some o)
      (missing : h.shared? o = none) (adds : h.Adds h' r o) (here : h'.shared? o = some r)
      (others : ∀ other, other ≠ o → h'.shared? other = h.shared? other) : Moves h op (.ok (some r)) h'
  | assign {r : ObjectId} {name : String} {v : Value} {className : String} {fields : Std.ExtTreeMap String Value}
      {h' : Heap} (there : h.get? r = some (.plain className fields))
      (replaces : h.Replaces h' r (.plain className (fields.insert name v))) : Moves h (.setField r name v) (.ok none) h'
  | refuse {r : ObjectId} {name : String} {v : Value} (e : ExecError) : Moves h (.setField r name v) (.error e) h

theorem adds_alloc (h : Heap) (o : HeapObject) : h.Adds (h.alloc o).2 (h.alloc o).1 o where
  unused := Arena.get?_eq_none_of_le _ (Nat.le_refl _)
  get? other := by
    by_cases own : other = (h.alloc o).1
    · rw [if_pos own, own, get?_alloc_self]
    · have index : other.index ≠ h.objects.nextId := fun same => own (congrArg ObjectId.mk same)
      rw [if_neg own, get?_alloc, if_neg index]

theorem shared?_alloc (h : Heap) (o other : HeapObject) : (h.alloc o).2.shared? other = h.shared? other := by
  cases other <;> rfl

/-- A string constant is there, or it is added. -/
theorem moves_intern (h : Heap) (s : String) : h.Moves (.intern s) (.ok (some (h.intern s).1)) (h.intern s).2 := by
  unfold intern
  split
  · next r there => exact .find (o := .string s) rfl there
  · next missing =>
    have here : (h.strings.insert s (h.alloc (.string s)).1)[s]? = some (h.alloc (.string s)).1 := by
      rw [Std.ExtTreeMap.getElem?_insert_self]
    have added := adds_alloc h (.string s)
    refine .share (o := .string s) rfl missing ⟨added.unused, added.get?⟩ here ?_
    intro other ne
    cases other with
    | string s' =>
      refine (Std.ExtTreeMap.getElem?_insert ..).trans (if_neg fun same => ne ?_)
      rw [Std.LawfulEqCmp.eq_of_compare same]
    | _ => rfl

/-- A handle is there, or it is added. -/
theorem moves_handle (h : Heap) (id : ContextId) (face : ContextFace) :
    h.Moves (.handle id face) (.ok (some (h.handle id face).1)) (h.handle id face).2 := by
  unfold handle
  split
  · next r there => exact .find (o := .handle face id) rfl there
  · next missing =>
    have added := adds_alloc h (.handle face id)
    have here : (((id, face), (h.alloc (.handle face id)).1) :: h.handles).lookup (id, face) =
        some (h.alloc (.handle face id)).1 := List.lookup_cons_self
    refine .share (o := .handle face id) rfl missing ⟨added.unused, added.get?⟩ here ?_
    intro other ne
    cases other with
    | handle face' id' =>
      have different : ((id', face') == (id, face)) = false := by
        rw [beq_eq_false_iff_ne]
        rintro ⟨⟩
        exact ne rfl
      exact List.lookup_cons.trans (by rw [different]; rfl)
    | _ => rfl

theorem replaces_set {old : HeapObject} (there : h.get? r = some old) (o : HeapObject) : h.Replaces (h.set r o) r o where
  next := Arena.nextId_set ..
  strings := rfl
  handles := rfl
  get? other := get?_set h r other o (by rw [there, Option.isSome_some])

theorem Replaces.shared? (h' : h.Replaces h'' r o) (other : HeapObject) : h''.shared? other = h.shared? other := by
  cases other <;> simp only [Heap.shared?, h'.strings, h'.handles]

end Heap

namespace HeapOp

/-- The answer of an assignment, and the world that it leaves.  What is there decides: nothing, an instance, or
an object without fields. -/
theorem setField_eq (r : ObjectId) (name : String) (v : Value) (w : World σ) :
    match w.heap.get? r with
    | some (.plain className fields) => (HeapOp.setField r name v).answer w = .ok none ∧
        (HeapOp.setField r name v).after w =
          { w with heap := w.heap.set r (.plain className (fields.insert name v)) }
    | some _ => (HeapOp.setField r name v).answer w = .error (.typeMismatch .plainObject (.object r)) ∧
        (HeapOp.setField r name v).after w = w
    | none => (HeapOp.setField r name v).answer w = .error (.danglingRef r) ∧
        (HeapOp.setField r name v).after w = w := by
  have ran : (HeapOp.setField r name v).run w =
      match w.heap.setField r name v with
      | .ok heap => .ok none { w with heap }
      | .error e => .error e w := by
    simp only [run, bind_apply, World.setField, World.changeHeap]
    cases w.heap.setField r name v <;> rfl
  cases there : w.heap.get? r with
  | none =>
    have failed : w.heap.setField r name v = .error (.danglingRef r) := by
      rw [Heap.setField, Heap.get, there]
      rfl
    rw [failed] at ran
    simp only [answer, after, ran, and_self]
  | some o =>
    cases o with
    | plain className fields =>
      have done := Heap.setField_eq there name v
      rw [done] at ran
      simp only [answer, after, ran, and_self]
    | _ =>
      have failed : w.heap.setField r name v = .error (.typeMismatch .plainObject (.object r)) := by
        rw [Heap.setField, Heap.get, there]
        rfl
      rw [failed] at ran
      simp only [answer, after, ran, and_self]

/-- An operation does one of these things to the heap. -/
theorem moves (op : HeapOp) (w : World σ) : w.heap.Moves op (op.answer w) (op.after w).heap := by
  cases op with
  | alloc o => exact .alloc (Heap.adds_alloc w.heap o) (Heap.shared?_alloc w.heap o)
  | intern s => exact Heap.moves_intern w.heap s
  | handle id face => exact Heap.moves_handle w.heap id face
  | setField r name v =>
    have assigned := setField_eq r name v w
    split at assigned
    · next there =>
      rw [assigned.1, assigned.2]
      exact .assign there (Heap.replaces_set there _)
    all_goals
      rw [assigned.1, assigned.2]
      exact .refuse _

end HeapOp

/-! ## What the operations keep -/

namespace Heap

variable {h h' h'' : Heap} {op : HeapOp} {answer : Except ExecError (Option ObjectId)} {r : ObjectId} {o : HeapObject}

/-- What was on a heap is still there, the same but for what fields hold; what was shared still is, and what is newly
shared is new. -/
structure Continues (h h' : Heap) : Prop where
  kept : ∀ r o, h.get? r = some o → ∃ o', h'.get? r = some o' ∧ o'.bare = o.bare
  shared : ∀ o r, h.shared? o = some r → h'.shared? o = some r
  fresh : ∀ o r, h'.shared? o = some r → h.shared? o = some r ∨ h.get? r = none

namespace Continues

theorem refl (h : Heap) : h.Continues h :=
  ⟨fun _ o there => ⟨o, there, rfl⟩, fun _ _ there => there, fun _ _ there => .inl there⟩

/-- What is missing later was missing before. -/
theorem missing (c : h.Continues h') (gone : h'.get? r = none) : h.get? r = none := by
  refine Option.eq_none_iff_forall_ne_some.2 fun o there => ?_
  obtain ⟨o', later, -⟩ := c.kept r o there
  rw [gone] at later
  cases later

theorem trans (c : h.Continues h') (c' : h'.Continues h'') : h.Continues h'' where
  kept r o there := by
    obtain ⟨o', there', bare⟩ := c.kept r o there
    obtain ⟨o'', there'', bare'⟩ := c'.kept r o' there'
    exact ⟨o'', there'', bare'.trans bare⟩
  shared o r there := c'.shared o r (c.shared o r there)
  fresh o r there := (c'.fresh o r there).elim (c.fresh o r) fun gone => .inr (c.missing gone)

end Continues

theorem Adds.get?_self (adds : h.Adds h' r o) : h'.get? r = some o := by
  rw [adds.get?, if_pos rfl]

theorem Adds.get?_of_get? (adds : h.Adds h' r o) {other : ObjectId} {o' : HeapObject} (there : h.get? other = some o') :
    h'.get? other = some o' := by
  have ne : other ≠ r := by
    rintro rfl
    rw [adds.unused] at there
    cases there
  rw [adds.get?, if_neg ne, there]

/-- An operation loses nothing that is there.  Tables only grow, and the instance that is assigned keeps its
class. -/
theorem Moves.continues (moves : h.Moves op answer h') : h.Continues h' := by
  cases moves with
  | alloc adds same =>
    exact ⟨fun r o there => ⟨o, adds.get?_of_get? there, rfl⟩, fun o r there => (same o).trans there,
      fun o r there => .inl ((same o).symm.trans there)⟩
  | find | refuse => exact .refl h
  | @share _ o r _ _ missing adds here others =>
    refine ⟨fun r o there => ⟨o, adds.get?_of_get? there, rfl⟩, fun other r' there => ?_, fun other r' there => ?_⟩
    · have ne : other ≠ o := by
        rintro rfl
        rw [missing] at there
        cases there
      exact (others other ne).trans there
    · by_cases own : other = o
      · subst own
        obtain rfl := Option.some.inj (here.symm.trans there)
        exact .inr adds.unused
      · exact .inl ((others other own).symm.trans there)
  | @assign r _ _ className _ _ there replaces =>
    refine ⟨fun r' o there' => ?_, fun o r' shared => (replaces.shared? o).trans shared,
      fun o r' shared => .inl ((replaces.shared? o).symm.trans shared)⟩
    rw [replaces.get?]
    by_cases own : r' = r
    · subst own
      obtain rfl := Option.some.inj (there.symm.trans there')
      exact ⟨_, if_pos rfl, rfl⟩
    · exact ⟨o, (if_neg own).trans there', rfl⟩

/-- Shared objects hold no fields. -/
theorem bare_eq_of_shared {s : HeapObject} (there : h.shared? s = some r) (bare : o.bare = s.bare) : o = s := by
  cases s with
  | string | handle =>
    cases o with
    | plain => cases bare
    | _ => exact bare
  | _ => cases there

/-- An operation leaves tables that are right. -/
theorem Moves.indexed (moves : h.Moves op answer h') (indexed : h.Indexed) : h'.Indexed := by
  have kept {s : HeapObject} {r : ObjectId} (there : h.shared? s = some r) : h'.get? r = some s := by
    obtain ⟨o, later, bare⟩ := moves.continues.kept r s (indexed s r there)
    exact bare_eq_of_shared there bare ▸ later
  cases moves with
  | alloc adds same => exact fun o r there => kept ((same o).symm.trans there)
  | find | refuse => exact indexed
  | @share _ o r _ _ missing adds here others =>
    intro other r' there
    by_cases own : other = o
    · subst own
      obtain rfl := Option.some.inj (here.symm.trans there)
      exact adds.get?_self
    · exact kept ((others other own).symm.trans there)
  | assign there replaces => exact fun o r shared => kept ((replaces.shared? o).symm.trans shared)

/-! ### Answers -/

/-- Whoever asks for an object is handed one, and it is what was asked for. -/
theorem Moves.handed (moves : h.Moves op answer h') (indexed : h.Indexed) (asks : op.asks = some o) :
    ∃ r, answer = .ok (some r) ∧ h'.get? r = some o := by
  have asked {s : HeapObject} (shares : op.shares = some s) : s = o := by
    cases op with
    | intern | handle => exact Option.some.inj (shares.symm.trans asks)
    | alloc | setField => cases shares
  cases moves with
  | alloc adds =>
    cases asks
    exact ⟨_, rfl, adds.get?_self⟩
  | find shares there =>
    obtain rfl := asked shares
    exact ⟨_, rfl, indexed _ _ there⟩
  | share shares _ adds =>
    obtain rfl := asked shares
    exact ⟨_, rfl, adds.get?_self⟩
  | assign | refuse => cases asks

/-- A new object was not there. -/
theorem Moves.unused_of_alloc (moves : h.Moves (.alloc o) (.ok (some r)) h') :
    h.get? r = none ∧ ∀ s, h'.shared? s = h.shared? s := by
  cases moves with
  | alloc adds same => exact ⟨adds.unused, same⟩
  | find shares | share shares => cases shares

/-- What is asked for together is shared from then on. -/
theorem Moves.shared_of_shares (moves : h.Moves op (.ok (some r)) h') (shares : op.shares = some o) :
    h'.shared? o = some r := by
  cases moves with
  | alloc => cases shares
  | find shares' there =>
    obtain rfl := Option.some.inj (shares.symm.trans shares')
    exact there
  | share shares' _ _ here =>
    obtain rfl := Option.some.inj (shares.symm.trans shares')
    exact here

/-- What is shared is handed out again. -/
theorem Moves.answer_of_shared (moves : h.Moves op answer h') (shares : op.shares = some o)
    (there : h.shared? o = some r) : answer = .ok (some r) := by
  cases moves with
  | find shares' there' =>
    obtain rfl := Option.some.inj (shares.symm.trans shares')
    rw [← there, there']
  | share shares' missing =>
    obtain rfl := Option.some.inj (shares.symm.trans shares')
    rw [missing] at there
    cases there
  | alloc | assign | refuse => cases shares

/-- An object that is there is handed out only as one that is shared. -/
theorem Moves.shared_of_known (moves : h.Moves op (.ok (some r)) h') (known : h.get? r = some o) :
    ∃ s, op.shares = some s ∧ h.shared? s = some r := by
  cases moves with
  | find shares there => exact ⟨_, shares, there⟩
  | alloc adds | share _ _ adds =>
    rw [adds.unused] at known
    cases known

theorem indexed_empty : Indexed {} := by
  intro o r there
  cases o <;> cases there

end Heap

/-! ## What any operations keep -/

/-- Two requests for one shared object are the same. -/
theorem HeapOp.eq_of_shares {op op' : HeapOp} {o : HeapObject} (h : op.shares = some o) (h' : op'.shares = some o) :
    op = op' := by
  cases op with
  | intern s =>
    cases h
    cases op' with
    | intern s' =>
      cases h'
      rfl
    | _ => cases h'
  | handle id face =>
    cases h
    cases op' with
    | handle id' face' =>
      cases h'
      rfl
    | _ => cases h'
  | _ => cases h

namespace World

variable {w : World σ}

/-- Nothing that was handed out is lost under operations. -/
theorem continues_afterAll (w : World σ) (ops : List HeapOp) : w.heap.Continues (w.afterAll ops).heap := by
  induction ops generalizing w with
  | nil => exact .refl _
  | cons op ops ih => exact (op.moves w).continues.trans (ih (op.after w))

theorem indexed_afterAll (indexed : w.heap.Indexed) (ops : List HeapOp) : (w.afterAll ops).heap.Indexed := by
  induction ops generalizing w with
  | nil => exact indexed
  | cons op ops ih => exact ih ((op.moves w).indexed indexed)

/-- A shared object stays what it is, and is handed out to those who ask for it as it was asked for first. -/
theorem shared_again (indexed : w.heap.Indexed) {op : HeapOp} {o : HeapObject} {r : ObjectId}
    (shares : op.shares = some o) (answered : op.answer w = .ok (some r)) (more : List HeapOp) :
    (w.afterAll (op :: more)).heap.get? r = some o ∧
      ∀ op' : HeapOp, op'.answer (w.afterAll (op :: more)) = .ok (some r) ↔ op' = op := by
  have shared : (w.afterAll (op :: more)).heap.shared? o = some r :=
    (continues_afterAll (op.after w) more).shared o r ((answered ▸ op.moves w).shared_of_shares shares)
  have right := indexed_afterAll indexed (op :: more)
  have there := right o r shared
  refine ⟨there, fun op' => ⟨fun again => ?_, ?_⟩⟩
  · obtain ⟨o', shares', shared'⟩ := (again ▸ op'.moves (w.afterAll (op :: more))).shared_of_known there
    obtain rfl := Option.some.inj (there.symm.trans (right o' r shared'))
    exact HeapOp.eq_of_shares shares' shares
  · rintro rfl
    exact (op'.moves (w.afterAll (op' :: more))).answer_of_shared shares shared

/-- The laws hold as long as the tables are right.  Whatever is shared later was shared before the object was
there, or is newer than the object. -/
theorem canonical_of_indexed (indexed : w.heap.Indexed) : w.Canonical where
  handed op o asks := by
    obtain ⟨r, answered, there⟩ := (op.moves w).handed indexed asks
    exact ⟨r, answered, fun more => (continues_afterAll (op.after w) more).kept r o there⟩
  allocated o r answered := by
    have moves := answered ▸ (HeapOp.alloc o).moves w
    obtain ⟨unused, same⟩ := moves.unused_of_alloc
    obtain ⟨_, ⟨⟩, there⟩ := moves.handed indexed rfl
    refine ⟨unused, fun more op again => ?_⟩
    have continues := continues_afterAll ((HeapOp.alloc o).after w) more
    obtain ⟨_, known, -⟩ := continues.kept r o there
    obtain ⟨s, -, shared⟩ := (again ▸ op.moves (w.afterAll (.alloc o :: more))).shared_of_known known
    rcases continues.fresh s r shared with before | newer
    · rw [indexed s r ((same s).symm.trans before)] at unused
      cases unused
    · rw [there] at newer
      cases newer
  interned s r answered more := shared_again indexed rfl answered more
  handled id face r answered more := shared_again indexed rfl answered more
  assigned r name v := by
    have assigned := HeapOp.setField_eq r name v w
    split at assigned
    · next there =>
      rw [assigned.2]
      exact ⟨assigned.1, Heap.replaces_set there _⟩
    · exact assigned
    · exact assigned

end World

/-- After any operations on an empty heap, what is asked for is handed out, and stays what it is; equal strings and
equal handles are handed out as one object, which is handed out to nobody else; and a field is set without changing
anything else. -/
theorem references_canonical (w : World σ) (ops : List HeapOp) :
    (({ w with heap := {} } : World σ).afterAll ops).Canonical :=
  World.canonical_of_indexed (World.indexed_afterAll Heap.indexed_empty ops)

/-- An object that was allocated with the text of a constant is not handed out as that constant. -/
example :
    ((HeapOp.intern "x").answer (({ outside := () } : World Unit).afterAll
      [.alloc (.string "x"), .intern "x", .handle ⟨0⟩ .context])).toOption = some (some ⟨1⟩) := by
  decide +kernel

end Suspension
