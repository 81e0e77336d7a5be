import Mathlib.Data.List.Induction
import Suspension.Proofs.Machine.Requests

/-!
# Histories of contexts

What the ids and the queue of contexts are after any sequence of operations, from no contexts at all.  What one
operation can do to contexts is said once, in `Contexts.Moves`; the laws are shown of it, and then for histories
by induction on their length.

## Main definitions
* `ContextsOp`, `ContextsOp.turn`, `Contexts.history`: the operations, one of them carried out, and all of them.
* `Turn.opened`, `Turn.copied`, `Queued`: the new ids, the copies, and the copy that waits after a history.
* `Contexts.Moves`: what one operation can do.
* `Lawful`: the laws of a history.

## Main results
* `ContextsOp.moves`: an operation does one of these things.
* `queued_snoc`: which copy waits after one more operation.
* `history_lawful`: the laws hold of every history.
-/

namespace Suspension

/-- The operations on contexts; the last one replaces what may be replaced of a live context. -/
inductive ContextsOp where
  | createOrReset
  | resume (id : ContextId)
  | answer (id : ContextId) (v : Value)
  | reset
  | register (id : ContextId)
  | deactivate (id : ContextId)
  | change (id : ContextId) (label : Int32) (vars stack : Store) (callAnswer : Option Value)

namespace ContextsOp

/-- The id that an operation hands out, if it hands out one, and the contexts that it leaves. -/
def run (cs : Contexts) : ContextsOp → Except ExecError (Option ContextId × Contexts)
  | .createOrReset => .ok (some cs.createOrReset.1, cs.createOrReset.2)
  | .resume id => (fun (copy, cs) => (some copy, cs)) <$> cs.resume id
  | .answer id v => (fun (copy, cs) => (some copy, cs)) <$> cs.answer id v
  | .reset => .ok (none, cs.reset)
  | .register id => (none, ·) <$> cs.register id
  | .deactivate id => .ok (none, cs.deactivate id)
  | .change id label vars stack callAnswer =>
    (none, ·) <$> cs.modify id fun c => { c with label, vars, stack, callAnswer }

/-- The id that has to be live. -/
def needs : ContextsOp → Option ContextId
  | .resume id | .answer id _ | .register id | .change id .. => some id
  | .createOrReset | .reset | .deactivate _ => none

end ContextsOp

/-- An operation that was carried out, with the contexts before and after it. -/
structure Turn where
  before : Contexts
  op : ContextsOp
  answer : Except ExecError (Option ContextId)
  after : Contexts

/-- Carries out an operation; one that fails leaves the contexts as they were. -/
def ContextsOp.turn (op : ContextsOp) (cs : Contexts) : Turn :=
  match op.run cs with
  | .ok (id, after) => ⟨cs, op, .ok id, after⟩
  | .error e => ⟨cs, op, .error e, cs⟩

namespace Contexts

/-- Carries out operations one after the other. -/
def history : Contexts → List ContextsOp → List Turn
  | _, [] => []
  | cs, op :: ops => op.turn cs :: history (op.turn cs).after ops

/-- The contexts that operations leave. -/
def afterAll (cs : Contexts) (ops : List ContextsOp) : Contexts :=
  ops.foldl (fun cs op => (op.turn cs).after) cs

end Contexts

/-! ## What is said of a history -/

namespace Turn

/-- The id that was handed out for a new context. -/
def opened (t : Turn) : Option ContextId :=
  match t.answer with
  | .ok (some id) => if t.before.contains id then none else some id
  | _ => none

/-- The copy that was made. -/
def copied (t : Turn) : Option ContextId :=
  match t.op, t.answer with
  | .resume _, .ok id => id
  | .answer _ _, .ok id => id
  | _, _ => none

/-- The operation decides which copy waits: it takes what waits, forgets it, or makes another copy. -/
def Settles (t : Turn) : Prop := t.op = .createOrReset ∨ t.op = .reset ∨ t.copied.isSome = true

/-- A copy waits after an operation: it was made by it, or it waited before, and the operation neither decided what
waits nor dropped it. -/
def Leaves (t : Turn) (copy : ContextId) (waited : Prop) : Prop :=
  t.copied = some copy ∨ waited ∧ ¬t.Settles ∧ t.op ≠ .deactivate copy

/-- A live context was copied under a new id, changed by `f`, and all others were left alone; an id that is not
live was refused. -/
def Copies (t : Turn) (id : ContextId) (f : Context → Context) : Prop :=
  match t.before.get? id with
  | some c => ∃ copy, t.answer = .ok (some copy) ∧ t.opened = some copy ∧
      ∀ other, t.after.get? other = if other = copy then some (f c) else t.before.get? other
  | none => t.answer = .error (.unknownContext id) ∧ t.after = t.before

end Turn

/-- A copy waits after a history: it was made, since then nothing settled what waits, and it was not dropped. -/
def Queued (turns : List Turn) (copy : ContextId) : Prop :=
  ∃ earlier t since, turns = earlier ++ t :: since ∧ t.copied = some copy ∧
    ∀ u ∈ since, ¬u.Settles ∧ u.op ≠ .deactivate copy

/-- The laws of a history. -/
structure Lawful (turns : List Turn) : Prop where
  /-- New ids are larger than all earlier ones. -/
  ids : (turns.filterMap Turn.opened).Pairwise fun a b => a.index < b.index
  /-- What is live has an id that was handed out. -/
  live : ∀ earlier t later, turns = earlier ++ t :: later → ∀ id c, t.before.get? id = some c →
    id ∈ earlier.filterMap Turn.opened
  /-- What was dropped is never live again. -/
  dropped : ∀ earlier t later id, turns = earlier ++ t :: later → t.op = .deactivate id →
    id ∈ earlier.filterMap Turn.opened → ∀ u ∈ later, u.before.get? id = none ∧ u.after.get? id = none
  /-- Exactly what is live can be resumed, and the copy names it as its parent. -/
  resumed : ∀ t ∈ turns, ∀ id, t.op = .resume id →
    t.Copies id fun c => { c with parent := some id, registered := false }
  /-- An answer resumes and hands over a value. -/
  answered : ∀ t ∈ turns, ∀ id v, t.op = .answer id v →
    t.Copies id fun c => { c with parent := some id, registered := false, callAnswer := some v }
  /-- The parent of a context is older than it. -/
  parents : ∀ t ∈ turns, ∀ id c p, t.after.get? id = some c → c.parent = some p → p.index < id.index
  /-- A chain of parents comes to an end. -/
  chains : ∀ t ∈ turns, ∀ id chain,
    (id :: chain).IsChain (fun id p => ∃ c, t.after.get? id = some c ∧ c.parent = some p) → chain.length ≤ id.index
  /-- The copy that waits is handed out, and it is live. -/
  taken : ∀ earlier t later copy, turns = earlier ++ t :: later → t.op = .createOrReset → Queued earlier copy →
    t.answer = .ok (some copy) ∧ t.before.contains copy = true ∧ ∀ id, t.after.get? id = t.before.get? id
  /-- If no copy waits, a context is handed out that is new and empty. -/
  fresh : ∀ earlier t later, turns = earlier ++ t :: later → t.op = .createOrReset → (∀ copy, ¬Queued earlier copy) →
    ∃ id, t.answer = .ok (some id) ∧ t.opened = some id ∧
      ∀ other, t.after.get? other =
        if other = id then some { parent := none, label := -1, vars := {}, stack := {} } else t.before.get? other

/-! ## What one operation can do -/

namespace Contexts

/-- What an operation can answer and leave. -/
inductive Moves (cs : Contexts) : ContextsOp → Except ExecError (Option ContextId) → Contexts → Prop
  | take {id : ContextId} (waits : cs.pending = some id) (live : cs.contains id = true) :
      Moves cs .createOrReset (.ok (some id)) { cs with pending := none, current := some id }
  | create (idle : ∀ id, cs.pending = some id → cs.contains id = false) :
      Moves cs .createOrReset (.ok (some (cs.add {}).1))
        { (cs.add {}).2 with pending := none, current := some (cs.add {}).1 }
  | resume {id copy : ContextId} {c : Context} {cs' : Contexts} (live : cs.get? id = some c)
      (queues : Queues copy { c with parent := some id, registered := false } cs cs')
      (first : copy.index = cs.table.nextId) (grown : cs.table.nextId ≤ cs'.table.nextId) :
      Moves cs (.resume id) (.ok (some copy)) cs'
  | answer {id copy : ContextId} {v : Value} {c : Context} {cs' : Contexts} (live : cs.get? id = some c)
      (queues : Queues copy { c with parent := some id, registered := false, callAnswer := some v } cs cs')
      (first : copy.index = cs.table.nextId) (grown : cs.table.nextId ≤ cs'.table.nextId) :
      Moves cs (.answer id v) (.ok (some copy)) cs'
  | reset : Moves cs .reset (.ok none) cs.reset
  | register {id : ContextId} {c : Context} (live : cs.get? id = some c) :
      Moves cs (.register id) (.ok none) (cs.set id { c with registered := true })
  | change {id : ContextId} {c : Context} (label : Int32) (vars stack : Store) (callAnswer : Option Value)
      (live : cs.get? id = some c) :
      Moves cs (.change id label vars stack callAnswer) (.ok none)
        (cs.set id { c with label, vars, stack, callAnswer })
  | deactivate (id : ContextId) : Moves cs (.deactivate id) (.ok none) (cs.deactivate id)
  | refuse {op : ContextsOp} {id : ContextId} (dead : cs.get? id = none) (needs : op.needs = some id) :
      Moves cs op (.error (.unknownContext id)) cs

end Contexts

namespace ContextsOp

variable {op : ContextsOp} {cs after : Contexts} {id : ContextId} {c : Context}

theorem turn_of_ok {handed : Option ContextId} (ran : op.run cs = .ok (handed, after)) :
    op.turn cs = ⟨cs, op, .ok handed, after⟩ := by
  rw [turn, ran]

/-- An operation on an id that is not live is refused. -/
theorem turn_of_dead (dead : cs.get? id = none) (needs : op.needs = some id) :
    op.turn cs = ⟨cs, op, .error (.unknownContext id), cs⟩ := by
  have missing : cs.get id = .error (.unknownContext id) := by rw [Contexts.get, dead]
  have failed : op.run cs = .error (.unknownContext id) := by
    cases op with
    | resume => cases needs; rw [run, Contexts.resume, missing]; rfl
    | answer => cases needs; rw [run, Contexts.answer, Contexts.resume, missing]; rfl
    | register => cases needs; rw [run, Contexts.register, Contexts.modify, missing]; rfl
    | change => cases needs; rw [run, Contexts.modify, missing]; rfl
    | createOrReset | reset | deactivate => cases needs
  rw [turn, failed]

/-- An operation does one of these things.  One on a context that is not live is refused, and any other one
runs. -/
theorem moves (op : ContextsOp) (cs : Contexts) : cs.Moves op (op.turn cs).answer (op.turn cs).after := by
  have refused {op : ContextsOp} {id : ContextId} (dead : cs.get? id = none) (needs : op.needs = some id) :
      cs.Moves op (op.turn cs).answer (op.turn cs).after :=
    turn_of_dead dead needs ▸ .refuse dead needs
  have modified {id : ContextId} {c : Context} (live : cs.get? id = some c) (f : Context → Context) :
      cs.modify id f = .ok (cs.set id (f c)) := by
    rw [Contexts.modify, Contexts.get, live]
    rfl
  cases op with
  | createOrReset =>
    change cs.Moves .createOrReset (.ok (some cs.createOrReset.1)) cs.createOrReset.2
    unfold Contexts.createOrReset
    cases waits : cs.pending.filter cs.contains with
    | some id =>
      obtain ⟨waits, live⟩ := Option.filter_eq_some_iff.1 waits
      exact .take waits live
    | none =>
      refine .create fun id pending => ?_
      simpa [pending] using waits
  | resume id =>
    cases live : cs.get? id with
    | none => exact refused live rfl
    | some c =>
      obtain ⟨copy, cs', resumed, -⟩ := Contexts.resume_queues live
      obtain ⟨d, found, queues, first, grown⟩ := Contexts.queues_of_resume resumed
      have ran : (ContextsOp.resume id).run cs = .ok (some copy, cs') := by rw [run, resumed]; rfl
      exact turn_of_ok ran ▸ .resume found queues first grown
  | answer id v =>
    cases live : cs.get? id with
    | none => exact refused live rfl
    | some c =>
      obtain ⟨copy, cs', answered, -⟩ := Contexts.answer_queues live v
      obtain ⟨d, found, queues, first, grown⟩ := Contexts.queues_of_answer answered
      have ran : (ContextsOp.answer id v).run cs = .ok (some copy, cs') := by rw [run, answered]; rfl
      exact turn_of_ok ran ▸ .answer found queues first grown
  | reset => exact .reset
  | register id =>
    cases live : cs.get? id with
    | none => exact refused live rfl
    | some c =>
      have ran : (ContextsOp.register id).run cs = .ok (none, cs.set id { c with registered := true }) := by
        rw [run, Contexts.register, modified live]; rfl
      exact turn_of_ok ran ▸ .register live
  | deactivate id => exact .deactivate id
  | change id label vars stack callAnswer =>
    cases live : cs.get? id with
    | none => exact refused live rfl
    | some c =>
      have ran : (ContextsOp.change id label vars stack callAnswer).run cs =
          .ok (none, cs.set id { c with label, vars, stack, callAnswer }) := by
        rw [run, modified live]; rfl
      exact turn_of_ok ran ▸ .change label vars stack callAnswer live

theorem turn_eq (op : ContextsOp) (cs : Contexts) : op.turn cs = ⟨cs, op, (op.turn cs).answer, (op.turn cs).after⟩ := by
  unfold turn
  split <;> rfl

end ContextsOp

/-! ## What the moves have in common -/

namespace Contexts

variable {cs cs' : Contexts} {op : ContextsOp} {answer : Except ExecError (Option ContextId)} {id copy : ContextId}
  {c : Context}

/-- One context was added, under the next id. -/
structure Adds (copy : ContextId) (c : Context) (cs cs' : Contexts) : Prop where
  first : copy.index = cs.table.nextId
  grown : cs.table.nextId ≤ cs'.table.nextId
  parent : ∀ p, c.parent = some p → p.index < copy.index
  get? : ∀ other, cs'.get? other = if other = copy then some c else cs.get? other

/-- No context was added; one may have been changed, but for its parent, or dropped. -/
structure Stays (cs cs' : Contexts) : Prop where
  next : cs'.table.nextId = cs.table.nextId
  get? : ∀ id c', cs'.get? id = some c' → ∃ c, cs.get? id = some c ∧ c'.parent = c.parent

theorem Stays.refl (cs : Contexts) : cs.Stays cs := ⟨rfl, fun _ c live => ⟨c, live, rfl⟩⟩

theorem stays_set (live : cs.get? id = some c) {c' : Context} (same : c'.parent = c.parent) :
    cs.Stays (cs.set id c') := by
  refine ⟨Arena.nextId_set .., fun other d found => ?_⟩
  rw [get?_set] at found
  split at found
  · next here =>
    cases found
    exact ⟨c, here.1 ▸ live, same⟩
  · exact ⟨d, found, rfl⟩

/-- The id of a context that is added was not live. -/
theorem Adds.unused (h : Adds copy c cs cs') : cs.contains copy = false := by
  rw [contains, Arena.contains, Arena.get?_eq_none_of_le _ (Nat.le_of_eq h.first.symm), Option.isSome_none]

/-- Its id is handed out as a new one. -/
theorem Adds.opened (h : Adds copy c cs cs') (op : ContextsOp) :
    Turn.opened ⟨cs, op, .ok (some copy), cs'⟩ = some copy := by
  rw [Turn.opened]
  simp only [h.unused]
  rfl

theorem Queues.adds {c' : Context} (queues : Queues copy c' cs cs') (live : cs.get? id = some c)
    (parent : c'.parent = some id) (first : copy.index = cs.table.nextId)
    (grown : cs.table.nextId ≤ cs'.table.nextId) : Adds copy c' cs cs' := by
  refine ⟨first, grown, fun p hp => ?_, queues.get?⟩
  obtain rfl := Option.some.inj (parent.symm.trans hp)
  exact first ▸ index_lt_of_get? live

theorem adds_add (cs : Contexts) (pending current : Option ContextId) :
    Adds (cs.add {}).1 {} cs { (cs.add {}).2 with pending, current } :=
  ⟨rfl, Nat.le_of_lt (by simp [add]), nofun, get?_add cs {}⟩

/-- An operation adds one context and hands out its id as a new one, or adds none and hands out no new id.  Only
three operations add a context; the others change one, drop one, or none. -/
theorem Moves.adds_or_stays (h : cs.Moves op answer cs') :
    (∃ copy c, Turn.opened ⟨cs, op, answer, cs'⟩ = some copy ∧ Adds copy c cs cs') ∨
      Turn.opened ⟨cs, op, answer, cs'⟩ = none ∧ cs.Stays cs' := by
  cases h with
  | take waits live =>
    refine .inr ⟨?_, rfl, fun _ c found => ⟨c, found, rfl⟩⟩
    rw [Turn.opened]
    simp only [live, if_true]
  | create idle => exact .inl ⟨_, _, (adds_add cs _ _).opened _, adds_add cs _ _⟩
  | resume live queues first grown =>
    have adds := queues.adds live rfl first grown
    exact .inl ⟨_, _, adds.opened _, adds⟩
  | answer live queues first grown =>
    have adds := queues.adds live rfl first grown
    exact .inl ⟨_, _, adds.opened _, adds⟩
  | reset => exact .inr ⟨rfl, rfl, fun _ c found => ⟨c, found, rfl⟩⟩
  | register live => exact .inr ⟨rfl, stays_set live rfl⟩
  | change _ _ _ _ live => exact .inr ⟨rfl, stays_set live rfl⟩
  | deactivate id =>
    refine .inr ⟨rfl, Arena.nextId_remove .., fun other c found => ?_⟩
    rw [get?_deactivate] at found
    split at found
    · cases found
    · exact ⟨c, found, rfl⟩
  | refuse => exact .inr ⟨rfl, .refl cs⟩

/-- A copy is queued and live. -/
def Waits (cs : Contexts) (copy : ContextId) : Prop := cs.pending = some copy ∧ cs.contains copy = true

theorem contains_set (cs : Contexts) (id other : ContextId) (c : Context) :
    (cs.set id c).contains other = cs.contains other := by
  change ((cs.set id c).get? other).isSome = (cs.get? other).isSome
  rw [get?_set]
  split
  · next here =>
    rw [here.1]
    exact here.2.symm
  · rfl

theorem contains_deactivate (cs : Contexts) (id other : ContextId) :
    (cs.deactivate id).contains other = true ↔ cs.contains other = true ∧ other ≠ id := by
  change ((cs.deactivate id).get? other).isSome = true ↔ (cs.get? other).isSome = true ∧ other ≠ id
  rw [get?_deactivate]
  split
  · next same => exact iff_of_false nofun fun h => h.2 same
  · next other => exact (and_iff_left other).symm

theorem not_waits_of_idle (idle : cs.pending = none) : ¬cs.Waits copy := fun h => nomatch idle.symm.trans h.1

/-- What waits after an operation is what it leaves of what waited.  A copy that is queued settles the question
by itself, what is stored in a context does not touch the queue, and a copy that is dropped does not wait any
more. -/
theorem Moves.waits_iff (h : cs.Moves op answer cs') (copy : ContextId) :
    cs'.Waits copy ↔ Turn.Leaves ⟨cs, op, answer, cs'⟩ copy (cs.Waits copy) := by
  have queued {op : ContextsOp} {new : ContextId} {c : Context} {cs' : Contexts} (queues : Queues new c cs cs')
      (copied : Turn.copied ⟨cs, op, .ok (some new), cs'⟩ = some new) :
      cs'.Waits copy ↔ Turn.Leaves ⟨cs, op, .ok (some new), cs'⟩ copy (cs.Waits copy) := by
    rw [Waits, queues.pending, Turn.Leaves, copied]
    constructor
    · exact fun h => .inl h.1
    · rintro (same | ⟨-, unsettled, -⟩)
      · refine ⟨same, contains_of_get? (c := c) ?_⟩
        rw [queues.get?, if_pos (Option.some.inj same).symm]
      · exact absurd (.inr (.inr (by rw [copied]; rfl))) unsettled
  cases h with
  | take | create | reset =>
    refine iff_of_false (not_waits_of_idle rfl) ?_
    rintro (copied | ⟨-, unsettled, -⟩)
    · cases copied
    · exact unsettled (by simp [Turn.Settles])
  | resume _ queues => exact queued queues rfl
  | answer _ queues => exact queued queues rfl
  | register | change =>
    rw [Waits, contains_set]
    refine ⟨fun waits => .inr ⟨waits, ?_, nofun⟩, ?_⟩
    · simp [Turn.Settles, Turn.copied]
    · rintro (copied | ⟨waits, -⟩)
      · cases copied
      · exact waits
  | deactivate id =>
    rw [Waits, contains_deactivate]
    constructor
    · rintro ⟨waits, live, other⟩
      refine .inr ⟨⟨waits, live⟩, by simp [Turn.Settles, Turn.copied], ?_⟩
      rintro ⟨⟩
      exact other rfl
    · rintro (copied | ⟨⟨waits, live⟩, -, other⟩)
      · cases copied
      · exact ⟨waits, live, fun same => other (same ▸ rfl)⟩
  | @refuse _ id dead needs =>
    have unsettled : ¬Turn.Settles ⟨cs, op, .error (.unknownContext id), cs⟩ ∧
        Turn.copied ⟨cs, op, .error (.unknownContext id), cs⟩ = none ∧ op ≠ .deactivate copy := by
      cases op <;> simp_all [Turn.Settles, Turn.copied, ContextsOp.needs]
    exact ⟨fun waits => .inr ⟨waits, unsettled.1, unsettled.2.2⟩,
      fun h => h.elim (fun copied => nomatch unsettled.2.1.symm.trans copied) (·.1)⟩

end Contexts

/-! ## Histories -/

/-- Which copy waits after a history, as the last operation has it.  That one has queued the copy, or it was
queued before and the last one left it. -/
theorem queued_snoc (turns : List Turn) (t : Turn) (copy : ContextId) :
    Queued (turns ++ [t]) copy ↔ t.Leaves copy (Queued turns copy) := by
  constructor
  · rintro ⟨earlier, u, since, same, copied, quiet⟩
    rcases List.eq_nil_or_concat since with none | ⟨between, last, more⟩
    · subst none
      obtain ⟨-, same⟩ := List.append_inj' same rfl
      obtain rfl : t = u := List.singleton_inj.1 same
      exact .inl copied
    · subst more
      have regrouped : turns ++ [t] = (earlier ++ u :: between) ++ [last] := by simpa using same
      obtain ⟨rfl, alike⟩ := List.append_inj' regrouped rfl
      obtain rfl : t = last := List.singleton_inj.1 alike
      have later : ∀ w ∈ between, ¬w.Settles ∧ w.op ≠ .deactivate copy := fun w hw => quiet w (by simp [hw])
      exact .inr ⟨⟨earlier, u, between, rfl, copied, later⟩, quiet t (by simp)⟩
  · rintro (copied | ⟨waited, last⟩)
    · exact ⟨turns, t, [], rfl, copied, fun _ none => absurd none List.not_mem_nil⟩
    · obtain ⟨earlier, u, since, same, copied, quiet⟩ := waited
      refine ⟨earlier, u, since ++ [t], by rw [same]; simp, copied, fun w hw => ?_⟩
      rcases List.mem_append.1 hw with hw | hw
      · exact quiet w hw
      · obtain rfl := List.mem_singleton.1 hw
        exact last

namespace Contexts

variable {cs cs' : Contexts} {ops more : List ContextsOp} {answer : Except ExecError (Option ContextId)}
  {id : ContextId}

theorem history_append (cs : Contexts) (ops more : List ContextsOp) :
    cs.history (ops ++ more) = cs.history ops ++ (cs.afterAll ops).history more := by
  induction ops generalizing cs with
  | nil => rfl
  | cons op ops ih =>
    rw [List.cons_append, history, ih]
    rfl

theorem afterAll_append (cs : Contexts) (ops more : List ContextsOp) :
    cs.afterAll (ops ++ more) = (cs.afterAll ops).afterAll more := List.foldl_append ..

/-- A history is divided where its operations are. -/
theorem history_eq_append {earlier later : List Turn} {t : Turn} (h : cs.history ops = earlier ++ t :: later) :
    ∃ first op rest, earlier = cs.history first ∧ t = op.turn (cs.afterAll first) ∧
      later = ((cs.afterAll first).afterAll [op]).history rest := by
  induction earlier generalizing cs ops with
  | nil =>
    cases ops with
    | nil => cases h
    | cons op rest =>
      obtain ⟨rfl, rfl⟩ := List.cons.inj h
      exact ⟨[], op, rest, rfl, rfl, rfl⟩
  | cons u earlier ih =>
    cases ops with
    | nil => cases h
    | cons op rest =>
      obtain ⟨rfl, left⟩ := List.cons.inj h
      obtain ⟨first, op', rest', rfl, rfl, rfl⟩ := ih left
      exact ⟨op :: first, op', rest', rfl, rfl, rfl⟩

/-- What holds of contexts after a history from none at all. -/
structure Sound (turns : List Turn) (cs : Contexts) : Prop where
  increasing : (turns.filterMap Turn.opened).Pairwise fun a b => a.index < b.index
  below : ∀ id ∈ turns.filterMap Turn.opened, id.index < cs.table.nextId
  live : ∀ id c, cs.get? id = some c → id ∈ turns.filterMap Turn.opened
  parents : ∀ id c p, cs.get? id = some c → c.parent = some p → p.index < id.index
  waits : ∀ copy, cs.Waits copy ↔ Queued turns copy

/-- One operation more keeps to it.  A context more has an id larger than all before, and an older parent;
otherwise all that is live was live before, with the same parent. -/
theorem Sound.turn {turns : List Turn} (h : Sound turns cs) (op : ContextsOp) :
    Sound (turns ++ [op.turn cs]) (op.turn cs).after := by
  have moves := op.moves cs
  have waits (copy : ContextId) : (op.turn cs).after.Waits copy ↔ Queued (turns ++ [op.turn cs]) copy := by
    rw [queued_snoc, moves.waits_iff, ← ContextsOp.turn_eq, Turn.Leaves, Turn.Leaves, h.waits]
  rcases moves.adds_or_stays with ⟨new, c, opened, adds⟩ | ⟨opened, stays⟩
  · rw [← ContextsOp.turn_eq] at opened
    have same : (turns ++ [op.turn cs]).filterMap Turn.opened = turns.filterMap Turn.opened ++ [new] := by
      simp [opened]
    have live : (op.turn cs).after.get? new = some c := (adds.get? new).trans (if_pos rfl)
    refine ⟨?_, ?_, ?_, ?_, waits⟩
    · rw [same]
      refine List.pairwise_append.2 ⟨h.increasing, List.pairwise_singleton _ _, fun a ha b hb => ?_⟩
      obtain rfl := List.mem_singleton.1 hb
      exact adds.first ▸ h.below a ha
    · rw [same]
      intro id hid
      rcases List.mem_append.1 hid with hid | hid
      · exact Nat.lt_of_lt_of_le (h.below id hid) adds.grown
      · obtain rfl := List.mem_singleton.1 hid
        exact index_lt_of_get? live
    · rw [same]
      intro id d found
      rw [adds.get?] at found
      split at found
      · next here => exact List.mem_append_right _ (List.mem_singleton.2 here)
      · exact List.mem_append_left _ (h.live id d found)
    · intro id d p found parent
      rw [adds.get?] at found
      split at found
      · next here =>
        cases found
        exact here ▸ adds.parent p parent
      · exact h.parents id d p found parent
  · rw [← ContextsOp.turn_eq] at opened
    have same : (turns ++ [op.turn cs]).filterMap Turn.opened = turns.filterMap Turn.opened := by
      simp [opened]
    refine ⟨same ▸ h.increasing, ?_, ?_, ?_, waits⟩
    · rw [same, stays.next]
      exact h.below
    · intro id d found
      obtain ⟨c, before, -⟩ := stays.get? id d found
      exact same ▸ h.live id c before
    · intro id d p found parent
      obtain ⟨c, before, alike⟩ := stays.get? id d found
      exact h.parents id c p before (alike ▸ parent)

theorem sound_history (ops : List ContextsOp) : Sound (history {} ops) (afterAll {} ops) := by
  induction ops using List.reverseRecOn with
  | nil =>
    have none (copy : ContextId) : ¬Queued [] copy := by
      rintro ⟨earlier, t, since, none, -⟩
      simp at none
    refine ⟨List.Pairwise.nil, nofun, fun id c live => ?_, fun id c p live => ?_, fun copy => ?_⟩
    · exact absurd (index_lt_of_get? live) (Nat.not_lt_zero _)
    · exact absurd (index_lt_of_get? live) (Nat.not_lt_zero _)
    · exact iff_of_false (not_waits_of_idle rfl) (none copy)
  | append_singleton ops op ih =>
    rw [history_append, afterAll_append]
    exact ih.turn op

/-- An id that was given away and is not live is never live again. -/
theorem dead_of_history (used : id.index < cs.table.nextId) (dead : cs.get? id = none) {u : Turn}
    (hu : u ∈ cs.history ops) : u.before.get? id = none ∧ u.after.get? id = none := by
  induction ops generalizing cs with
  | nil => cases hu
  | cons op ops ih =>
    have next : id.index < (op.turn cs).after.table.nextId ∧ (op.turn cs).after.get? id = none := by
      rcases (op.moves cs).adds_or_stays with ⟨new, c, -, adds⟩ | ⟨-, stays⟩
      · have other : id ≠ new := by
          rintro rfl
          exact Nat.ne_of_lt used adds.first
        exact ⟨Nat.lt_of_lt_of_le used adds.grown, by rw [adds.get?, if_neg other, dead]⟩
      · refine ⟨stays.next ▸ used, Option.eq_none_iff_forall_ne_some.2 fun c found => ?_⟩
        obtain ⟨d, before, -⟩ := stays.get? id c found
        rw [dead] at before
        cases before
    rcases List.mem_cons.1 hu with rfl | hu
    · rw [ContextsOp.turn_eq]
      exact ⟨dead, next.2⟩
    · exact ih next.1 next.2 hu

/-- A resumption copies what is live, and is refused for anything else. -/
theorem Moves.copies_resume (h : cs.Moves (.resume id) answer cs') :
    Turn.Copies ⟨cs, .resume id, answer, cs'⟩ id fun c => { c with parent := some id, registered := false } := by
  unfold Turn.Copies
  cases h with
  | resume live queues first grown =>
    rw [live]
    exact ⟨_, rfl, (queues.adds live rfl first grown).opened _, queues.get?⟩
  | refuse dead needs =>
    obtain rfl := Option.some.inj needs
    rw [dead]
    exact ⟨rfl, rfl⟩

/-- An answer copies what is live, and is refused for anything else. -/
theorem Moves.copies_answer {v : Value} (h : cs.Moves (.answer id v) answer cs') :
    Turn.Copies ⟨cs, .answer id v, answer, cs'⟩ id fun c =>
      { c with parent := some id, registered := false, callAnswer := some v } := by
  unfold Turn.Copies
  cases h with
  | answer live queues first grown =>
    rw [live]
    exact ⟨_, rfl, (queues.adds live rfl first grown).opened _, queues.get?⟩
  | refuse dead needs =>
    obtain rfl := Option.some.inj needs
    rw [dead]
    exact ⟨rfl, rfl⟩

/-- The copy that waits is handed out. -/
theorem Moves.taken {copy : ContextId} (h : cs.Moves .createOrReset answer cs') (waits : cs.Waits copy) :
    answer = .ok (some copy) ∧ ∀ id, cs'.get? id = cs.get? id := by
  cases h with
  | take pending =>
    obtain rfl := Option.some.inj (pending.symm.trans waits.1)
    exact ⟨rfl, fun _ => rfl⟩
  | create idle => exact absurd waits.2 (Bool.not_eq_true _ ▸ idle copy waits.1)
  | refuse _ needs => cases needs

/-- If no copy waits, a new and empty context is handed out. -/
theorem Moves.created (h : cs.Moves .createOrReset answer cs') (idle : ∀ copy, ¬cs.Waits copy) :
    ∃ new, answer = .ok (some new) ∧ Adds new {} cs cs' := by
  cases h with
  | take pending live => exact absurd ⟨pending, live⟩ (idle _)
  | create => exact ⟨_, rfl, adds_add ..⟩
  | refuse _ needs => cases needs

/-- Parents that are older than their copies form chains that come to an end. -/
theorem length_le_of_chain (parents : ∀ id c p, cs.get? id = some c → c.parent = some p → p.index < id.index)
    {chain : List ContextId}
    (h : (id :: chain).IsChain fun id p => ∃ c, cs.get? id = some c ∧ c.parent = some p) : chain.length ≤ id.index := by
  induction chain generalizing id with
  | nil => exact Nat.zero_le _
  | cons p chain ih =>
    obtain ⟨⟨c, live, parent⟩, rest⟩ := List.isChain_cons_cons.1 h
    have := parents id c p live parent
    have := ih rest
    rw [List.length_cons]
    omega

end Contexts

/-- The laws hold of every history: new ids only rise, so that a context that was dropped never comes back; exactly
what is live can be resumed or answered, which leaves everything else alone and adds a copy that names it as its
parent; parents are older than their copies; and a context is obtained that was there before exactly if a copy waits,
which is then the copy, and else a new and empty one. -/
theorem history_lawful (ops : List ContextsOp) : Lawful (Contexts.history {} ops) := by
  have divided {earlier later : List Turn} {t : Turn} (h : Contexts.history {} ops = earlier ++ t :: later) :
      ∃ cs op rest, t = op.turn cs ∧ t.op = op ∧ Contexts.Sound earlier cs ∧
        Contexts.Sound (earlier ++ [t]) t.after ∧ later = Contexts.history t.after rest := by
    obtain ⟨first, op, rest, rfl, rfl, rfl⟩ := Contexts.history_eq_append h
    have sound := Contexts.sound_history first
    exact ⟨_, op, rest, rfl, by rw [ContextsOp.turn_eq], sound, sound.turn op, rfl⟩
  have single {t : Turn} (h : t ∈ Contexts.history {} ops) :
      ∃ earlier cs op, t = op.turn cs ∧ t.op = op ∧ Contexts.Sound (earlier ++ [t]) t.after := by
    obtain ⟨earlier, later, h⟩ := List.append_of_mem h
    obtain ⟨cs, op, -, turn, same, -, sound, -⟩ := divided h
    exact ⟨earlier, cs, op, turn, same, sound⟩
  refine ⟨(Contexts.sound_history ops).increasing, ?live, ?dropped, ?resumed, ?answered, ?parents, ?chains, ?taken,
    ?fresh⟩
  case live =>
    intro earlier t later h id c live
    obtain ⟨cs, op, -, rfl, -, sound, -⟩ := divided h
    rw [ContextsOp.turn_eq] at live
    exact sound.live id c live
  case dropped =>
    intro earlier t later id h dropped used u hu
    obtain ⟨cs, op, rest, rfl, same, sound, sound', rfl⟩ := divided h
    obtain rfl := same.symm.trans dropped
    have below := sound'.below id (by simp [used])
    exact Contexts.dead_of_history below ((Contexts.get?_deactivate cs id id).trans (if_pos rfl)) hu
  case resumed =>
    intro t ht id resumes
    obtain ⟨_, cs, op, rfl, same, _⟩ := single ht
    obtain rfl := same.symm.trans resumes
    rw [ContextsOp.turn_eq]
    exact (ContextsOp.moves _ cs).copies_resume
  case answered =>
    intro t ht id v answers
    obtain ⟨_, cs, op, rfl, same, _⟩ := single ht
    obtain rfl := same.symm.trans answers
    rw [ContextsOp.turn_eq]
    exact (ContextsOp.moves _ cs).copies_answer
  case parents =>
    intro t ht
    obtain ⟨_, _, _, _, _, sound⟩ := single ht
    exact sound.parents
  case chains =>
    intro t ht id chain linked
    obtain ⟨_, _, _, _, _, sound⟩ := single ht
    exact Contexts.length_le_of_chain sound.parents linked
  case taken =>
    intro earlier t later copy h creates queued
    obtain ⟨cs, op, -, rfl, same, sound, -⟩ := divided h
    obtain rfl := same.symm.trans creates
    have waits := (sound.waits copy).2 queued
    rw [ContextsOp.turn_eq]
    obtain ⟨handed, kept⟩ := (ContextsOp.moves _ cs).taken waits
    exact ⟨handed, waits.2, kept⟩
  case fresh =>
    intro earlier t later h creates idle
    obtain ⟨cs, op, -, rfl, same, sound, -⟩ := divided h
    obtain rfl := same.symm.trans creates
    have moves := ContextsOp.moves .createOrReset cs
    obtain ⟨new, handed, adds⟩ := moves.created fun copy waits => idle copy ((sound.waits copy).1 waits)
    refine ⟨new, handed, ?_, adds.get?⟩
    rw [ContextsOp.turn_eq, handed]
    exact adds.opened _

end Suspension
