import Suspension.Proofs.Flow.Stretches
import Suspension.Proofs.Symbolic.Matching

/-!
# Lowering agrees with the machine

The operations that an instruction is lowered to mirror what the machine does at it.  Values that come from
outside the frame are taken to be of the kinds that the instruction declares.

## Main definitions
* `Instr.Declared`: the values from outside the frame are what the instruction declares.

## Main results
* `PlainOp.mirrors_step`, `SlotOp.mirrors_step`, `JumpOp.mirrors_step`, `FieldOp.mirrors_step`,
  `ClassOp.mirrors_step`, `MemberRef.mirrors_call`: the families of instructions.
* `Instr.matches_stepOver`: every instruction.
-/

namespace Suspension

variable {σ : Type} {s : Situation σ} {cls : Class} {host : Host σ}

open Suspension.Frame (pops_pop pops_popInt pops_popLong pops_popFloat pops_popDouble pops_popRef pops_popOf)

/-! ## Tags of descriptors -/

/-- No descriptor is that of a return address.  The letters of the primitive types are none, and objects and
arrays are references. -/
theorem Tag.kind_zero_of_fieldType? {cs rest : List Char} {t : Tag} (h : fieldType? cs = some (t, rest)) :
    t.zero.kind = t.kind := by
  have primitive {c : Char} (h : primitive? c = some t) : t.zero.kind = t.kind := by
    unfold primitive? at h
    split at h <;> cases h <;> rfl
  cases cs with
  | nil => cases h
  | cons c cs =>
    simp only [fieldType?] at h
    split at h
    · next found =>
      cases h
      exact primitive found
    · split at h
      · obtain ⟨_, -, made⟩ := Option.map_eq_some_iff.1 h
        cases made
        rfl
      · split at h
        · obtain ⟨_, -, made⟩ := Option.map_eq_some_iff.1 h
          cases made
          rfl
        · cases h

theorem Tag.kind_zero_of_ofDescriptor {text : String} {t : Tag} (h : Tag.ofDescriptor text = .ok t) :
    t.zero.kind = t.kind := by
  unfold ofDescriptor at h
  split at h
  · next found =>
    cases h
    exact kind_zero_of_fieldType? found
  · cases h

theorem Signature.kind_zero_of_parse {text : String} {sig : Signature} (h : Signature.parse text = .ok sig)
    {t : Tag} (ht : sig.result = some t) : t.zero.kind = t.kind := by
  unfold parse at h
  split at h
  · next found =>
    cases h
    unfold ofChars? at found
    split at found
    · split at found
      · obtain ⟨result, made, rfl⟩ := Option.map_eq_some_iff.1 found
        cases ht
        unfold resultType? at made
        split at made
        · cases made
        · split at made
          · next type =>
            cases made
            exact Tag.kind_zero_of_fieldType? type
          · cases made
      · cases found
    · cases found
  · cases h

/-! ## Numbers -/

/-- A push that ends an instruction. -/
theorem Mirrors.pushNext {v : Value} {t : Tag} (kind : v.kind = t.kind) :
    Mirrors [.push t] (do Frame.push v; return .next) s := .push kind fun _ => .pure _

theorem ArithOp.mirrors_step (op : ArithOp) (k : NumKind) :
    Mirrors [.pop, .pop, .push k.tag] (op.step k) s := by
  cases k with
  | int =>
    refine .pop pops_popInt fun _ b _ _ _ => .pop pops_popInt fun _ a _ _ _ => ?_
    split
    · exact .pushNext rfl
    · exact .raiseNew _
  | long =>
    refine .pop pops_popLong fun _ b _ _ _ => .pop pops_popLong fun _ a _ _ _ => ?_
    split
    · exact .pushNext rfl
    · exact .raiseNew _
  | float =>
    exact .pop pops_popFloat fun _ b _ _ _ => .pop pops_popFloat fun _ a _ _ _ => .pushNext rfl
  | double =>
    exact .pop pops_popDouble fun _ b _ _ _ => .pop pops_popDouble fun _ a _ _ _ => .pushNext rfl

theorem BitOp.mirrors_step (op : BitOp) (k : WholeKind) :
    Mirrors [.pop, .pop, .push k.tag] (do (op.step k : FrameM Unit); return .next) s := by
  cases k with
  | int =>
    simp only [step, liftM_frame_bind, bind_assoc]
    exact .pop pops_popInt fun _ _ _ _ _ => .pop pops_popInt fun _ _ _ _ _ => .pushNext rfl
  | long =>
    simp only [step]
    split
    · simp only [liftM_frame_bind, bind_assoc]
      exact .pop pops_popInt fun _ _ _ _ _ => .pop pops_popLong fun _ _ _ _ _ => .pushNext rfl
    · simp only [liftM_frame_bind, bind_assoc]
      exact .pop pops_popLong fun _ _ _ _ _ => .pop pops_popLong fun _ _ _ _ _ => .pushNext rfl

theorem Comparison.mirrors_step (c : Comparison) :
    Mirrors [.pop, .pop, .push .int] (do (c.step : FrameM Unit); return .next) s := by
  cases c with
  | long =>
    simp only [step, liftM_frame_bind, bind_assoc]
    exact .pop pops_popLong fun _ _ _ _ _ => .pop pops_popLong fun _ _ _ _ _ => .pushNext rfl
  | floatLow | floatHigh =>
    simp only [step, step.floats, liftM_frame_bind, bind_assoc]
    exact .pop pops_popFloat fun _ _ _ _ _ => .pop pops_popFloat fun _ _ _ _ _ => .pushNext rfl
  | doubleLow | doubleHigh =>
    simp only [step, step.doubles, liftM_frame_bind, bind_assoc]
    exact .pop pops_popDouble fun _ _ _ _ _ => .pop pops_popDouble fun _ _ _ _ _ => .pushNext rfl

theorem Value.kind_negated (v : Value) : v.negated.kind = v.kind := by
  cases v <;> rfl

theorem Conversion.kind_apply {c : Conversion} {v u : Value} (h : c.apply v = .ok u) :
    u.kind = c.target.tag.kind := by
  cases c <;> obtain ⟨_, -, h⟩ := bind_eq_ok.1 h <;> cases h <;> rfl

/-! ## Arrays -/

/-- The kind of the elements that an array access declares. -/
def ElemKind.kind : ElemKind → Kind
  | .int | .byte | .char | .short => .int
  | .long => .long
  | .float => .float
  | .double => .double
  | .reference => .reference

theorem object_eq_ok {r : ObjectId} {o : HeapObject} {s t : Situation σ}
    (h : inWorld (World.object r) s = .ok o t) : s.world.heap.get r = .ok o := by
  rw [inWorld_apply] at h
  unfold World.object at h
  cases found : s.world.heap.get r with
  | error e => simp [found] at h
  | ok o' =>
    simp only [bind_apply, get_apply, found, liftM_ok_apply] at h
    cases h
    rfl

theorem mirrors_loadElement {t : Tag}
    (declared : ∀ index r rest d elems n v, s.frame.stack = .int index :: .object r :: rest →
      s.world.heap.get r = .ok (.array d elems) → arrayIndex? index = some n → elems[n]? = some v →
        v.kind = t.kind) :
    Mirrors [.pop, .pop, .push t] loadElement s := by
  refine .pop pops_popInt fun _ index above hs hindex => .pop pops_popRef fun _ r rest hs' hr => ?_
  subst hindex hr
  cases r with
  | none => exact .raiseNew _
  | some r =>
    have stack : s.frame.stack = .int index :: .object r :: rest := hs.trans (congrArg _ hs')
    refine .still (still_inWorld _) fun o _ ho _ => ?_
    split
    · next d elems =>
      split
      · next v found =>
        obtain ⟨n, hn, hv⟩ := Option.bind_eq_some_iff.1 found
        have array := object_eq_ok ho
        exact .pushNext (declared index r rest d elems n v stack array hn hv)
      · exact .raiseNew _
    · exact .throw _

theorem mirrors_storeElement (k : ElemKind) : Mirrors [.pop, .pop, .pop] (storeElement k) s := by
  refine .pop pops_pop fun _ v _ _ _ => .pop pops_popInt fun _ _ _ _ _ => .pop pops_popRef fun _ r _ _ _ => ?_
  cases r with
  | none => exact .raiseNew _
  | some r =>
    refine .still (still_inWorld _) fun o _ _ _ => ?_
    split
    · refine .still (keeps_except _) fun _ _ _ _ => ?_
      split
      · refine .still (still_inWorld _) fun stored _ _ _ => ?_
        split
        · exact .pure _
        · exact .raiseNew _
      · exact .raiseNew _
    · exact .throw _

theorem mirrors_newArray {descriptor : String} (dims : Nat) {t : Tag} (reference : t.kind = .reference) :
    Mirrors (List.replicate dims .pop ++ [.push t]) (newArray descriptor dims) s := by
  refine .popMany fun args _ _ _ => .still (keeps_mapM (fun v => keeps_except _) args) fun counts _ _ _ => ?_
  split
  · exact .raiseNew _
  · split
    · exact .raiseNew _
    · exact .still (still_inWorld _) fun _ _ _ _ => .pushNext reference.symm

theorem mirrors_measureArray : Mirrors [.pop, .push .int] measureArray s := by
  refine .pop pops_popRef fun _ r _ _ _ => ?_
  cases r with
  | none => exact .raiseNew _
  | some r =>
    refine .still (still_inWorld _) fun o _ _ _ => ?_
    split
    · exact .pushNext rfl
    · exact .throw _

/-! ## Instructions without operand -/

theorem mirrors_lock : Mirrors [.pop] lock s := by
  refine .pop pops_popRef fun _ r _ _ _ => ?_
  cases r with
  | none => exact .raiseNew _
  | some r => exact .pure _

theorem Frame.dup_matches {words under : Nat} {f f' : Frame} {g : SymFrame} (matched : f.Matches g)
    (h : Frame.dup words under f = .ok () f') :
    ∃ g', SymFrame.dup words under g = .ok () g' ∧ f'.Matches g' := by
  obtain ⟨top, f₁, htop, h⟩ := bind_apply_eq_ok h
  obtain ⟨below, f₂, hbelow, h⟩ := bind_apply_eq_ok h
  cases h
  obtain ⟨ts, g₁, htop', top', matched₁⟩ := popWords_matches matched htop
  obtain ⟨us, g₂, hbelow', below', matched₂⟩ := popWords_matches matched₁ hbelow
  refine ⟨{ g₂ with stack := (ts ++ us ++ ts) ++ g₂.stack }, ?_, ?_⟩
  · simp [SymFrame.dup, htop', hbelow', SymFrame.pushAll]
  · exact matched₂.withStack (by simp [top', below', matched₂.stack])

/-- A shuffle does the same to a stack that matches; a swap is taken to be one of values of one word.  Only a
swap has a width of its own to fulfil; the others move words as they are. -/
theorem Shuffle.mirrors (k : Shuffle)
    (narrow : k = .swap → ∀ a b rest, s.frame.stack = a :: b :: rest → a.width = .one ∧ b.width = .one) :
    Mirrors [k.symOp] (do (Frame.shuffle k : FrameM Unit); return .next) s := by
  have words (n : Nat) : ∀ g a f', s.frame.Matches g → (do let _ ← Frame.popWords n : FrameM Unit) s.frame = .ok a f' →
      ∃ g', SymOp.run [.popWords n] g = .ok g' ∧ f'.Matches g' := by
    intro g _ f' matched h
    obtain ⟨vs, f₁, taken, h⟩ := bind_apply_eq_ok h
    cases h
    obtain ⟨ts, g', taken', -, matched'⟩ := Frame.popWords_matches matched taken
    exact ⟨g', by simp [SymOp.run, SymOp.apply, taken'], matched'⟩
  have dup (words under : Nat) : ∀ g a f', s.frame.Matches g → Frame.dup words under s.frame = .ok a f' →
      ∃ g', SymOp.run [.dup words under] g = .ok g' ∧ f'.Matches g' := by
    intro g _ f' matched h
    obtain ⟨g', done, matched'⟩ := Frame.dup_matches matched h
    exact ⟨g', by simp [SymOp.run, SymOp.apply, done], matched'⟩
  have next : ∀ (_ : Unit) (s : Situation σ), Mirrors [] (pure .next) s := fun _ _ => .pure _
  cases k with
  | pop | pop2 => exact .frame (words _) next
  | swap =>
    refine .frame (fun g _ f' matched h => ?_) next
    obtain ⟨a, f₁, popped, h⟩ := bind_apply_eq_ok h
    obtain ⟨_, above, hs, rfl, rfl⟩ := pops_pop _ _ _ popped
    obtain ⟨b, f₂, popped', h⟩ := bind_apply_eq_ok h
    obtain ⟨_, rest, hs', rfl, rfl⟩ := pops_pop _ _ _ popped'
    cases h
    have stack : s.frame.stack = a :: b :: rest := hs.trans (congrArg _ hs')
    obtain ⟨one, one'⟩ := narrow rfl a b rest stack
    obtain ⟨t, more, hg, kind, kinds⟩ := matched.stack_cons stack
    obtain ⟨u, more', rfl, kind', kinds'⟩ : ∃ u more', more = u :: more' ∧ b.kind = u.kind ∧
        rest.map Value.kind = more'.map Tag.kind := by
      cases more with
      | nil => simp at kinds
      | cons u more' => exact ⟨u, more', rfl, by simpa using kinds⟩
    rw [Value.width_of_kind kind] at one
    rw [Value.width_of_kind kind'] at one'
    refine ⟨{ g with stack := u :: t :: more' }, ?_, matched.withStack (by simp [kind, kind', kinds'])⟩
    simp [SymOp.run, Shuffle.symOp, SymOp.apply, SymFrame.swap, SymFrame.popWords, takeTags, hg, Tag.words, one,
      one', Width.words, SymFrame.pushAll]
  | _ => exact .frame (dup _ _) next

/-- Most operations take operands of known kinds and push a value of a known kind. -/
theorem PlainOp.mirrors_step (op : PlainOp)
    (narrow : op = .shuffle .swap → ∀ a b rest, s.frame.stack = a :: b :: rest → a.width = .one ∧ b.width = .one)
    (noLoad : ∀ k, op ≠ .arrayLoad k) : Mirrors op.symOps op.step s := by
  cases op with
  | nop => exact .pure _
  | aconstNull => exact .pushNext rfl
  | arrayLoad k => exact absurd rfl (noLoad k)
  | arrayStore k => exact mirrors_storeElement k
  | shuffle k => exact k.mirrors fun e => narrow (e ▸ rfl)
  | arith op k => exact op.mirrors_step k
  | neg k =>
    refine .pop (pops_popOf k.storage) fun _ v _ _ kind => .pushNext ?_
    rw [v.kind_negated, kind]
    cases k <;> rfl
  | bits op k => exact op.mirrors_step k
  | convert c =>
    exact .pop pops_pop fun _ v _ _ _ => .still (keeps_except _) fun u _ made _ =>
      .pushNext (Conversion.kind_apply (liftM_except_eq_ok made).1)
  | compare c => exact c.mirrors_step
  | leave k =>
    cases k with
    | none => exact .pure _
    | some k => exact .pop (pops_popOf k) fun _ _ _ _ _ => .pure _
  | arrayLength => exact mirrors_measureArray
  | athrow =>
    refine .pop pops_popRef fun _ r _ _ _ => ?_
    cases r with
    | none => exact .raiseNew _
    | some exc => exact .raise _
  | monitorEnter | monitorExit => exact mirrors_lock

/-! ## Instructions with an operand -/

/-- The tag that is moved has the kind of the value, whether it is given or the recorded one. -/
theorem SlotOp.mirrors_step (slot : Slot) (op : SlotOp) :
    Mirrors (match op with
      | .load k => [.get slot k.tag?]
      | .store k => [.set slot k.tag?]
      | .ret => [.read slot]) (op.step slot) s := by
  have moves {k : Storage} {v u : Value} {t : Tag} (moved : v.movedBy k = .ok u) (kind : v.kind = t.kind) :
      u.kind = (k.tag?.getD t).kind := by
    obtain ⟨rfl, given⟩ := Value.kind_of_movedBy moved
    cases tag : k.tag? with
    | none => exact kind
    | some t' => exact given t' tag
  cases op with
  | load k =>
    refine .frame (fun g _ f' matched h => ?_) fun _ _ => .pure _
    obtain ⟨v, f₁, got, h⟩ := bind_apply_eq_ok h
    rw [Frame.getLocal_apply] at got
    split at got
    · next v' hv =>
      cases got
      obtain ⟨t, ht, kind⟩ := matched.getLocal hv
      obtain ⟨u, f₂, lifted, h⟩ := bind_apply_eq_ok h
      obtain ⟨moved, rfl⟩ := liftM_except_eq_ok lifted
      cases h
      refine ⟨{ g with stack := k.tag?.getD t :: g.stack }, ?_, matched.withStack ?_⟩
      · simp [SymOp.run, SymOp.apply, SymFrame.getLocal, ht, SymFrame.push]
      · simp [moves moved kind, matched.stack]
    · cases got
  | store k =>
    refine .frame (fun g _ f' matched h => ?_) fun _ _ => .pure _
    obtain ⟨v, f₁, popped, h⟩ := bind_apply_eq_ok h
    obtain ⟨_, rest, hs, rfl, rfl⟩ := pops_pop _ _ _ popped
    obtain ⟨t, more, hg, kind, kinds⟩ := matched.stack_cons hs
    obtain ⟨u, f₂, lifted, h⟩ := bind_apply_eq_ok h
    obtain ⟨moved, rfl⟩ := liftM_except_eq_ok lifted
    cases h
    refine ⟨SymFrame.setLocal { g with stack := more } slot (k.tag?.getD t), ?_, ?_⟩
    · simp [SymOp.run, SymOp.apply, SymFrame.pop, hg]
    · exact (matched.withStack kinds).setLocal (moves moved kind) slot
  | ret =>
    intro g flow s' matched h _
    obtain ⟨v, s₁, got, h⟩ := bind_apply_eq_ok h
    rw [liftM_frame_apply, Frame.getLocal_apply] at got
    cases hv : s.frame.locals[slot]? with
    | none =>
      rw [hv] at got
      cases got
    | some v' =>
      rw [hv] at got
      cases got
      obtain ⟨t, ht, -⟩ := matched.getLocal hv
      refine ⟨g, by simp [SymOp.run, SymOp.apply, SymFrame.getLocal, ht], ?_⟩
      cases v <;> cases h
      exact matched

/-- An increment stores where an int was, which no other value overlaps.  The same kind is stored where it was
read, so only what overlaps the slot could change. -/
theorem mirrors_increment (slot : Slot) (amount : Int32) (apart : s.frame.locals.Apart) :
    Mirrors [.inc slot] (do (Frame.increment slot amount : FrameM Unit); return .next) s := by
  refine .frame (fun g _ f' matched h => ?_) fun _ _ => .pure _
  obtain ⟨v, f₁, got, h⟩ := bind_apply_eq_ok h
  rw [Frame.getLocal_apply] at got
  split at got
  · next v' hv =>
    cases got
    obtain ⟨t, ht, kind⟩ := matched.getLocal hv
    obtain ⟨n, f₂, lifted, h⟩ := bind_apply_eq_ok h
    obtain ⟨asInt, rfl⟩ := liftM_except_eq_ok lifted
    obtain rfl : v = .int n := by
      cases v <;> cases asInt
      rfl
    cases h
    refine ⟨g, by simp [SymOp.run, SymOp.apply, SymFrame.getLocal, ht], matched.stack, fun s' => ?_⟩
    change (s.frame.locals.store slot (.int (n + amount)))[s']?.map Value.kind = _
    rw [LocalValues.getElem?_store]
    by_cases own : s' = slot
    · rw [if_pos own, own, ← matched.slots, hv]
      rfl
    · rw [if_neg own, ← matched.slots]
      cases hw : s.frame.locals[s']? with
      | none => rfl
      | some w =>
        have free : LocalValues.overlap slot (.int (n + amount)) s' w = false :=
          apart slot (.int n) s' w hv hw (Ne.symm own)
        rw [Option.filter_some, free]
        rfl
  · cases got

theorem JumpOp.mirrors_step (l : Label) (op : JumpOp) (noCall : op ≠ .jsr) :
    Mirrors op.symOps (op.step l) s := by
  cases op with
  | ifZero t => exact .pop pops_popInt fun _ _ _ _ _ => .pure _
  | ifInts t => exact .pop pops_popInt fun _ _ _ _ _ => .pop pops_popInt fun _ _ _ _ _ => .pure _
  | ifRefs equal => exact .pop pops_popRef fun _ _ _ _ _ => .pop pops_popRef fun _ _ _ _ _ => .pure _
  | ifNull null => exact .pop pops_popRef fun _ _ _ _ _ => .pure _
  | goto => exact .pure _
  | jsr => exact absurd rfl noCall

/-- A value is of the type that a descriptor writes, if it writes one. -/
def Value.IsOf (v : Value) (descriptor : String) : Prop :=
  ∀ t, Tag.ofDescriptor descriptor = .ok t → v.kind = t.kind

theorem mirrors_fieldZero {f : MemberRef} {t : Tag} (ht : Tag.ofDescriptor f.descriptor = .ok t) :
    Mirrors [.push t] (do Frame.push (← fieldZero f); return .next) s := by
  refine .still (keeps_except _) fun v _ zero _ => .pushNext ?_
  rw [fieldZero, ht] at zero
  cases zero
  exact Tag.kind_zero_of_ofDescriptor ht

theorem FieldOp.mirrors_getStatic {f : MemberRef} {t : Tag} (ht : Tag.ofDescriptor f.descriptor = .ok t)
    (declared : ∀ v, s.world.static? f.owner f.name = some v → v.IsOf f.descriptor) :
    Mirrors [.push t] (FieldOp.step f .getStatic) s := by
  refine .get ?_
  split
  · next v found => exact .pushNext (declared v found t ht)
  · exact mirrors_fieldZero ht

theorem FieldOp.mirrors_getField {f : MemberRef} {t : Tag} (ht : Tag.ofDescriptor f.descriptor = .ok t)
    (declared : ∀ r rest v, s.frame.stack = .object r :: rest → s.world.heap.field? r f.name = some v →
      v.IsOf f.descriptor) :
    Mirrors [.pop, .push t] (FieldOp.step f .getField) s := by
  refine .pop pops_popRef fun _ r rest hs hr => ?_
  subst hr
  cases r with
  | none => exact .raiseNew _
  | some r =>
    refine .get ?_
    split
    · next v found => exact .pushNext (declared r rest v hs found t ht)
    · exact mirrors_fieldZero ht

theorem FieldOp.mirrors_putStatic (f : MemberRef) : Mirrors [.pop] (FieldOp.step f .putStatic) s :=
  .pop pops_pop fun _ _ _ _ _ => .still (still_inWorld _) fun _ _ _ _ => .pure _

theorem FieldOp.mirrors_putField (f : MemberRef) : Mirrors [.pop, .pop] (FieldOp.step f .putField) s := by
  refine .pop pops_pop fun _ _ _ _ _ => .pop pops_popRef fun _ r _ _ _ => ?_
  cases r with
  | none => exact .raiseNew _
  | some r => exact .still (still_inWorld _) fun _ _ _ _ => .pure _

/-- The operations of an instruction on a class. -/
def ClassOp.symOps (name : String) : ClassOp → List SymOp
  | .new => [.push (.ref name)]
  | .newArray => [.pop, .push (.ref (arrayOf name))]
  | .checkCast => [.pop, .push (.ref name)]
  | .instanceOf => [.pop, .push .int]

theorem ClassOp.mirrors_step (host : Host σ) (name : String) (op : ClassOp) :
    Mirrors (op.symOps name) (op.step host name) s := by
  cases op with
  | new => exact .still (still_inWorld _) fun _ _ _ _ => .pushNext rfl
  | newArray => exact mirrors_newArray 1 rfl
  | checkCast =>
    refine .pop pops_popRef fun _ r _ _ _ => ?_
    cases r with
    | none => exact .pushNext rfl
    | some r =>
      refine .still (still_inWorld _) fun is _ _ _ => ?_
      split
      · exact .pushNext rfl
      · exact .raiseNew _
  | instanceOf =>
    refine .pop pops_popRef fun _ r _ _ _ => ?_
    cases r with
    | none => exact .pushNext rfl
    | some r => exact .still (still_inWorld _) fun _ _ _ _ => .pushNext rfl

theorem Constant.mirrors_step (c : Constant) : Mirrors [.push c.tag] (do c.step; return .next) s := by
  cases c with
  | int | float | long | double => exact .pushNext rfl
  | string text =>
    simp only [step, bind_assoc]
    exact .still (still_inWorld _) fun _ _ _ _ => .pushNext rfl
  | classRef name =>
    simp only [step, bind_assoc]
    exact .still (still_inWorld _) fun _ _ _ _ => .pushNext rfl

/-! ## Calls -/

/-- What a call hands back, and the world after it: the answer of a service, of a method of the class that is run
to its end, of the construction of an object, or of the host. -/
inductive MemberRef.HandsBack (m : MemberRef) (cls : Class) (host : Host σ) (patience : Nat) (kind : InvokeKind)
    (receiver : Option Value) (args : List Value) (w : World σ) : Option Value → World σ → Prop
  | service {v : Option Value} {w' : World σ}
      (serves : m.owner = Service.contextClass ∨ m.owner = Service.storeClass)
      (answered : World.callService m receiver args w = .ok v w') :
    m.HandsBack cls host patience kind receiver args w v w'
  | own {callee : Method} {v : Option Value} {w' : World σ} (found : cls.callee? m = some callee)
      (ran : World.execute cls host patience callee (receiver.toList ++ args) w = .ok (.returned v) w') :
    m.HandsBack cls host patience kind receiver args w v w'
  | constructed {w' : World σ} (made : construct m receiver args w = .ok () w') :
    m.HandsBack cls host patience kind receiver args w none w'
  | outside {v : Option Value} {w' : World σ} (foreign : cls.callee? m = none)
      (answered : askHost host kind m receiver args w = .ok v w') :
    m.HandsBack cls host patience kind receiver args w v w'

/-- A call that does not end with an exception has taken its operands, and hands back what it received.  The
receiver may be null; if not, a service is called, a method of the class, a constructor, or the host. -/
theorem MemberRef.stepOver_eq_ok {m : MemberRef} {kind : InvokeKind} {patience : Nat} {flow : Flow}
    {s' : Situation σ} (h : (Instr.invoke kind m).stepOver cls host patience s = .ok flow s')
    (regular : flow.isRegular = true) :
    ∃ sig args receiver rest v w, Signature.parse m.descriptor = .ok sig ∧
      s.frame.stack = args.reverse ++ receiver.toList ++ rest ∧ args.length = sig.params.length ∧
      receiver.isSome = kind.hasReceiver ∧ m.HandsBack cls host patience kind receiver args s.world v w ∧
      s' = ⟨Frame.receive { s.frame with stack := rest } sig.result v, w⟩ := by
  obtain ⟨inner, t, called, ending⟩ := bind_apply_eq_ok h
  obtain ⟨sig, s₁, lifted, afterSig⟩ := bind_apply_eq_ok called
  obtain ⟨parsed, rfl⟩ := liftM_except_eq_ok lifted
  obtain ⟨args, s₂, taken, afterArgs⟩ := bind_apply_eq_ok afterSig
  obtain ⟨f, popped, rfl⟩ := liftM_frame_eq_ok taken
  obtain ⟨above, hs, length, rfl⟩ := Frame.popMany_eq_ok popped
  extract_lets rest at afterArgs
  have finished (receiver : Option Value) (below : List Value) (split : above = receiver.toList ++ below)
      (has : receiver.isSome = kind.hasReceiver)
      (rested : rest receiver ⟨{ s₁.frame with stack := below }, s₁.world⟩ = .ok inner t) :
      ∃ v w, m.HandsBack cls host patience kind receiver args s₁.world v w ∧
        s' = ⟨Frame.receive { s₁.frame with stack := below } sig.result v, w⟩ := by
    have received {v : Option Value} {w : World σ}
        (done : MemberRef.call.finish sig.result v ⟨{ s₁.frame with stack := below }, w⟩ = .ok inner t) :
        s' = ⟨Frame.receive { s₁.frame with stack := below } sig.result v, w⟩ := by
      cases done
      cases ending
      rfl
    simp only [rest] at rested
    split at rested
    · obtain ⟨exc, _, _, raised⟩ := bind_apply_eq_ok rested
      cases raised
      cases ending
      cases regular
    · split at rested
      · next serves =>
        obtain ⟨v, _, asked, done⟩ := bind_apply_eq_ok rested
        obtain ⟨w, answered, rfl⟩ := inWorld_eq_ok asked
        exact ⟨v, w, .service serves answered, received done⟩
      · cases found : cls.callee? m with
        | some callee =>
          rw [found] at rested
          cases rested
          obtain ⟨completion, _, executed, done⟩ := bind_apply_eq_ok ending
          obtain ⟨w, ran, rfl⟩ := inWorld_eq_ok executed
          cases completion with
          | threw exc =>
            cases done
            cases regular
          | returned v =>
            cases done
            exact ⟨v, w, .own found ran, rfl⟩
        | none =>
          rw [found] at rested
          dsimp only at rested
          split at rested
          · obtain ⟨_, _, asked, done⟩ := bind_apply_eq_ok rested
            obtain ⟨w, made, rfl⟩ := inWorld_eq_ok asked
            exact ⟨none, w, .constructed made, received done⟩
          · obtain ⟨v, _, asked, done⟩ := bind_apply_eq_ok rested
            obtain ⟨w, answered, rfl⟩ := inWorld_eq_ok asked
            exact ⟨v, w, .outside found answered, received done⟩
  cases has : kind.hasReceiver with
  | true =>
    rw [has, if_pos rfl] at afterArgs
    obtain ⟨receiver, _, popped', rested⟩ := bind_apply_eq_ok afterArgs
    obtain ⟨u, _, lifted', done⟩ := bind_apply_eq_ok popped'
    cases done
    obtain ⟨f, popped'', rfl⟩ := liftM_frame_eq_ok lifted'
    obtain ⟨_, below, hs', rfl, rfl⟩ := pops_pop _ _ _ popped''
    have front : above = [u] ++ below := hs'
    obtain ⟨v, w, handed, rfl⟩ := finished (some u) below front has.symm rested
    have stack : s₁.frame.stack = args.reverse ++ [u] ++ below := by rw [hs, front, List.append_assoc]
    exact ⟨sig, args, some u, below, v, w, mapError_eq_ok.1 parsed, stack, length, rfl, handed, rfl⟩
  | false =>
    rw [has, if_neg Bool.false_ne_true] at afterArgs
    obtain ⟨v, w, handed, rfl⟩ := finished none above rfl has.symm afterArgs
    have stack : s₁.frame.stack = args.reverse ++ [] ++ above := by rw [hs, List.append_nil]
    exact ⟨sig, args, none, above, v, w, mapError_eq_ok.1 parsed, stack, length, rfl, handed, rfl⟩

/-- A result is received as a value of the type that the descriptor of the call writes. -/
theorem Frame.Matches.receive {f : Frame} {g : SymFrame} (matched : f.Matches g) {descriptor : String}
    {sig : Signature} (parsed : Signature.parse descriptor = .ok sig) {v : Option Value}
    (declared : ∀ u t, v = some u → sig.result = some t → u.kind = t.kind) :
    ∃ g', SymOp.run (resultOps sig) g = .ok g' ∧ (f.receive sig.result v).Matches g' := by
  unfold Frame.receive resultOps
  cases ht : sig.result with
  | none => exact ⟨g, rfl, matched⟩
  | some t =>
    have kind : (v.getD t.zero).kind = t.kind := by
      cases v with
      | none => exact Signature.kind_zero_of_parse parsed ht
      | some u => exact declared u t rfl ht
    exact ⟨{ g with stack := t :: g.stack }, rfl, matched.withStack (by simp [kind, matched.stack])⟩

/-- The values from outside the frame that an instruction meets are of the kinds that it declares: the elements
of arrays, the fields, and what calls hand back. -/
def Instr.Declared (i : Instr) (cls : Class) (host : Host σ) (patience : Nat) (s : Situation σ) : Prop :=
  match i with
  | .plain (.arrayLoad k) =>
    ∀ index r rest d elems n v, s.frame.stack = .int index :: .object r :: rest →
      s.world.heap.get r = .ok (.array d elems) → arrayIndex? index = some n → elems[n]? = some v →
        v.kind = k.kind
  | .field .getStatic f => ∀ v, s.world.static? f.owner f.name = some v → v.IsOf f.descriptor
  | .field .getField f =>
    ∀ r rest v, s.frame.stack = .object r :: rest → s.world.heap.field? r f.name = some v → v.IsOf f.descriptor
  | .invoke kind m =>
    ∀ sig t receiver args rest v w, Signature.parse m.descriptor = .ok sig → sig.result = some t →
      s.frame.stack = args.reverse ++ receiver.toList ++ rest → args.length = sig.params.length →
      receiver.isSome = kind.hasReceiver → m.HandsBack cls host patience kind receiver args s.world (some v) w →
        v.kind = t.kind
  | .invokeDynamic name descriptor =>
    ∀ sig t args rest v w, Signature.parse descriptor = .ok sig → sig.result = some t →
      s.frame.stack = args.reverse ++ rest → args.length = sig.params.length →
      askHost host .static ⟨"", name, descriptor⟩ none args s.world = .ok (some v) w → v.kind = t.kind
  | _ => True

section

variable {className : String} {config : Config} {site : Nat} {effect : Effect} {patience : Nat}

/-- A suspension between the operands and the result leaves the frame alone. -/
theorem MemberRef.mirrors_call {m : MemberRef} {kind : InvokeKind}
    (h : callEffect className config site kind m = .ok effect)
    (declared : (Instr.invoke kind m).Declared cls host patience s) :
    Mirrors effect.ops ((Instr.invoke kind m).stepOver cls host patience) s := by
  intro g flow s' matched stepped regular
  obtain ⟨sig, parsed, ops⟩ := callEffect_eq_ok h
  obtain ⟨sig', args, receiver, rest, v, w, parsed', hs, length, has, handed, rfl⟩ :=
    stepOver_eq_ok stepped regular
  obtain rfl : sig' = sig := Except.ok.inj (parsed'.symm.trans parsed)
  have taken : (args.reverse ++ receiver.toList).length = sig'.params.length + kind.hasReceiver.toNat := by
    rw [List.length_append, List.length_reverse, length, ← has]
    cases receiver <;> rfl
  obtain ⟨g₁, popped, matched₁⟩ := matched.run_pops taken hs
  obtain ⟨g', ran, matched'⟩ := matched₁.receive parsed (v := v) fun u t hu ht =>
    declared sig' t receiver args rest u w parsed ht hs length has (hu ▸ handed)
  have suspended : SymOp.run ((effect.site?.map fun _ => SymOp.suspend site).toList) g₁ = .ok g₁ := by
    cases effect.site? <;> rfl
  refine ⟨g', ?_, matched'⟩
  rw [ops, List.append_assoc, operandOps, SymOp.run_append popped, SymOp.run_append suspended, ran]

theorem mirrors_invokeDynamic {name descriptor : String} {sig : Signature}
    (parsed : Signature.parse descriptor = .ok sig)
    (declared : (Instr.invokeDynamic name descriptor).Declared cls host patience s) :
    Mirrors (operandOps false sig ++ resultOps sig) ((Instr.invokeDynamic name descriptor).step cls host) s := by
  intro g flow s' matched stepped _
  obtain ⟨sig', s₁, lifted, afterSig⟩ := bind_apply_eq_ok stepped
  obtain ⟨parsed', rfl⟩ := liftM_except_eq_ok lifted
  obtain rfl : sig' = sig := Except.ok.inj ((mapError_eq_ok.1 parsed').symm.trans parsed)
  obtain ⟨args, s₂, taken, afterArgs⟩ := bind_apply_eq_ok afterSig
  obtain ⟨f, popped, rfl⟩ := liftM_frame_eq_ok taken
  obtain ⟨rest, hs, length, rfl⟩ := Frame.popMany_eq_ok popped
  obtain ⟨v, s₃, asked, done⟩ := bind_apply_eq_ok afterArgs
  obtain ⟨w, answered, rfl⟩ := inWorld_eq_ok asked
  cases done
  obtain ⟨g₁, popped', matched₁⟩ := matched.run_pops (n := sig'.params.length) (by simpa using length) hs
  obtain ⟨g', ran, matched'⟩ := matched₁.receive parsed (v := v) fun u t hu ht =>
    declared sig' t args rest u w parsed ht hs length (hu ▸ answered)
  exact ⟨g', by rw [operandOps]; exact (SymOp.run_append popped').trans ran, matched'⟩

/-- An array of references is loaded from as one of objects.  It yields the class of its elements, where the
plain load yields an object. -/
theorem mirrors_arrayLoad {k : ElemKind} {g : SymFrame} {flow : Flow} {s' : Situation σ}
    (declared : (Instr.plain (.arrayLoad k)).Declared cls host patience s) (matched : s.frame.Matches g)
    (loads : ∀ op ∈ k.loadOps, op.LoadsReference g) (stepped : loadElement s = .ok flow s')
    (regular : flow.isRegular = true) :
    ∃ g', SymOp.run k.loadOps g = .ok g' ∧ s'.frame.Matches g' := by
  have plain {t : Tag} (kind : t.kind = k.kind) :
      ∃ g', SymOp.run [.pop, .pop, .push t] g = .ok g' ∧ s'.frame.Matches g' :=
    mirrors_loadElement (t := t) (by rw [kind]; exact declared) g flow s' matched stepped regular
  cases k with
  | reference =>
    obtain ⟨g', ran, matched'⟩ := plain (t := .object) rfl
    have loads := loads .aaload (by simp [ElemKind.loadOps]) rfl
    cases hg : g.stack with
    | nil => simp [SymOp.run, SymOp.apply, SymFrame.pop, hg] at ran
    | cons index more =>
      cases more with
      | nil => simp [SymOp.run, SymOp.apply, SymFrame.pop, hg] at ran
      | cons array rest =>
        have kind := loads index array rest hg
        simp only [SymOp.run, SymOp.apply, bind_apply, SymFrame.pop, hg, SymFrame.push, pure_apply] at ran
        cases ran
        have kinds : (Tag.object :: rest).map Tag.kind = (array.element :: rest).map Tag.kind := by
          rw [List.map_cons, List.map_cons, kind]
          rfl
        refine ⟨{ g with stack := array.element :: rest }, ?_, matched'.stack.trans kinds, matched'.slots⟩
        simp [ElemKind.loadOps, SymOp.run, SymOp.apply, SymFrame.pop, hg, SymFrame.push]
  | _ => exact plain rfl

/-- Stepping over an instruction that is no call is a step. -/
theorem Instr.stepOver_eq_ok {i : Instr} {flow : Flow} {s' : Situation σ}
    (h : i.stepOver cls host patience s = .ok flow s') (noCall : ∀ kind m, i ≠ .invoke kind m) :
    i.step cls host s = .ok flow s' := by
  obtain ⟨inner, t, stepped, h⟩ := bind_apply_eq_ok h
  cases inner with
  | enter callee args result =>
    obtain ⟨kind, m, -, -, -, rfl, -⟩ := (i.stays_step.ok stepped).2
    exact absurd rfl (noCall kind m)
  | next | jump | goTo | leave | raise =>
    cases h
    exact stepped

/-- Every instruction but a subroutine call is mirrored by the operations that it is lowered to. -/
theorem Instr.mirrors_step {i : Instr} (h : i.effect className config site = .ok effect)
    (noCall : ∀ kind m, i ≠ .invoke kind m) (noLoad : ∀ k, i ≠ .plain (.arrayLoad k))
    (noSubroutine : ∀ l, i ≠ .jump .jsr l) (apart : s.frame.locals.Apart)
    (narrow : i = .plain (.shuffle .swap) →
      ∀ a b rest, s.frame.stack = a :: b :: rest → a.width = .one ∧ b.width = .one)
    (declared : i.Declared cls host patience s) : Mirrors effect.ops (i.step cls host) s := by
  cases i with
  | plain op =>
    cases h
    exact op.mirrors_step (fun e => narrow (e ▸ rfl)) fun k e => noLoad k (e ▸ rfl)
  | iconst | lconst | fconst | dconst | bipush | sipush =>
    cases h
    exact .pushNext rfl
  | ldc c =>
    cases h
    exact c.mirrors_step
  | slot op slot =>
    have mirrors := op.mirrors_step (s := s) slot
    cases op <;> cases h <;> exact mirrors
  | iinc slot amount =>
    cases h
    exact mirrors_increment slot amount.toInt32 apart
  | jump op l =>
    cases h
    exact op.mirrors_step l fun e => noSubroutine l (e ▸ rfl)
  | tableSwitch | lookupSwitch =>
    cases h
    exact .pop pops_popInt fun _ _ _ _ _ => .pure _
  | field op f =>
    cases op with
    | getStatic =>
      obtain ⟨t, ht, h⟩ := bind_eq_ok.1 h
      cases h
      exact FieldOp.mirrors_getStatic ht declared
    | putStatic =>
      cases h
      exact FieldOp.mirrors_putStatic f
    | getField =>
      obtain ⟨t, ht, h⟩ := bind_eq_ok.1 h
      cases h
      exact FieldOp.mirrors_getField ht declared
    | putField =>
      cases h
      exact FieldOp.mirrors_putField f
  | invoke kind m => exact absurd rfl (noCall kind m)
  | invokeDynamic name descriptor =>
    obtain ⟨sig, parsed, h⟩ := bind_eq_ok.1 h
    cases h
    exact mirrors_invokeDynamic parsed declared
  | typed op name =>
    have mirrors := op.mirrors_step (s := s) host name
    cases op <;> cases h <;> exact mirrors
  | newArray k =>
    cases h
    exact mirrors_newArray 1 rfl
  | multiNewArray descriptor dims =>
    cases h
    exact mirrors_newArray dims.toNat rfl
  | label l =>
    cases h
    exact .pure _

/-- Lowering agrees with the machine.  Let a symbolic frame match a frame in which no values overlap.  If the
instruction ends without an exception, then the operations that it is lowered to, with the return address that
the edge of a subroutine call pushes, raise no fault, and lead to a symbolic frame that matches again. -/
theorem Instr.matches_stepOver {i : Instr} {g : SymFrame} {flow : Flow} {s' : Situation σ}
    (h : i.effect className config site = .ok effect) (matched : s.frame.Matches g)
    (apart : s.frame.locals.Apart)
    (narrow : i = .plain (.shuffle .swap) →
      ∀ a b rest, s.frame.stack = a :: b :: rest → a.width = .one ∧ b.width = .one)
    (declared : i.Declared cls host patience s) (loads : ∀ op ∈ effect.ops, op.LoadsReference g)
    (stepped : i.stepOver cls host patience s = .ok flow s') (regular : flow.isRegular = true) (place : Nat) :
    ∃ g', Step.run (effect.ops.map (⟨place, ·⟩)) g = .ok g' ∧ s'.frame.Matches (i.jumpKind.deliver g') := by
  rw [Step.run_eq]
  by_cases call : ∃ kind m, i = .invoke kind m
  · obtain ⟨kind, m, rfl⟩ := call
    exact MemberRef.mirrors_call h declared g flow s' matched stepped regular
  have noCall (kind : InvokeKind) (m : MemberRef) : i ≠ .invoke kind m := fun e => call ⟨kind, m, e⟩
  have stepped := stepOver_eq_ok stepped noCall
  by_cases load : ∃ k, i = .plain (.arrayLoad k)
  · obtain ⟨k, rfl⟩ := load
    cases h
    exact mirrors_arrayLoad declared matched loads stepped regular
  by_cases subroutine : ∃ l, i = .jump .jsr l
  · obtain ⟨l, rfl⟩ := subroutine
    cases h
    cases stepped
    exact ⟨g, rfl, matched.withStack (by simp [matched.stack, Value.kind, Tag.kind])⟩
  obtain ⟨g', ran, matched'⟩ := mirrors_step h noCall (fun k e => load ⟨k, e⟩) (fun l e => subroutine ⟨l, e⟩)
    apart narrow declared g flow s' matched stepped regular
  have branches : i.jumpKind = .branch := by
    unfold jumpKind
    split
    · exact absurd ⟨_, rfl⟩ subroutine
    · rfl
  refine ⟨g', ran, ?_⟩
  rw [branches]
  exact matched'

end

/-- A class that provides the pause that it calls. -/
def restingClass : Class where
  access := 0x21
  name := "app/C"
  superName := some objectClass
  interfaces := []
  methods := [⟨staticFlag, "pause", "()V", 0, { instrs := [.plain (.leave none)] }⟩]

/-- The call of a pause with an int on the stack: a suspension site, after which the int is still there. -/
theorem restingClass_pauses :
    (Instr.invoke .static ⟨"app/C", "pause", "()V"⟩).effect "app/C" {} 0 = .ok ⟨[.suspend 0], some .pause⟩ ∧
      (Instr.invoke .static ⟨"app/C", "pause", "()V"⟩).stepOver restingClass (Host.nothing Unit) 1
          ⟨{ method := ⟨0, "run", "()V", 0, {}⟩, stack := [.int 7] }, { outside := () }⟩ =
        .ok .next ⟨{ method := ⟨0, "run", "()V", 0, {}⟩, stack := [.int 7] }, { outside := () }⟩ ∧
      ∃ g', Step.run [⟨0, .suspend 0⟩] { stack := [.byte] } = .ok g' ∧
        Frame.Matches { method := ⟨0, "run", "()V", 0, {}⟩, stack := [.int 7] } g' := by
  have parsed : Signature.parse "()V" = .ok ⟨[], none⟩ := eq_ok_of_toOption (by decide +kernel)
  have sort : Config.classify {} "app/C" ⟨"app/C", "pause", "()V"⟩ = some .pause := by decide +kernel
  have lowered : (Instr.invoke .static ⟨"app/C", "pause", "()V"⟩).effect "app/C" {} 0 =
      .ok ⟨[.suspend 0], some .pause⟩ := by
    rw [Instr.effect, callEffect, parsed, sort]
    rfl
  have stepped : (Instr.invoke .static ⟨"app/C", "pause", "()V"⟩).stepOver restingClass (Host.nothing Unit) 1
      ⟨{ method := ⟨0, "run", "()V", 0, {}⟩, stack := [.int 7] }, { outside := () }⟩ =
    .ok .next ⟨{ method := ⟨0, "run", "()V", 0, {}⟩, stack := [.int 7] }, { outside := () }⟩ := by
    rw [Instr.stepOver, Instr.step, MemberRef.call, callSignature, parsed]
    rfl
  refine ⟨lowered, stepped, ?_⟩
  refine Instr.matches_stepOver lowered ⟨rfl, fun s => by simp⟩ LocalValues.apart_empty
    (fun e => by cases e) ?_ ?_ stepped rfl 0
  · rintro sig t receiver args rest v w hsig ht
    cases parsed.symm.trans hsig
    cases ht
  · intro op hop e
    subst e
    simp at hop

end Suspension
