import Mathlib.Algebra.Group.Nat.Defs
import Suspension.Proofs.Machine.Services
import Suspension.Proofs.Weave.Layout

/-!
# What suspendable code is built of

The code that saves a flow and fetches it back consists of a few kinds of instructions: moves between
slots and the stack, ints, calls of services, and casts.  Together with the glue between such code they
are all that is put into a method, and the sites are all that is taken out of it.

## Main definitions
* `Service.classes`: the classes that suspendable code needs at run time.
* `Instr.Stock`: the instructions that save and fetch back.
* `Plan.Inserts`: the instructions that are put into a method.

## Main results
* `Weaving.mem_stream`: every instruction of suspendable code was put in, or is one of the method that is
  no site.
-/

namespace Suspension

/-- The classes of the services and of the signals. -/
def Service.classes : List String :=
  [contextClass, storeClass, signalClass] ++ SiteKind.all.map SiteKind.signalClass

/-- An instruction of code that saves a flow or fetches it back. -/
inductive Instr.Stock : Instr → Prop
  | load (k : Storage) (s : Slot) : Stock (.load k s)
  | store (k : Storage) (s : Slot) : Stock (.store k s)
  | int (n : Int32) : Stock (pushInt n)
  | vars (s : StoreService) : Stock (callService s.ref)
  | context (s : ContextService) : Stock (callService s.ref)
  | cast (c : String) : Stock (.typed .checkCast c)

/-- What saves a flow or fetches it back goes straight on. -/
theorem Instr.Stock.targets {i : Instr} (h : i.Stock) : i.targets = [] := by
  cases h with
  | int n =>
    unfold pushInt
    repeat' split
    all_goals rfl
  | _ => rfl

namespace Plan

variable {p : Plan}

theorem stock_castTo (t : Tag) : ∀ i ∈ castTo t, i.Stock := by
  intro i hi
  unfold castTo at hi
  cases ht : t.castTarget with
  | none => simp [ht] at hi
  | some c =>
    obtain rfl : i = .typed .checkCast c := by simpa [ht] using hi
    exact .cast c

theorem stock_localVars : ∀ i ∈ p.localVars, i.Stock := by
  simp only [localVars, List.mem_cons, List.not_mem_nil, or_false, forall_eq_or_imp, forall_eq]
  exact ⟨.load _ _, .context .getLocalVars⟩

theorem stock_localStack : ∀ i ∈ p.localStack, i.Stock := by
  simp only [localStack, List.mem_cons, List.not_mem_nil, or_false, forall_eq_or_imp, forall_eq]
  exact ⟨.load _ _, .context .getLocalStack⟩

theorem stock_recordSlot (k : Storage) (s : Slot) : ∀ i ∈ p.recordSlot k s, i.Stock := by
  simp only [recordSlot, List.mem_append, List.mem_cons, List.not_mem_nil, or_false]
  rintro i (hi | rfl | rfl | rfl)
  · exact stock_localVars i hi
  · exact .int _
  · exact .load k s
  · exact .vars (.store k)

theorem stock_record (i : Instr) : ∀ j ∈ p.record i, j.Stock := by
  unfold record
  split
  · simp only [List.mem_append, List.mem_cons, List.not_mem_nil, or_false]
    rintro j (hj | rfl | rfl | rfl)
    · exact stock_localVars j hj
    · exact .int _
    · exact .int _
    · exact .vars .increment
  · exact stock_recordSlot _ _
  · simp

theorem stock_recordParams (slot : Nat) (tags : List Tag) :
    ∀ i ∈ p.recordParams slot tags, i.Stock := by
  induction tags generalizing slot with
  | nil => simp [recordParams]
  | cons t ts ih =>
    intro i hi
    rw [recordParams, List.mem_append] at hi
    rcases hi with hi | hi
    · split at hi
      · exact stock_recordSlot _ _ i hi
      · cases hi
    · exact ih _ i hi

/-- What holds of the instructions of each part holds of those of all parts. -/
theorem each_mapM {α : Type} {P : Instr → Prop} {part : α → Except WeaveError (List Instr)}
    {l : List α} {codes : List (List Instr)} (hcodes : l.mapM part = .ok codes)
    (h : ∀ a code, part a = .ok code → ∀ i ∈ code, P i) : ∀ i ∈ codes.flatten, P i := by
  intro i hi
  obtain ⟨code, hcode, hi⟩ := List.mem_flatten.1 hi
  obtain ⟨j, hj, rfl⟩ := List.mem_iff_getElem.1 hcode
  obtain ⟨hlen, hget⟩ := mapM_eq_ok.1 hcodes
  exact h _ _ (hget j (hlen ▸ hj) hj) i hi

theorem stock_saveStack {site : Nat} {stack : List Tag} {code : List Instr}
    (h : p.saveStack site stack = .ok code) : ∀ i ∈ code, i.Stock := by
  obtain ⟨codes, hcodes, h⟩ := bind_eq_ok.1 h
  cases h
  refine each_mapM hcodes fun t code h => ?_
  obtain ⟨k, -, h⟩ := bind_eq_ok.1 h
  cases h
  simp only [List.mem_append, List.mem_cons, List.not_mem_nil, or_false]
  rintro i ((rfl | hi) | rfl | rfl)
  · exact .store k _
  · exact stock_localStack i hi
  · exact .load k _
  · exact .vars (.push k)

theorem stock_restoreStack {site : Nat} {stack : List Tag} {code : List Instr}
    (h : p.restoreStack site stack = .ok code) : ∀ i ∈ code, i.Stock := by
  obtain ⟨codes, hcodes, h⟩ := bind_eq_ok.1 h
  cases h
  refine each_mapM hcodes fun t code h => ?_
  obtain ⟨k, -, h⟩ := bind_eq_ok.1 h
  cases h
  simp only [List.mem_append, List.mem_cons, List.not_mem_nil, or_false]
  rintro i ((hi | rfl) | hi)
  · exact stock_localStack i hi
  · exact .vars (.pop k)
  · exact stock_castTo t i hi

theorem stock_restoreLocals {site : Nat} {locals : Locals} {code : List Instr}
    (h : p.restoreLocals site locals = .ok code) : ∀ i ∈ code, i.Stock := by
  obtain ⟨codes, hcodes, h⟩ := bind_eq_ok.1 h
  cases h
  refine each_mapM hcodes fun e code h => ?_
  obtain ⟨k, -, h⟩ := bind_eq_ok.1 h
  cases h
  simp only [List.mem_append, List.mem_cons, List.not_mem_nil, or_false]
  rintro i (((hi | rfl | rfl) | hi) | rfl)
  · exact stock_localVars i hi
  · exact .int _
  · exact .vars (.get k)
  · exact stock_castTo e.2 i hi
  · exact .store k e.1

theorem stock_retype {place site : Nat} {code : List Instr} (h : p.retype place site = .ok code) :
    ∀ i ∈ code, i.Stock := by
  unfold retype at h
  split at h
  · split at h
    · exact stock_restoreLocals h
    · cases h
      simp
  · cases h
    simp

theorem stock_fetching (answer : Option Tag) : ∀ i ∈ p.fetching answer, i.Stock := by
  unfold fetching
  split
  · simp only [List.mem_append, List.mem_cons, List.not_mem_nil, or_false]
    rintro i ((rfl | rfl) | hi)
    · exact .load _ _
    · exact .context .getCallAnswer
    · exact stock_castTo _ i hi
  · simp

theorem stock_deregister : ∀ i ∈ p.deregister, i.Stock := by
  simp only [deregister, List.mem_cons, List.not_mem_nil, or_false]
  rintro i (rfl | rfl | rfl | rfl)
  · exact .load _ _
  · exact .context .register
  · exact .load _ _
  · exact .context .deactivate

theorem SiteCode.stock_returning {site : Nat} {kind : InvokeKind} {sort : SiteKind}
    (s : p.SiteCode site kind sort) : ∀ i ∈ s.returning, i.Stock := by
  simp only [returning, List.mem_append, List.mem_cons, List.not_mem_nil, or_false]
  rintro i ((((rfl | rfl) | hi) | hi) | hi)
  · exact .load _ _
  · exact .context .clearLabel
  · exact stock_restoreLocals s.locals_eq i hi
  · exact stock_restoreStack s.stack_eq i hi
  · exact stock_fetching _ i hi

/-! ## All that is put in -/

/-- An instruction that is put into a method: one that saves or fetches back, one that obtains a context or
goes to where it continues, one that throws a signal or lets it through, or a label. -/
inductive Inserts (p : Plan) : Instr → Prop
  | stock {i : Instr} (h : i.Stock) : p.Inserts i
  | null : p.Inserts (.plain .aconstNull)
  | obtain : p.Inserts (.invoke .static Service.createOrResetContext)
  | dispatch (h : p.resumptions ≠ []) :
    p.Inserts (.tableSwitch 0 (Int32.ofNat p.resumptions.length - 1) p.start p.resumptions)
  | shuffle (s : Shuffle) : p.Inserts (.plain (.shuffle s))
  | signal (k : SiteKind) : p.Inserts (.typed .new k.signalClass)
  | construct (k : SiteKind) :
    p.Inserts (.invoke .special ⟨k.signalClass, Service.constructorName, k.constructorDescriptor⟩)
  | athrow : p.Inserts (.plain .athrow)
  | isSignal : p.Inserts (.typed .instanceOf Service.signalClass)
  | letThrough (l : Label) (h : p.method.code.regions ≠ []) : p.Inserts (.jump (.ifZero .ne) l)
  | label (l : Label) : p.Inserts (.label l)

/-- The highest number in the range of the dispatch. -/
theorem toInt_highest {n : Nat} (some : 0 < n) (few : n < 2 ^ 31) :
    (Int32.ofNat n - 1).toInt = n - 1 := by
  have count : (Int32.ofNat n).toInt = n := Int32.toInt_ofNat_of_lt (by omega)
  rw [Int32.toInt_sub, count]
  exact Int.bmod_eq_of_le (by simp; omega) (by simp; omega)

theorem inserts_obtaining : ∀ i ∈ p.obtaining, p.Inserts i := by
  simp only [obtaining, List.mem_cons, List.not_mem_nil, or_false]
  rintro i (rfl | rfl | rfl)
  · unfold loadReceiver
    split
    · exact .null
    · exact .stock (.load _ _)
  · exact .obtain
  · exact .stock (.store _ _)

theorem inserts_dispatch : ∀ i ∈ p.dispatch, p.Inserts i := by
  unfold dispatch
  split
  · simp
  · next some =>
    simp only [List.mem_cons, List.not_mem_nil, or_false]
    rintro i (rfl | rfl | rfl)
    · exact .stock (.load _ _)
    · exact .stock (.context .getLabel)
    · exact .dispatch (by simpa using some)

theorem inserts_prologue {front : List Instr} (h : p.prologue = .ok front) :
    ∀ i ∈ front, p.Inserts i := by
  obtain ⟨s, -, -, rfl⟩ := prologue_eq_ok h
  simp only [List.mem_append, List.mem_cons]
  rintro i ((hi | hi) | rfl | hi)
  · exact inserts_obtaining i hi
  · exact inserts_dispatch i hi
  · exact .label _
  · exact .stock (stock_recordParams _ _ i hi)

theorem inserts_throwSignal (kind : SiteKind) (payload : Option Slot) :
    ∀ i ∈ p.throwSignal kind payload, p.Inserts i := by
  have carried : ∀ i ∈ (payload.map (Instr.load .reference)).toList, p.Inserts i := by
    intro i hi
    cases payload with
    | none => cases hi
    | some s =>
      obtain rfl : i = .load .reference s := by simpa using hi
      exact .stock (.load _ _)
  simp only [throwSignal, List.mem_append, List.mem_cons, List.not_mem_nil, or_false]
  rintro i (((rfl | rfl | rfl) | hi) | rfl | rfl)
  · exact .signal kind
  · exact .shuffle .dup
  · exact .stock (.load _ _)
  · exact carried i hi
  · exact .construct kind
  · exact .athrow

theorem inserts_dropReceiver (kind : InvokeKind) : ∀ i ∈ dropReceiver kind, p.Inserts i := by
  intro i hi
  unfold dropReceiver at hi
  split at hi
  · obtain rfl : i = .plain (.shuffle .pop) := by simpa using hi
    exact .shuffle .pop
  · cases hi

theorem SiteCode.inserts_code {site : Nat} {kind : InvokeKind} {sort : SiteKind}
    (s : p.SiteCode site kind sort) : ∀ i ∈ s.code, p.Inserts i := by
  have parked : ∀ i ∈ (if sort = .call then [Instr.store .reference p.slots.callTarget] else []),
      p.Inserts i := by
    intro i hi
    split at hi
    · obtain rfl : i = .store .reference p.slots.callTarget := by simpa using hi
      exact .stock (.store _ _)
    · cases hi
  simp only [code, leaving, saving, List.mem_append, List.mem_cons, List.not_mem_nil, or_false]
  rintro i (((((hi | hi) | hi) | rfl | rfl | rfl) | hi) | rfl | hi)
  · exact parked i hi
  · exact inserts_dropReceiver kind i hi
  · exact .stock (stock_saveStack s.saved_eq i hi)
  · exact .stock (.load _ _)
  · exact .stock (.int _)
  · exact .stock (.context .setLabel)
  · exact inserts_throwSignal _ _ i hi
  · exact .label _
  · exact .stock (s.stock_returning i hi)

theorem inserts_answer {kind : InvokeKind} {m : MemberRef} {code : List Instr}
    (h : p.answer kind m = .ok code) : ∀ i ∈ code, p.Inserts i := by
  obtain ⟨s, -, h⟩ := bind_eq_ok.1 h
  cases h
  simp only [List.mem_append, List.mem_cons, List.not_mem_nil, or_false]
  rintro i (((hi | rfl) | hi) | hi)
  · split at hi
    · obtain rfl : i = .plain .aconstNull := by simpa using hi
      exact .null
    · cases hi
  · exact .stock (.store _ _)
  · exact inserts_dropReceiver kind i hi
  · exact inserts_throwSignal _ _ i hi

theorem inserts_epilogue : ∀ i ∈ p.epilogue, p.Inserts i := by
  unfold epilogue
  split
  · split
    · simp only [List.mem_cons, List.not_mem_nil, or_false]
      rintro i (rfl | rfl)
      · exact .label _
      · exact .athrow
    · simp
  · simp

end Plan

namespace Weaving

variable {W : Weaving}

/-- Every instruction of the piece of an instruction was put in, or is that instruction, which is no site
then. -/
theorem mem_piece {i : Nat} {ins j : Instr} (hi : W.instrs[i]? = some ins) (hj : j ∈ W.piece i) :
    j = ins ∧ W.config.site? W.className ins = none ∨ W.plan.Inserts j := by
  cases hd : ins.defined? with
  | some l =>
    obtain rfl := defined?_eq_some.1 hd
    cases handler : W.plan.isHandler l with
    | true =>
      obtain ⟨r, -, hp⟩ := piece_handler hi handler
      simp only [hp, List.mem_cons, List.not_mem_nil, or_false] at hj
      rcases hj with rfl | rfl | rfl | rfl
      · exact .inr (.label l)
      · exact .inr (.shuffle .dup)
      · exact .inr .isSignal
      · refine .inr (.letThrough r fun none => ?_)
        rw [Plan.isHandler, none] at handler
        cases handler
    | false =>
      rw [piece_label hi handler, List.mem_singleton] at hj
      exact .inr (hj ▸ .label l)
  | none =>
    cases hr : ins.isReturn with
    | true =>
      obtain ⟨k, rfl⟩ := Instr.isReturn_iff.1 hr
      rw [piece_return hi, List.mem_append, List.mem_singleton] at hj
      rcases hj with hj | rfl
      · exact .inr (.stock (Plan.stock_deregister j hj))
      · exact .inl ⟨rfl, rfl⟩
    | false =>
      cases site : W.config.site? W.className ins with
      | none =>
        obtain ⟨fetched, hf, hp⟩ := piece_other hi hd hr site
        simp only [hp, List.mem_append, List.mem_cons] at hj
        rcases hj with (rfl | hj) | hj
        · exact .inl ⟨rfl, rfl⟩
        · exact .inr (.stock (Plan.stock_record _ j hj))
        · exact .inr (.stock (Plan.stock_retype hf j hj))
      | some s =>
        obtain ⟨kind, sort, m⟩ := s
        cases suspends : sort.suspends with
        | true =>
          obtain ⟨s, hp⟩ := piece_site hi site suspends
          exact .inr (s.inserts_code j (hp ▸ hj))
        | false =>
          obtain rfl : sort = .answer := by simpa [SiteKind.suspends] using suspends
          exact .inr (Plan.inserts_answer (piece_answer hi site) j hj)

/-- Every instruction of suspendable code was put in, or is one of the method that is no site. -/
theorem mem_stream {j : Instr} (hj : j ∈ W.stream) :
    (j ∈ W.instrs ∧ W.config.site? W.className j = none) ∨ W.plan.Inserts j := by
  rw [stream, List.mem_append, List.mem_append] at hj
  rcases hj with (hj | hj) | hj
  · exact .inr (Plan.inserts_prologue W.opened j hj)
  · obtain ⟨code, hcode, hj⟩ := List.mem_flatten.1 hj
    obtain ⟨i, hi, rfl⟩ := List.mem_iff_getElem.1 hcode
    obtain ⟨ins, at_i⟩ : ∃ ins, W.instrs[i]? = some ins :=
      ⟨_, List.getElem?_eq_getElem (W.length_pieces ▸ hi)⟩
    have own : W.piece i = W.pieces[i] := by simp [piece, List.getElem?_eq_getElem hi]
    rcases mem_piece at_i (own ▸ hj) with ⟨rfl, site⟩ | put
    · exact .inl ⟨List.mem_of_getElem? at_i, site⟩
    · exact .inr put
  · exact .inr (Plan.inserts_epilogue j hj)

end Weaving

end Suspension
