import Suspension.Proofs.Weave.Contents
import Suspension.Proofs.Weave.Miscounts

/-!
# The slots of suspendable code stay apart

The slots that are reserved start where all slots of the method end: those that are declared, those that it is
entered with, and both words of those that its instructions address.  What is put into the method moves values to
reserved slots, and back to slots that were recorded, which are among those of the method.  The numbers of slots
have sixteen bits; a method with too many slots is refused, and a number overflows where the parameters are
counted, nowhere else.

## Main definitions
* `TransformError.Overflows`, `Method.Floods`: a number of slots overflows, and where it has to.
* `Weaving.SlotsApart`: where the slots of suspendable code lie.

## Main results
* `overflows_iff`: the only overflow.
* `Weaving.below_recorded`, `Weaving.access_le`: what is fetched back, and what is addressed at all.
* `slots_apart`: all of it, for every method.
-/

namespace Suspension

variable {className : String} {method : Method} {config : Config}

/-! ## Numbers that overflow -/

/-- An error that stands for a number of slots that does not fit into sixteen bits. -/
def TransformError.Overflows : TransformError → Prop
  | .analysis _ _ .tooManyParameters | .weave _ _ .tooManyParameters => True
  | _ => False

/-- The receiver and the parameters of a method have more slots than there are. -/
def Method.Floods (m : Method) : Prop := ∃ s, m.signature = .ok s ∧ 65536 ≤ m.receiverSlots + s.slots

/-- No number overflows but that of the parameters. -/
theorem fails_overflow : Fails (fun e => e.Overflows → method.Floods) (method.transform className config).result := by
  have analysis (title : String) (e : AnalysisError) (other : e.Other) :
      (TransformError.analysis className title e).Overflows → method.Floods := by
    intro overflows
    cases e <;> first | exact overflows.elim | exact other.elim
  have weave (title : String) (e : WeaveError) (other : e.Other) :
      (TransformError.weave className title e).Overflows → method.Floods := by
    intro overflows
    cases e <;> first | exact overflows.elim | exact other.elim
  apply fails_transform
  · exact fails_measure (analysis _) fun s parsed many _ => ⟨s, parsed, many⟩
  · intro metrics measured
    exact fails_shape (analysis _) measured
  · intro metrics shape measured shaped
    exact fails_woven (weave _) (fun _ _ => Plan.fails_freshLabel fun _ => False.elim) measured shaped

/-- That of the parameters does overflow, before anything else is looked at. -/
theorem transform_of_floods (floods : method.Floods) :
    (method.transform className config).result =
      .error (.analysis className (method.name ++ method.descriptor) .tooManyParameters) := by
  obtain ⟨s, parsed, many⟩ := floods
  have full : method.entrySlots s = .error .tooManyParameters := if_neg (Nat.not_lt.2 many)
  have refused : Metrics.measure className method config = .error .tooManyParameters := by
    unfold Metrics.measure AnalysisError.ofDescriptor
    rw [parsed]
    change (method.entrySlots s >>= _) = _
    rw [full, error_bind]
  unfold Method.transform Metrics.ofMethod
  simp only [Reported.result_bind, Reported.result_mapError, Reported.result_ofExcept, refused]
  rfl

/-- A number of slots overflows exactly where the parameters and the receiver have more slots than there are. -/
theorem overflows_iff :
    (∃ e, (method.transform className config).result = .error e ∧ e.Overflows) ↔ method.Floods := by
  constructor
  · rintro ⟨e, failed, overflows⟩
    exact fails_overflow e failed overflows
  · intro floods
    exact ⟨_, transform_of_floods floods, trivial⟩

/-! ## Where the slots lie -/

namespace Weaving

variable {W : Weaving}

theorem toNat_maxLocals : W.result.maxLocals.toNat = W.base + 5 := by
  have temp := W.spaced.temp
  have room := W.base_lt
  change (W.plan.slots.temp + 2).toNat = _
  rw [UInt16.toNat_add, temp]
  exact Nat.mod_eq_of_lt (by simp [base] at room ⊢; omega)

/-- A reserved slot lies in the range that is reserved. -/
theorem reserved_le {k : Storage} {s : Slot} (h : W.plan.slots.Holds k s) :
    W.base ≤ s.toNat ∧ s.toNat + k.width.words ≤ W.base + 5 := by
  obtain ⟨callTarget, answer, temp⟩ := W.spaced
  have one : Storage.reference.width.words = 1 := rfl
  unfold base
  cases h with
  | context => omega
  | callTarget => omega
  | answer => omega
  | temp k =>
    have : k.width.words ≤ 2 := by cases k <;> decide
    omega

/-- What may be fetched back lies below the reserved slots. -/
theorem below_recorded {k : Storage} {s : Slot} :
    (∀ n, W.plan.recorded (W.plan.snapshot n).locals k s → s.toNat < W.base) ∧
      ∀ place, W.plan.recorded (W.plan.retyped place) k s → s.toNat < W.base := by
  constructor
  · rintro n ⟨-, t, there, -⟩
    rw [Plan.snapshot, W.made.shape_eq] at there
    cases known : W.shape.site? n with
    | none => simp [known] at there
    | some S =>
      rw [known] at there
      exact below_site known s t there
  · rintro place ⟨-, t, there, -⟩
    rw [Plan.retyped, W.made.shape_eq] at there
    cases known : W.shape.retypeAt[place]?.bind (W.shape.labels[·]?) with
    | none => simp [known] at there
    | some x =>
      obtain ⟨l, -, named⟩ := Option.bind_eq_some_iff.1 known
      rw [known] at there
      exact below_label named s t there

/-- Every slot that suspendable code addresses lies below its highest one.  What is fetched back starts below
the reserved slots and may reach one word into them. -/
theorem access_le {ins : Instr} (hi : ins ∈ W.result.code.instrs) {s : Slot} {width : Width}
    (access : ins.slotAccess? = some (s, width)) : s.toNat + width.words ≤ W.base + 5 := by
  obtain ⟨opening, mirrored, composed⟩ := W.composed
  have entered (k : Storage) (s : Slot) (h : W.plan.entered k s) : s.toNat + k.width.words ≤ W.base + 5 := by
    obtain ⟨sig, parsed, le⟩ := h
    rw [W.made.method_eq] at parsed le
    have := entry_le_base parsed
    omega
  have stored (k : Storage) (s : Slot) (h : .store k s ∈ W.instrs) : s.toNat + k.width.words ≤ W.base + 5 := by
    have := slot_le_base h (rfl : (Instr.store k s).slotAccess? = some (s, k.width))
    omega
  have fetched (k : Storage) (s : Slot) (h : s.toNat < W.base) : s.toNat + k.width.words ≤ W.base + 5 := by
    have : k.width.words ≤ 2 := by cases k <;> decide
    omega
  rcases composed.mem_cases entered stored (fun n k s h => fetched k s (below_recorded.1 n h))
    (fun n k s h => fetched k s (below_recorded.2 n h)) hi with old | put | ⟨l, rfl⟩
  · have := slot_le_base old access
    omega
  · cases put with
    | load own | store own =>
      cases access
      exact (reserved_le own).2
    | copy le | fetch le =>
      cases access
      exact le
    | plain slots targets mark =>
      rw [slots] at access
      cases access
    | _ => cases access
  · cases access

/-- Where the slots of suspendable code lie: those of the method, then the reserved ones one after the other, of
which the last one has two words. -/
structure SlotsApart (W : Weaving) : Prop where
  first : W.plan.slots.context.toNat = max W.method.maxLocals.toNat W.metrics.maxLocals.toNat
  own : ∀ i ∈ W.method.code.instrs, ∀ s width, i.slotAccess? = some (s, width) →
    s.toNat + width.words ≤ W.plan.slots.context.toNat
  entered : ∀ s, W.method.signature = .ok s → W.method.receiverSlots + s.slots ≤ W.plan.slots.context.toNat
  spaced : W.plan.slots.Spaced
  maxLocals : W.result.maxLocals.toNat = W.plan.slots.temp.toNat + 2
  inside : ∀ i ∈ W.result.code.instrs, ∀ s width, i.slotAccess? = some (s, width) →
    s.toNat + width.words ≤ W.result.maxLocals.toNat
  recorded : ∀ k s, (∀ n, W.plan.recorded (W.plan.snapshot n).locals k s → s < W.plan.slots.context) ∧
    ∀ place, W.plan.recorded (W.plan.retyped place) k s → s < W.plan.slots.context
  composed : ∃ opening mirrored, W.Composed opening mirrored

theorem slotsApart (W : Weaving) : W.SlotsApart where
  first := W.base_eq
  own i hi s width access := slot_le_base hi access
  entered s parsed := entry_le_base parsed
  spaced := W.spaced
  maxLocals := by
    rw [toNat_maxLocals, W.spaced.temp, base]
  inside i hi s width access := by
    rw [toNat_maxLocals]
    exact access_le hi access
  recorded k s := below_recorded
  composed := W.composed

end Weaving

/-- The slots of a method and those that are reserved for the code put into it stay apart.  A number of slots
overflows exactly where the receiver and the parameters of a method have more slots than there are.  In every
suspendable method all words that the method is entered with or addresses lie below the context, the reserved slots
follow one after the other, and no instruction addresses a word above them.  What is put in stores to reserved
slots, and where a flow is fetched back to the slots that were recorded there. -/
theorem slots_apart (className : String) (method : Method) (config : Config) :
    ((∃ e, (method.transform className config).result = .error e ∧ e.Overflows) ↔ method.Floods) ∧
    ∀ result, (method.transform className config).result = .ok (some result) →
      ∃ W : Weaving, W.className = className ∧ W.method = method ∧ W.config = config ∧ W.result = result ∧
        W.SlotsApart := by
  refine ⟨overflows_iff, fun result transformed => ?_⟩
  obtain ⟨W, rfl, rfl, rfl, rfl⟩ := Weaving.exists_of_transform transformed
  exact ⟨W, rfl, rfl, rfl, rfl, W.slotsApart⟩

/-- Pauses with a value in the highest two words below which there is room. -/
def brimming : Method where
  access := staticFlag
  name := "execute"
  descriptor := "()V"
  maxLocals := 0
  code.instrs := [.ldc (.long 1), .store .long 65528, .pause, .plain (.leave none)]

/-- The context is right above the value, and no slot is left. -/
theorem brimming_apart :
    ∃ (result : Method) (W : Weaving), (brimming.transform "app/C" {}).result = .ok (some result) ∧
      W.result = result ∧ W.SlotsApart ∧ result.maxLocals = 65535 := by
  have highest : ((brimming.transform "app/C" {}).result.toOption.bind id).map (·.maxLocals) = some 65535 := by
    decide +kernel
  obtain ⟨result, transformed⟩ : ∃ result, (brimming.transform "app/C" {}).result = .ok (some result) :=
    exists_ok_some (by rw [← Option.isSome_map, highest]; rfl)
  obtain ⟨-, emitted⟩ := slots_apart "app/C" brimming {}
  obtain ⟨W, -, -, -, same, apart⟩ := emitted result transformed
  rw [transformed] at highest
  exact ⟨result, W, transformed, same, apart, Option.some.inj highest⟩

/-! ## A method that floods its slots -/

theorem fieldTypes_longs (n : Nat) {rest : List Char} (done : fieldType? rest = none) :
    fieldTypes (List.replicate n 'J' ++ rest) = (List.replicate n .long, rest) := by
  induction n with
  | zero =>
    rw [List.replicate_zero, List.nil_append, fieldTypes]
    split
    · rfl
    · next found => rw [done] at found; cases found
  | succ n ih =>
    rw [List.replicate_succ, List.cons_append, fieldTypes]
    split
    · next none => cases none
    · next found =>
      cases found
      simp only [ih]
      rfl

/-- Pauses; it takes as many longs as are given. -/
def taking (longs : Nat) : Method where
  access := staticFlag
  name := "execute"
  descriptor := String.ofList ('(' :: (List.replicate longs 'J' ++ [')', 'V']))
  maxLocals := 0
  code.instrs := [.pause, .plain (.leave none)]

theorem signature_taking (longs : Nat) : (taking longs).signature = .ok ⟨List.replicate longs .long, none⟩ := by
  have read : Signature.ofChars? ('(' :: (List.replicate longs 'J' ++ [')', 'V'])) =
      some ⟨List.replicate longs .long, none⟩ := by
    have params := fieldTypes_longs longs (rfl : fieldType? [')', 'V'] = none)
    simp only [Signature.ofChars?, params]
    rfl
  rw [Method.signature, Signature.parse, taking, String.toList_ofList, read]

/-- Beyond 32767 longs the number of slots overflows. -/
theorem taking_floods {longs : Nat} (many : 32768 ≤ longs) : (taking longs).Floods := by
  refine ⟨_, signature_taking longs, ?_⟩
  have slots (n : Nat) : total Tag.words (List.replicate n .long) = 2 * n := by
    induction n with
    | zero => rfl
    | succ n ih =>
      rw [List.replicate_succ, total_cons, ih]
      change 2 + 2 * n = _
      omega
  change 65536 ≤ _ + total Tag.words (List.replicate longs .long)
  rw [slots]
  omega

/-- With 32768 longs the number of slots overflows. -/
theorem parameters_overflow :
    ∃ e, ((taking 32768).transform "app/C" {}).result = .error e ∧ e.Overflows :=
  overflows_iff.2 (taking_floods (Nat.le_refl _))

end Suspension
