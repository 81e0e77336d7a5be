import Mathlib.Data.List.Forall2
import Suspension.Proofs.Container.Bounded
import Suspension.Proofs.Weave.Stock

/-!
# Classes made suspendable

Only the bodies of entry methods with sites change when a class is made suspendable, and the class that
is written out is read back as it was made.

## Main definitions
* `Method.TakesPart`: the methods that change.
* `Method.Becomes`: what becomes of a method.
* `Class.Moderate`: the bodies of a class are not too long to be written.

## Main results
* `transformMethods_eq_ok`: what becomes of the methods of a class.
* `transformClass_eq_ok`: the steps by which a class is made suspendable.
* `transformClass_entries`: nothing but the bodies of entry methods with sites is changed.
-/

namespace Suspension

open Container

variable {className : String} {config : Config}

/-- An entry method with a site. -/
def Method.TakesPart (className : String) (config : Config) (m : Method) : Prop :=
  config.isEntry m.name m.descriptor = true ∧
    ∃ i ∈ m.code.instrs, (config.site? className i).isSome = true

/-- What becomes of a method of class `className`: its head and its regions are kept, and its body is
replaced exactly if it is an entry method with a site. -/
structure Method.Becomes (className : String) (config : Config) (m m' : Method) : Prop where
  access : m'.access = m.access
  name : m'.name = m.name
  descriptor : m'.descriptor = m.descriptor
  regions : m'.code.regions = m.code.regions
  kept : ¬ m.TakesPart className config → m' = m
  woven : m.TakesPart className config → (m.transform className config).result = .ok (some m')

/-- The body of each method takes fewer than 2 ^ 31 bytes. -/
def Class.Moderate (c : Class) : Prop := ∀ m ∈ c.methods, (Encode.code m.code).length < 2 ^ 31

/-! ## One method -/

/-- A method has to be changed exactly if it has a site.  A site either suspends or answers, so one of the two
counts is positive. -/
theorem Metrics.needsWeaving_iff {m : Method} {metrics : Metrics}
    (h : measure className m config = .ok metrics) :
    metrics.needsWeaving = true ↔ ∃ i ∈ m.code.instrs, (config.site? className i).isSome = true := by
  obtain ⟨signature, -, h⟩ := bind_eq_ok.1 h
  obtain ⟨entry, -, h⟩ := bind_eq_ok.1 h
  cases h
  simp only [needsWeaving, Bool.or_eq_true, decide_eq_true_eq, List.countP_pos_iff]
  constructor
  · rintro (⟨kind, site, -⟩ | ⟨kind, site, -⟩) <;>
    · obtain ⟨i, hi, found⟩ := List.mem_filterMap.1 site
      obtain ⟨s, hs, -⟩ := Option.map_eq_some_iff.1 found
      exact ⟨i, hi, by rw [hs]; rfl⟩
  · rintro ⟨i, hi, some⟩
    obtain ⟨s, hs⟩ := Option.isSome_iff_exists.1 some
    have site : s.2.1 ∈ sites className config m.code.instrs :=
      List.mem_filterMap.2 ⟨i, hi, by rw [hs]; rfl⟩
    cases suspends : s.2.1.suspends with
    | true => exact .inl ⟨_, site, suspends⟩
    | false => exact .inr ⟨_, site, by simp [suspends]⟩

theorem Metrics.result_ofMethod (m : Method) :
    (ofMethod className m config).result = measure className m config := by
  simp only [ofMethod, Reported.result_bind, Reported.result_ofExcept, Reported.result_report]
  cases measure className m config <;> rfl

/-- A method that was accepted could be measured, and was changed exactly if it has a site. -/
theorem Method.measured_of_transform {m : Method} {result : Option Method}
    (h : (m.transform className config).result = .ok result) :
    ∃ metrics, Metrics.measure className m config = .ok metrics ∧
      result.isSome = metrics.needsWeaving := by
  unfold Method.transform at h
  simp only [Reported.result_bind, Reported.result_mapError, Metrics.result_ofMethod] at h
  obtain ⟨metrics, measured, h⟩ := bind_eq_ok.1 h
  refine ⟨metrics, mapError_eq_ok.1 measured, ?_⟩
  split at h
  · next needed =>
    simp only [Reported.result_bind] at h
    obtain ⟨shape, -, h⟩ := bind_eq_ok.1 h
    obtain ⟨result, -, h⟩ := bind_eq_ok.1 h
    cases h
    exact needed.symm
  · next idle =>
    simp only [Reported.result_bind] at h
    obtain ⟨-, -, h⟩ := bind_eq_ok.1 h
    cases h
    simpa using idle

/-- A method that can be measured and has no site is accepted and left alone. -/
theorem Method.transform_of_idle {m : Method} {metrics : Metrics}
    (measured : Metrics.measure className m config = .ok metrics) (idle : metrics.needsWeaving = false) :
    (m.transform className config).result = .ok none := by
  simp only [Method.transform, Reported.result_bind, Reported.result_mapError, Metrics.result_ofMethod, measured]
  show (if metrics.needsWeaving = true then _ else _ : Reported TransformError (Option Method)).result = _
  rw [idle, if_neg Bool.false_ne_true]
  rfl

theorem Method.Becomes.refl {m : Method} (h : ¬ m.TakesPart className config) :
    m.Becomes className config m :=
  ⟨rfl, rfl, rfl, rfl, fun _ => rfl, fun takes => absurd takes h⟩

/-- The suspendable form of a method has its head and its regions. -/
theorem Method.Becomes.of_transform {m m' : Method} (entry : config.isEntry m.name m.descriptor = true)
    (h : (m.transform className config).result = .ok (some m')) :
    m.TakesPart className config ∧ m.Becomes className config m' := by
  obtain ⟨metrics, measured, needed⟩ := measured_of_transform h
  have takes : m.TakesPart className config := ⟨entry, (Metrics.needsWeaving_iff measured).1 needed.symm⟩
  obtain ⟨W, -, rfl, -, rfl⟩ := Weaving.exists_of_transform h
  exact ⟨takes, rfl, rfl, rfl, rfl, fun other => absurd takes other, fun _ => h⟩

/-! ## The methods of a class -/

/-- What becomes of a method of a class, if it is an entry method. -/
def Method.entered (className : String) (config : Config) (m : Method) :
    Except TransformError (Option Method) :=
  if config.isEntry m.name m.descriptor then (m.transform className config).result else .ok none

theorem transformMethods_cons (m : Method) (rest : List Method) :
    (transformMethods className config (m :: rest)).result = do
      let result ← m.entered className config
      let (methods, changed) ← (transformMethods className config rest).result
      return (result.getD m :: methods, result.isSome || changed) := by
  unfold Method.entered
  rw [transformMethods]
  split
  · simp only [Reported.result_bind]
    rfl
  · simp only [Reported.result_bind]
    rfl

/-- A method that was accepted becomes something else exactly if it takes part.  Only an entry method is looked
at, and only one with a site is woven. -/
theorem Method.becomes_of_entered {m : Method} {result : Option Method}
    (h : m.entered className config = .ok result) :
    m.Becomes className config (result.getD m) ∧
      (result.isSome = true ↔ m.TakesPart className config) := by
  unfold entered at h
  split at h
  · next entry =>
    cases result with
    | some m' =>
      obtain ⟨takes, becomes⟩ := Becomes.of_transform entry h
      exact ⟨becomes, by simp [takes]⟩
    | none =>
      obtain ⟨metrics, measured, idle⟩ := measured_of_transform h
      have none : ¬ m.TakesPart className config := fun takes => by
        rw [(Metrics.needsWeaving_iff measured).2 takes.2] at idle
        cases idle
      exact ⟨.refl none, by simp [none]⟩
  · next other =>
    cases h
    have none : ¬ m.TakesPart className config := fun takes => other takes.1
    exact ⟨.refl none, by simp [none]⟩

/-- What becomes of the methods of a class, and whether any of them changes. -/
theorem transformMethods_eq_ok {methods methods' : List Method} {changed : Bool}
    (h : (transformMethods className config methods).result = .ok (methods', changed)) :
    List.Forall₂ (Method.Becomes className config) methods methods' ∧
      (changed = true ↔ ∃ m ∈ methods, m.TakesPart className config) := by
  induction methods generalizing methods' changed with
  | nil =>
    cases h
    exact ⟨.nil, by simp⟩
  | cons m rest ih =>
    rw [transformMethods_cons] at h
    obtain ⟨result, own, h⟩ := bind_eq_ok.1 h
    obtain ⟨⟨others, changed'⟩, more, h⟩ := bind_eq_ok.1 h
    cases h
    obtain ⟨each, any⟩ := ih more
    obtain ⟨becomes, takes⟩ := Method.becomes_of_entered own
    refine ⟨.cons becomes each, ?_⟩
    rw [Bool.or_eq_true, takes, any]
    simp

/-! ## The class -/

theorem Config.missingMarker?_eq_none {c : Class} :
    config.missingMarker? c = none ↔ ∀ marker ∈ config.marker, c.implements marker = true := by
  simp [missingMarker?, Option.filter_eq_none_iff]

/-- The steps by which a class is made suspendable.  Failures on either side exclude each other; on success the
marker decides. -/
theorem transformClass_eq_ok {bytes : List UInt8} {t : Transformed} :
    (transformClass bytes className config).result = .ok t ↔
      ∃ c, decodeClass bytes = .ok c ∧ c.name = internalName className ∧
        ((config.missingMarker? c).isSome = true ∧ t = .unchanged ∨
          config.missingMarker? c = none ∧ ∃ methods changed,
            (transformMethods c.name config c.methods).result = .ok (methods, changed) ∧
              t = if changed then .changed (encodeClass { c with methods }) else .unchanged) := by
  simp only [transformClass, Reported.result_bind, Reported.result_ofExcept, bind_eq_ok, mapError_eq_ok]
  refine exists_congr fun c => and_congr_right fun _ => ?_
  by_cases named : c.name = internalName className
  · simp only [named, ne_eq, not_true_eq_false, if_false, true_and]
    cases marked : config.missingMarker? c with
    | some marker =>
      constructor
      · intro h
        cases h
        exact .inl ⟨rfl, rfl⟩
      · rintro (⟨-, rfl⟩ | ⟨absent, -⟩)
        · rfl
        · cases absent
    | none =>
      simp only [Reported.result_bind]
      constructor
      · intro h
        obtain ⟨⟨methods, changed⟩, woven, h⟩ := bind_eq_ok.1 h
        refine .inr ⟨trivial, methods, changed, woven, ?_⟩
        cases changed <;> cases h <;> rfl
      · rintro (⟨absent, -⟩ | ⟨-, methods, changed, woven, rfl⟩)
        · cases absent
        · refine bind_eq_ok.2 ⟨(methods, changed), woven, ?_⟩
          cases changed <;> rfl
  · simp only [named, ne_eq, not_false_eq_true, if_true, false_and, iff_false]
    exact fun h => nomatch h

section

variable {c : Class} {m m' : Method}

/-- A class whose only method is an entry method with a site is written with the suspendable form of it. -/
theorem transformClass_single (fine : c.Encodable)
    (woven : (m.transform c.name config).result = .ok (some m')) (only : c.methods = [m])
    (entry : config.isEntry m.name m.descriptor = true) (named : c.name = internalName className)
    (marked : config.missingMarker? c = none) :
    (transformClass (encodeClass c) className config).result =
      .ok (.changed (encodeClass { c with methods := [m'] })) := by
  have methods : (transformMethods c.name config c.methods).result = .ok ([m'], true) := by
    rw [only, transformMethods_cons, Method.entered, if_pos entry, woven]
    rfl
  exact transformClass_eq_ok.2 ⟨c, decodeClass_encodeClass _ fine, named, .inr ⟨marked, _, _, methods, rfl⟩⟩

/-- What becomes of it is nothing else. -/
theorem Method.Becomes.eq_single {methods : List Method}
    (each : List.Forall₂ (Method.Becomes className config) [m] methods)
    (woven : (m.transform className config).result = .ok (some m'))
    (entry : config.isEntry m.name m.descriptor = true) : methods = [m'] := by
  obtain ⟨m₁, others, becomes, none, rfl⟩ := List.forall₂_cons_left_iff.1 each
  obtain rfl := List.forall₂_nil_left_iff.1 none
  have same := (becomes.woven (Becomes.of_transform entry woven).1).symm.trans woven
  rw [Option.some.inj (Except.ok.inj same)]

end

/-! ## Reading the class back -/

/-- What was put in can be written, if it is short. -/
theorem Plan.Inserts.even {p : Plan} {i : Instr} (h : p.Inserts i)
    (short : (Encode.instr i).length < 2 ^ 31) : i.Even := by
  cases h with
  | dispatch some =>
    have targets := Encode.length_vec_ge Encode.length_label_pos p.resumptions
    simp only [Encode.instr, List.length_cons, List.length_append] at short
    have highest := toInt_highest (List.length_pos_iff.2 some) (by omega)
    show (Int32.ofNat p.resumptions.length - 1).toInt - (0 : Int32).toInt + 1 = p.resumptions.length
    rw [highest]
    simp
  | stock stock =>
    cases stock with
    | int n =>
      unfold pushInt
      repeat' split
      all_goals trivial
    | _ => trivial
  | _ => trivial

/-- Suspendable code of moderate size can be written if the code of the method can. -/
theorem Weaving.encodable_result {W : Weaving} (fine : W.method.Encodable)
    (short : (Encode.code W.result.code).length < 2 ^ 31) : W.result.Encodable := by
  refine ⟨fine.name, fine.descriptor, by omega, ?_⟩
  refine Code.encodable_of_length (fun i hi => ?_) (d := W.method.code) rfl fine.code (by omega)
  rcases W.mem_stream hi with ⟨own, -⟩ | put
  · exact (fine.code.each i own).even
  · have := Encode.length_item_le Encode.instr hi
    refine put.even (Nat.lt_of_le_of_lt this ?_)
    have whole : Encode.code W.result.code = _ ++ _ := rfl
    rw [whole, List.length_append] at short
    exact Nat.lt_of_le_of_lt (Nat.le_add_right _ _) short

theorem Method.Becomes.encodable {m m' : Method} (h : m.Becomes className config m') (fine : m.Encodable)
    (short : (Encode.code m'.code).length < 2 ^ 31) : m'.Encodable := by
  by_cases takes : m.TakesPart className config
  · obtain ⟨W, -, rfl, -, rfl⟩ := Weaving.exists_of_transform (h.woven takes)
    exact W.encodable_result fine short
  · rw [h.kept takes]
    exact fine

/-- A class that was made suspendable can be written if the class could. -/
theorem Class.Encodable.of_becomes {c : Class} {methods : List Method} (fine : c.Encodable)
    (each : List.Forall₂ (Method.Becomes className config) c.methods methods)
    (moderate : ({ c with methods } : Class).Moderate) : ({ c with methods } : Class).Encodable := by
  refine ⟨fine.name, fine.superName, fine.interfaces, fine.interface, ?_, fun m' hm' => ?_⟩
  · show methods.length < 2 ^ 32
    exact each.length_eq ▸ fine.methods
  · obtain ⟨j, hj, rfl⟩ := List.mem_iff_getElem.1 hm'
    have becomes := List.forall₂_iff_get.1 each
    have hj' : j < c.methods.length := becomes.1 ▸ hj
    exact (becomes.2 j hj' hj).encodable (fine.method _ (List.getElem_mem hj')) (moderate _ hm')

/-- Making a class suspendable changes nothing but the bodies of its entry methods with sites, and writes
the class so that it is read back as it was made.  It is written anew exactly if it implements the marker
and some entry method has a site. -/
theorem transformClass_entries {bytes : List UInt8} {className : String} {config : Config} {t : Transformed}
    (h : (transformClass bytes className config).result = .ok t) :
    ∃ c, decodeClass bytes = .ok c ∧
      ((∃ out, t = .changed out) ↔ (∀ marker ∈ config.marker, c.implements marker = true) ∧
        ∃ m ∈ c.methods, m.TakesPart c.name config) ∧
      ∀ out, t = .changed out → ∃ c', out = encodeClass c' ∧
        (c'.Moderate → decodeClass out = .ok c') ∧
        c'.access = c.access ∧ c'.name = c.name ∧ c'.superName = c.superName ∧
        c'.interfaces = c.interfaces ∧
        List.Forall₂ (Method.Becomes c.name config) c.methods c'.methods := by
  obtain ⟨c, decoded, -, steps⟩ := transformClass_eq_ok.1 h
  refine ⟨c, decoded, ?_⟩
  rcases steps with ⟨absent, rfl⟩ | ⟨marked, methods, changed, woven, rfl⟩
  · refine ⟨⟨(fun ⟨_, e⟩ => by cases e), fun ⟨marker, _⟩ => ?_⟩, fun _ e => by cases e⟩
    rw [Config.missingMarker?_eq_none.2 marker] at absent
    cases absent
  · obtain ⟨each, any⟩ := transformMethods_eq_ok woven
    have marker := Config.missingMarker?_eq_none.1 marked
    cases changed with
    | false =>
      refine ⟨⟨(fun ⟨_, e⟩ => by cases e), fun ⟨_, takes⟩ => ?_⟩, fun _ e => by cases e⟩
      exact absurd (any.2 takes) Bool.false_ne_true
    | true =>
      refine ⟨⟨fun _ => ⟨marker, any.1 rfl⟩, fun _ => ⟨_, rfl⟩⟩, fun out e => ?_⟩
      cases e
      refine ⟨{ c with methods }, rfl, fun moderate => ?_, rfl, rfl, rfl, rfl, each⟩
      exact decodeClass_encodeClass _ ((encodable_of_decodeClass decoded).of_becomes each moderate)

/-- A method that pauses once. -/
def dozing : Method where
  access := staticFlag
  name := "execute"
  descriptor := "()V"
  maxLocals := 0
  code.instrs := [.pause, .plain (.leave none)]

/-- A method that answers one of the numbers that are none. -/
def rating : Method where
  access := staticFlag
  name := "rate"
  descriptor := "()F"
  maxLocals := 0
  code.instrs := [.fconst 0x7FC00001, .plain (.leave (some .float))]

/-- A class with an entry method that pauses, and with another method. -/
def dozingClass : Class := ⟨0x0021, "app/C", some objectClass, [], [dozing, rating]⟩

/-- The class without interfaces can be written if its methods can. -/
theorem encodable_of_methods {access : UInt16} {methods : List Method} (few : methods.length < 2 ^ 32)
    (each : ∀ m ∈ methods, m.Encodable) : (⟨access, "app/C", some objectClass, [], methods⟩ : Class).Encodable := by
  have name : Short "app/C" := by decide
  have superName : Short objectClass := by decide
  refine ⟨name, ?_, Nat.two_pow_pos 32, by simp, few, each⟩
  rintro n ⟨⟩
  exact superName

theorem dozingClass_encodable : dozingClass.Encodable := by
  have dozes : dozing.Encodable :=
    ⟨by decide, by decide, by decide +kernel, by decide, by
      simp [dozing, Instr.pause, Instr.Encodable]
      exact ⟨by decide, by decide, by decide⟩, by decide, by simp [dozing]⟩
  have rates : rating.Encodable :=
    ⟨by decide, by decide, by decide +kernel, by decide, by simp [rating, Instr.Encodable], by decide,
      by simp [rating]⟩
  exact encodable_of_methods (by decide) (by simp [dozes, rates])

theorem dozing_takesPart : dozing.TakesPart "app/C" {} :=
  ⟨by decide, _, List.mem_cons_self, by decide +kernel⟩

/-- Whatever becomes of the class is short. -/
theorem moderate_of_dozingClass {c : Class}
    (each : List.Forall₂ (Method.Becomes "app/C" {}) dozingClass.methods c.methods) : c.Moderate := by
  intro m hm
  obtain ⟨methods, hmethods⟩ : ∃ methods, c.methods = methods := ⟨_, rfl⟩
  rw [hmethods] at each hm
  obtain ⟨m₁, others₁, dozes, rest, rfl⟩ := List.forall₂_cons_left_iff.1 each
  obtain ⟨m₂, others₂, rates, none, rfl⟩ := List.forall₂_cons_left_iff.1 rest
  obtain rfl := List.forall₂_nil_left_iff.1 none
  have small : (dozing.transform "app/C" {}).result.toOption.join.all
      (fun m => decide ((Encode.code m.code).length < 2 ^ 31)) = true := by decide +kernel
  rw [dozes.woven dozing_takesPart] at small
  rcases List.mem_pair.1 hm with rfl | rfl
  · simpa [Except.toOption] using small
  · rw [rates.kept fun takes => absurd takes.1 (by decide)]
    decide +kernel

theorem dozingClass_entries :
    ∃ c', (transformClass (encodeClass dozingClass) "app.C" {}).result = .ok (.changed (encodeClass c')) ∧
      decodeClass (encodeClass c') = .ok c' ∧
      List.Forall₂ (Method.Becomes "app/C" {}) dozingClass.methods c'.methods := by
  obtain ⟨t, h⟩ := exists_ok (x := (transformClass (encodeClass dozingClass) "app.C" {}).result)
    (by decide +kernel)
  obtain ⟨c, decoded, anew, rest⟩ := transformClass_entries h
  obtain rfl : c = dozingClass :=
    Except.ok.inj (decoded.symm.trans (decodeClass_encodeClass _ dozingClass_encodable))
  obtain ⟨out, rfl⟩ := anew.2 ⟨by simp, dozing, List.mem_cons_self, dozing_takesPart⟩
  obtain ⟨c', rfl, back, -, -, -, -, each⟩ := rest out rfl
  exact ⟨c', h, back (moderate_of_dozingClass each), each⟩

end Suspension
