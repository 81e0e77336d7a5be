import Suspension.Proofs.Transform.Entries

/-!
# Transforming again

A class that was made suspendable has no site left: its sites were taken out, and what was put in calls
nothing but services and the constructors of signals.  So it is left alone when it is met again.

## Main results
* `Plan.Inserts.site?_eq_none`: nothing that is put in is a site.
* `transformMethods_again`: none of the methods of a suspendable class changes again.
* `transformClass_again`: a suspendable class stays as it is.
-/

namespace Suspension

open Container

variable {className : String} {config : Config}

/-- The internal form of a name is its own internal form. -/
theorem internalName_internalName (name : String) : internalName (internalName name) = internalName name := by
  rw [internalName, internalName, String.map_map]
  congr 1
  funext c
  by_cases dot : c = '.' <;> simp [dot]

/-- A call of a service or of the constructor of a signal is no site. -/
theorem Config.classify_eq_none {m : MemberRef} (runtime : m.owner ∈ Service.classes)
    (support : internalName config.supportClass ∉ Service.classes)
    (own : internalName className ∉ Service.classes) : config.classify className m = none := by
  have internal : ∀ c ∈ Service.classes, internalName c = c := by decide +kernel
  have other : config.ownsSites className m.owner = false := by
    rw [ownsSites, internal _ runtime, Bool.or_eq_false_iff]
    exact ⟨beq_eq_false_iff_ne.2 fun e => support (e ▸ runtime),
      beq_eq_false_iff_ne.2 fun e => own (e ▸ runtime)⟩
  simp [classify, other]

/-- Nothing that is put into a method is a site. -/
theorem Plan.Inserts.site?_eq_none {p : Plan} {i : Instr} (h : p.Inserts i)
    (support : internalName config.supportClass ∉ Service.classes)
    (own : internalName className ∉ Service.classes) : config.site? className i = none := by
  have call {kind : InvokeKind} {m : MemberRef} (runtime : m.owner ∈ Service.classes) :
      config.site? className (.invoke kind m) = none := by
    simp [Config.site?, Instr.invocation?, Config.classify_eq_none runtime support own]
  cases h with
  | stock stock =>
    cases stock with
    | vars s => exact call (s.owner_ref ▸ by decide)
    | context s => exact call (s.owner_ref ▸ by decide)
    | int n =>
      unfold pushInt
      repeat' split
      all_goals rfl
    | _ => rfl
  | obtain => exact call (by decide)
  | construct k => exact call (by cases k <;> decide)
  | _ => rfl

/-- Suspendable code has no site. -/
theorem Weaving.site?_eq_none {W : Weaving} (support : internalName W.config.supportClass ∉ Service.classes)
    (own : internalName W.className ∉ Service.classes) :
    ∀ i ∈ W.stream, W.config.site? W.className i = none := fun _ hi =>
  (W.mem_stream hi).elim And.right fun put => put.site?_eq_none support own

/-- A suspendable method can be measured: measuring fails on account of the parameters only, and these are the
same. -/
theorem Weaving.exists_measured (W : Weaving) :
    ∃ metrics, Metrics.measure W.className W.result W.config = .ok metrics := by
  obtain ⟨signature, parsed, rest⟩ := bind_eq_ok.1 W.measured
  obtain ⟨entry, slots, -⟩ := bind_eq_ok.1 rest
  exact ⟨_, bind_eq_ok.2 ⟨signature, parsed, bind_eq_ok.2 ⟨entry, slots, rfl⟩⟩⟩

/-- A suspendable method has nothing to be changed. -/
theorem Weaving.measured_again {W : Weaving} (support : internalName W.config.supportClass ∉ Service.classes)
    (own : internalName W.className ∉ Service.classes) :
    ∃ metrics, Metrics.measure W.className W.result W.config = .ok metrics ∧
      metrics.needsWeaving = false := by
  obtain ⟨metrics, measured⟩ := W.exists_measured
  refine ⟨metrics, measured, Bool.eq_false_iff.2 fun needed => ?_⟩
  obtain ⟨i, hi, site⟩ := (Metrics.needsWeaving_iff measured).1 needed
  rw [W.site?_eq_none support own i hi] at site
  cases site

/-- What became of an accepted method is accepted again, and stays as it is. -/
theorem Method.entered_again {m : Method} {result : Option Method}
    (support : internalName config.supportClass ∉ Service.classes)
    (own : internalName className ∉ Service.classes) (h : m.entered className config = .ok result) :
    (result.getD m).entered className config = .ok none := by
  cases result with
  | none => exact h
  | some m' =>
    unfold entered at h
    split at h
    · next entry =>
      obtain ⟨W, rfl, rfl, rfl, rfl⟩ := Weaving.exists_of_transform h
      obtain ⟨metrics, measured, idle⟩ := W.measured_again support own
      show (if W.config.isEntry W.method.name W.method.descriptor then _ else _) = _
      rw [if_pos entry]
      exact transform_of_idle measured idle
    · cases h

/-- None of the methods of a suspendable class changes again. -/
theorem transformMethods_again {methods methods' : List Method} {changed : Bool}
    (support : internalName config.supportClass ∉ Service.classes)
    (own : internalName className ∉ Service.classes)
    (h : (transformMethods className config methods).result = .ok (methods', changed)) :
    (transformMethods className config methods').result = .ok (methods', false) := by
  induction methods generalizing methods' changed with
  | nil =>
    cases h
    rfl
  | cons m rest ih =>
    rw [transformMethods_cons] at h
    obtain ⟨result, entered, h⟩ := bind_eq_ok.1 h
    obtain ⟨⟨others, changed'⟩, more, h⟩ := bind_eq_ok.1 h
    cases h
    rw [transformMethods_cons, Method.entered_again support own entered, ih more]
    rfl

/-- A class that was made suspendable is left alone when it is met again: no entry method of it calls a method
that is a site. -/
theorem transformClass_again {bytes out : List UInt8} {className : String} {config : Config}
    (h : (transformClass bytes className config).result = .ok (.changed out))
    (support : internalName config.supportClass ∉ Service.classes)
    (own : internalName className ∉ Service.classes) :
    ∃ c c', decodeClass bytes = .ok c ∧ out = encodeClass c' ∧
      List.Forall₂ (Method.Becomes c.name config) c.methods c'.methods ∧
      (∀ m ∈ c'.methods, config.isEntry m.name m.descriptor = true →
        ∀ kind ref, .invoke kind ref ∈ m.code.instrs → config.classify c'.name ref = none) ∧
      (c'.Moderate → (transformClass out className config).result = .ok .unchanged) := by
  obtain ⟨c, decoded, named, steps⟩ := transformClass_eq_ok.1 h
  rcases steps with ⟨-, e⟩ | ⟨marked, methods, changed, woven, e⟩
  · cases e
  · cases changed with
    | false => cases e
    | true =>
      cases e
      obtain ⟨each, -⟩ := transformMethods_eq_ok woven
      have own' : internalName c.name ∉ Service.classes := by rwa [named, internalName_internalName]
      have again := transformMethods_again support own' woven
      refine ⟨c, { c with methods }, decoded, rfl, each, fun m hm entry kind ref call => ?_, fun moderate => ?_⟩
      · obtain ⟨-, any⟩ := transformMethods_eq_ok again
        cases site : config.classify c.name ref with
        | none => rfl
        | some sort =>
          refine absurd (any.2 ⟨m, hm, entry, _, call, ?_⟩) Bool.false_ne_true
          simp [Config.site?, Instr.invocation?, site]
      · have back := decodeClass_encodeClass _ ((encodable_of_decodeClass decoded).of_becomes each moderate)
        exact transformClass_eq_ok.2 ⟨_, back, named, .inr ⟨marked, methods, false, again, rfl⟩⟩

theorem dozingClass_again :
    ∃ out, (transformClass (encodeClass dozingClass) "app.C" {}).result = .ok (.changed out) ∧
      (transformClass out "app.C" {}).result = .ok .unchanged := by
  obtain ⟨out, h⟩ : ∃ out, (transformClass (encodeClass dozingClass) "app.C" {}).result = .ok (.changed out) := by
    have anew : ((transformClass (encodeClass dozingClass) "app.C" {}).result.toOption.any
        (· ≠ .unchanged)) = true := by decide +kernel
    obtain ⟨t, some, changed⟩ := (Option.any_eq_true ..).1 anew
    cases t with
    | unchanged => simp at changed
    | changed out => exact ⟨out, eq_ok_of_toOption some⟩
  obtain ⟨c, c', decoded, rfl, each, -, again⟩ := transformClass_again h (by decide +kernel) (by decide +kernel)
  obtain rfl : c = dozingClass :=
    Except.ok.inj (decoded.symm.trans (decodeClass_encodeClass _ dozingClass_encodable))
  exact ⟨_, h, again (moderate_of_dozingClass each)⟩

end Suspension
