import Suspension.Proofs.Weave.Linked
import Suspension.Proofs.Weave.Numbering

/-!
# The labels of suspendable code fit together

Labels are drawn from a counter that starts above everything the method mentions: what it defines, what it goes
to, and the bounds of its regions.  One label is drawn for the start, one for each site, and the last one is kept
for the first handler that needs it.  As long as the counter has room for these, whatever the code holds, no label
is defined twice, none is missing, and the labels of the method stand between the instructions between which they
stood.

## Main definitions
* `Weaving.LabelsFit`: how the labels of suspendable code fit together.

## Main results
* `fails_labelled`: the counter does not run out.
* `Weaving.mem_definedLabels_of_mentions`: every label that suspendable code mentions is defined.
* `Weaving.filter_not_added`: the labels of the method keep their order.
* `labels_fit`: all of it, for every method for whose labels there is room.
-/

namespace Suspension

variable {className : String} {method : Method} {config : Config}

/-! ## There is room for the labels -/

/-- The counter does not run out: a label is left for the start, for each site and for the rethrow. -/
theorem fails_labelled
    (room : method.firstFresh + (method.code.instrs.countP (config.suspends className) + 1) + 1 < 2 ^ 32) :
    Fails (fun e => ∀ name title, e ≠ .weave name title .labelsExhausted)
      (method.transform className config).result := by
  apply fails_transform
  · exact .of_forall nofun
  · intro metrics measured
    exact .of_forall nofun
  · intro metrics shape measured shaped
    refine fails_woven ?_ ?_ measured shaped
    · intro e other name title same
      cases same
      exact other
    · intro offset le
      rw [Metrics.siteCount_eq measured] at le
      exact Plan.fails_freshLabel fun large => absurd large (by omega)

namespace Weaving

variable {W : Weaving}

theorem exists_rethrow (room : W.method.firstFresh + (W.places.length + 1) + 1 < 2 ^ 32) :
    ∃ l, W.plan.rethrow = .ok l ∧ W.added = W.plan.start :: (W.plan.resumptions ++ [l]) := by
  rw [← length_places, length_resumptions] at room
  have drawn : W.plan.rethrow = .ok _ := W.made.rethrow.trans (if_pos room)
  exact ⟨_, drawn, by rw [added, drawn]; rfl⟩

/-! ## No label is missing -/

/-- Every label that suspendable code mentions is defined there. -/
theorem mem_definedLabels_of_mentions {l : Label} (h : W.result.code.Mentions l) :
    l ∈ definedLabels W.result.code.instrs := by
  rcases h with ⟨ins, hi, hl | hl⟩ | ⟨r, hr, own⟩
  · exact mem_definedLabels_of_targets hi hl
  · obtain rfl := defined?_eq_some.1 hl
    exact mem_definedLabels.2 hi
  · obtain ⟨g, hg⟩ := W.exists_graph
    obtain ⟨start, stop, handler⟩ := Graph.mem_of_build hg hr
    refine mem_definedLabels_of_original ?_
    rcases own with rfl | rfl | rfl <;> assumption

/-- No added label occurs in the method. -/
theorem not_mentions_of_added {l : Label} (h : l ∈ W.added) : ¬ W.method.code.Mentions l := by
  intro mentioned
  have above := firstFresh_le_of_added h
  have below := Method.lt_firstFresh_of_mentions mentioned
  omega

/-! ## The labels of the method -/

/-- Without the added labels, those of suspendable code are those of the method, each once and in their order. -/
theorem filter_not_added :
    (definedLabels W.result.code.instrs).filter (fun l => decide (l ∉ W.added)) =
      definedLabels W.method.code.instrs := by
  rw [← filter_original]
  apply List.filter_congr
  intro l hl
  apply decide_eq_decide.2
  constructor
  · intro fresh
    apply Nat.lt_of_not_le
    intro above
    have added : l ∈ W.added := filter_added.subset (List.mem_filter.2 ⟨hl, by simpa using above⟩)
    exact fresh added
  · intro below added
    have above := firstFresh_le_of_added added
    omega

/-- How the labels of suspendable code fit together.  The added ones are the start, a resumption for each site and
the common rethrow, of which none occurs in the method. -/
structure LabelsFit (W : Weaving) : Prop where
  once : (definedLabels W.result.code.instrs).Nodup
  defined : ∀ l, W.result.code.Mentions l → l ∈ definedLabels W.result.code.instrs
  resumptions : W.plan.resumptions.length = W.places.length
  rethrow : ∃ l, W.plan.rethrow = .ok l ∧ W.added = W.plan.start :: (W.plan.resumptions ++ [l])
  apart : W.added.Nodup
  numbers : W.added.map UInt32.toNat = (List.range (W.places.length + 2)).map (W.method.firstFresh + ·)
  fresh : ∀ l ∈ W.added, ¬ W.method.code.Mentions l
  dispatch : W.places ≠ [] →
    W.plan.obtaining ++ [W.plan.loadContext, callService Service.getLabel,
      .tableSwitch 0 (Int32.ofNat W.plan.resumptions.length - 1) W.plan.start W.plan.resumptions] <+:
        W.result.code.instrs ∧
    (Int32.ofNat W.plan.resumptions.length - 1).toInt - (0 : Int32).toInt + 1 = W.places.length
  originals : (definedLabels W.result.code.instrs).filter (fun l => decide (l ∉ W.added)) =
    definedLabels W.method.code.instrs
  composed : ∃ opening mirrored, W.Composed opening mirrored

theorem labelsFit (few : W.places.length < 2 ^ 31)
    (room : W.method.firstFresh + (W.places.length + 1) + 1 < 2 ^ 32) : W.LabelsFit where
  once := nodup_definedLabels
  defined l := mem_definedLabels_of_mentions
  resumptions := length_places
  rethrow := exists_rethrow room
  apart := nodup_added
  numbers := by
    obtain ⟨l, -, all⟩ := exists_rethrow room
    have length : W.added.length = W.places.length + 2 := by
      rw [all, ← length_places]
      simp
    refine List.ext_getElem (by simp [length]) fun k hk hk' => ?_
    rw [List.getElem_map, List.getElem_map, List.getElem_range]
    exact toNat_added (List.getElem?_eq_getElem _)
  fresh l := not_mentions_of_added
  dispatch some := by
    constructor
    · exact dispatch_prefix some
    · have first : 0 < W.places.length := List.length_pos_iff.2 some
      rw [length_places, Plan.toInt_highest first few]
      change (W.places.length : Int) - 1 - 0 + 1 = W.places.length
      omega
  originals := filter_not_added
  composed := W.composed

end Weaving

/-- The labels of a method and those that are added to it fit together, as long as there is room above the highest
label for the start, the sites and the rethrow.  Then the counter does not run out.  Every label of a suspendable
method is defined once, and every label that its code, or its table of regions, refers to is defined; no added
label is another one or occurs in the method.  The dispatch has one target for each site.  The labels of the method
are defined in their order, and each instruction between them is kept, with insertions around it, unless it is a
site that is replaced. -/
theorem labels_fit (className : String) (method : Method) (config : Config)
    (few : (config.suspensions className 0 method.code.instrs).length < 2 ^ 31)
    (room : ∀ highest, method.code.maxLabel = some highest →
      highest.toNat + 2 + (config.suspensions className 0 method.code.instrs).length + 1 ≤ 2 ^ 32 - 1) :
    (∀ e, (method.transform className config).result = .error e →
      ∀ name title, e ≠ .weave name title .labelsExhausted) ∧
    ∀ result, (method.transform className config).result = .ok (some result) →
      ∃ W : Weaving, W.className = className ∧ W.method = method ∧ W.config = config ∧ W.result = result ∧
        W.LabelsFit := by
  have enough : method.firstFresh + ((config.suspensions className 0 method.code.instrs).length + 1) + 1 < 2 ^ 32 := by
    unfold Method.firstFresh
    split
    · next highest at_top =>
      have := room highest at_top
      omega
    · omega
  refine ⟨fails_labelled ?_, fun result transformed => ?_⟩
  · rwa [Config.length_suspensions] at enough
  · obtain ⟨W, rfl, rfl, rfl, rfl⟩ := Weaving.exists_of_transform transformed
    exact ⟨W, rfl, rfl, rfl, rfl, Weaving.labelsFit few enough⟩

/-- Pauses where its exceptions are caught, and steps back where it has caught one; its labels are numbered as they
come, and there is a site where control never comes. -/
def sheltering : Method where
  access := staticFlag
  name := "execute"
  descriptor := "()V"
  maxLocals := 0
  code.instrs := [.label 40, .pause, .label 9, .plain (.leave none), .label 700, .plain (.shuffle .pop),
    .stepBack, .plain (.leave none), .pause, .plain (.leave none)]
  code.regions := [⟨40, 9, 700, none⟩]

/-- The start and the rethrow of the method are numbered 701 and 705, with three resumptions between them. -/
theorem sheltering_fits :
    ∃ (result : Method) (W : Weaving), (sheltering.transform "app/C" {}).result = .ok (some result) ∧
      W.result = result ∧ W.LabelsFit ∧
      definedLabels result.code.instrs = [701, 40, 702, 9, 700, 703, 704, 705] := by
  have sites : (({} : Config).suspensions "app/C" 0 sheltering.code.instrs).length = 3 := by decide +kernel
  have highest : sheltering.code.maxLabel = some 700 := by decide +kernel
  have labels : ((sheltering.transform "app/C" {}).result.toOption.bind id).map (definedLabels ·.code.instrs) =
      some [701, 40, 702, 9, 700, 703, 704, 705] := by
    decide +kernel
  obtain ⟨result, transformed⟩ : ∃ result, (sheltering.transform "app/C" {}).result = .ok (some result) :=
    exists_ok_some (by rw [← Option.isSome_map, labels]; rfl)
  rw [transformed] at labels
  obtain ⟨-, emitted⟩ := labels_fit "app/C" sheltering {} (by rw [sites]; decide) fun top at_top => by
    rw [sites, ← Option.some.inj (highest.symm.trans at_top)]
    decide
  obtain ⟨W, -, -, -, same, fit⟩ := emitted result transformed
  exact ⟨result, W, transformed, same, fit, Option.some.inj labels⟩

end Suspension
