import Suspension.Proofs.Weave.Stock

/-!
# Labels of suspendable code

The labels that are added to a method are above all of its own, and no two of them are the same, so every
label of suspendable code stands for one place.

## Main definitions
* `Instr.Serves`: instructions that define no label and call nothing but services.
* `Code.Mentions`: the labels that occur in code.
* `Weaving.added`: the labels that may be added.
* `Weaving.Suspends`: a suspension site with the code that it became.

## Main results
* `Plan.toNat_of_freshLabel`, `Plan.toNat_resumption`: the added labels.
* `Weaving.nodup_definedLabels`, `Weaving.target_eq`: the labels of suspendable code.
* `Weaving.target_label`: where the labels of the method are.
* `Weaving.exists_of_resumption`: every label of the dispatch belongs to a site.
-/

namespace Suspension

/-- An instruction that defines no label and calls nothing but services. -/
def Instr.Serves : Instr → Prop
  | .label _ => False
  | .invoke _ m => m.owner = Service.contextClass ∨ m.owner = Service.storeClass
  | .invokeDynamic .. => False
  | _ => True

/-! ## The added labels -/

theorem nodup_of_filter {α : Type} {l : List α} (p : α → Bool) (h : (l.filter p).Nodup)
    (h' : (l.filter fun a => !p a).Nodup) : l.Nodup := by
  induction l with
  | nil => exact List.nodup_nil
  | cons a l ih =>
    rw [List.filter_cons] at h h'
    cases hp : p a <;> simp [hp] at h h' <;>
      exact List.nodup_cons.2 ⟨by simp_all, ih (by simp_all) (by simp_all)⟩

/-- The number of the first label that can be added to a method. -/
def Method.firstFresh (m : Method) : Nat :=
  match m.code.maxLabel with
  | some l => l.toNat + 1
  | none => 0

theorem le_foldl_max (labels : List Label) (l : Label) :
    l ≤ labels.foldl max l ∧ ∀ x ∈ labels, x ≤ labels.foldl max l := by
  have max_eq (a b : Label) : max a b = if a ≤ b then b else a := rfl
  induction labels generalizing l with
  | nil => simp
  | cons y rest ih =>
    obtain ⟨first, others⟩ := ih (max l y)
    have both : l ≤ max l y ∧ y ≤ max l y := by
      rw [max_eq]
      simp only [UInt32.le_iff_toNat_le]
      split <;> omega
    refine ⟨UInt32.le_trans both.1 first, fun x hx => ?_⟩
    rcases List.mem_cons.1 hx with rfl | hx
    · exact UInt32.le_trans both.2 first
    · exact others x hx

theorem le_of_max? {labels : List Label} {l top : Label} (h : labels.max? = some top)
    (hl : l ∈ labels) : l ≤ top := by
  cases labels with
  | nil => cases hl
  | cons y rest =>
    obtain rfl : rest.foldl max y = top := by simpa [List.max?] using h
    rcases List.mem_cons.1 hl with rfl | hl
    · exact (le_foldl_max rest l).1
    · exact (le_foldl_max rest y).2 l hl

/-- A label that code defines, goes to, or bounds or handles a region by. -/
def Code.Mentions (c : Code) (l : Label) : Prop :=
  (∃ i ∈ c.instrs, l ∈ i.targets ∨ i.defined? = some l) ∨
    ∃ r ∈ c.regions, l = r.start ∨ l = r.stop ∨ l = r.handler

/-- The labels that a method mentions are below those that can be added to it. -/
theorem Method.lt_firstFresh_of_mentions {m : Method} {l : Label} (h : m.code.Mentions l) :
    l.toNat < m.firstFresh := by
  have mem : l ∈ m.code.instrs.flatMap (fun i => i.targets ++ i.defined?.toList) ++
      m.code.regions.flatMap fun r => [r.start, r.stop, r.handler] := by
    rcases h with ⟨i, hi, own⟩ | ⟨r, hr, own⟩
    · exact List.mem_append_left _ (List.mem_flatMap.2 ⟨i, hi, by simpa using own⟩)
    · exact List.mem_append_right _ (List.mem_flatMap.2 ⟨r, hr, by simpa using own⟩)
  unfold firstFresh Code.maxLabel
  split
  · next top htop =>
    have : l ≤ top := le_of_max? htop mem
    exact Nat.lt_succ_of_le (UInt32.le_iff_toNat_le.1 this)
  · next none =>
    rw [List.max?_eq_none_iff] at none
    rw [none] at mem
    cases mem

theorem Method.lt_firstFresh {m : Method} {l : Label} (h : l ∈ definedLabels m.code.instrs) :
    l.toNat < m.firstFresh :=
  lt_firstFresh_of_mentions (.inl ⟨_, mem_definedLabels.1 h, .inr rfl⟩)

namespace Plan

theorem toNat_of_freshLabel {m : Method} {offset : Nat} {l : Label}
    (h : freshLabel m offset = .ok l) : l.toNat = m.firstFresh + offset := by
  change (if m.firstFresh + offset + 1 < 4294967296 then
    Except.ok (UInt32.ofNat (m.firstFresh + offset)) else .error WeaveError.labelsExhausted) =
      .ok l at h
  split at h
  · next small =>
    cases h
    rw [UInt32.toNat_ofNat_of_lt' (by simp [UInt32.size]; omega)]
  · cases h

variable {p : Plan}

/-! ## The instructions of the parts -/

theorem definedLabels_of_serves {code : List Instr} (h : ∀ i ∈ code, i.Serves) :
    definedLabels code = [] := by
  refine List.filterMap_eq_nil_iff.2 fun i hi => ?_
  have := h i hi
  cases i <;> first | rfl | cases this

end Plan

/-- What saves a flow or fetches it back defines no label and calls nothing but services. -/
theorem Instr.Stock.serves {i : Instr} (h : i.Stock) : i.Serves := by
  cases h with
  | load k s => trivial
  | store k s => trivial
  | int n =>
    unfold pushInt
    repeat' split
    all_goals trivial
  | vars s => exact .inr s.owner_ref
  | context s => exact .inl s.owner_ref
  | cast c => trivial

namespace Plan

variable {p : Plan}

theorem definedLabels_of_stock {code : List Instr} (h : ∀ i ∈ code, i.Stock) :
    definedLabels code = [] :=
  definedLabels_of_serves fun i hi => (h i hi).serves

theorem serves_obtaining : ∀ i ∈ p.obtaining, i.Serves := by
  simp only [obtaining, List.mem_cons, List.not_mem_nil, or_false]
  rintro i (rfl | rfl | rfl)
  · unfold loadReceiver
    split <;> trivial
  · exact .inl rfl
  · trivial

theorem serves_dispatch : ∀ i ∈ p.dispatch, i.Serves := by
  unfold dispatch
  split
  · simp
  · simp only [List.mem_cons, List.not_mem_nil, or_false]
    rintro i (rfl | rfl | rfl)
    · trivial
    · exact (Instr.Stock.context .getLabel).serves
    · trivial

/-! ## The labels of the parts -/

@[simp] theorem defined?_pushInt (n : Int32) : (pushInt n).defined? = none := by
  have := (Instr.Stock.int n).serves
  cases h : pushInt n <;> first | rfl | simp [h, Instr.Serves] at this

theorem definedLabels_cons {i : Instr} (h : i.defined? = none) (rest : List Instr) :
    definedLabels (i :: rest) = definedLabels rest := by
  simp [definedLabels, h]

theorem definedLabels_throwSignal (kind : SiteKind) (payload : Option Slot) :
    definedLabels (p.throwSignal kind payload) = [] := by
  cases payload <;> rfl

theorem definedLabels_dropReceiver (kind : InvokeKind) : definedLabels (dropReceiver kind) = [] := by
  cases kind <;> rfl

/-- The code of a suspension site defines the label at which it is resumed. -/
theorem definedLabels_suspend {site : Nat} {kind : InvokeKind} {sort : SiteKind} {code : List Instr}
    (h : p.suspend site kind sort = .ok code) :
    ∃ l, p.resumptions[site]? = some l ∧ definedLabels code = [l] := by
  obtain ⟨s, rfl⟩ := suspend_eq_ok h
  refine ⟨s.resumption, s.resumption_eq, ?_⟩
  have saving : definedLabels (p.saving site kind sort s.saved) = [] := by
    simp only [Plan.saving, definedLabels_append, definedLabels_dropReceiver,
      definedLabels_of_stock (stock_saveStack s.saved_eq)]
    split <;> simp [definedLabels, loadContext, callService]
  simp only [SiteCode.code, SiteCode.leaving, definedLabels_append, definedLabels_label, saving,
    definedLabels_throwSignal, definedLabels_of_stock s.stock_returning]
  rfl

theorem definedLabels_answer {kind : InvokeKind} {m : MemberRef} {code : List Instr}
    (h : p.answer kind m = .ok code) : definedLabels code = [] := by
  obtain ⟨s, -, h⟩ := bind_eq_ok.1 h
  cases h
  rw [definedLabels_append, definedLabels_append, definedLabels_append, definedLabels_dropReceiver,
    definedLabels_throwSignal]
  split <;> rfl

/-- The code of an instruction defines the label that the instruction defines, or the label at which the site is
resumed.  Labels of the method are kept, and only a site adds one. -/
theorem definedLabels_instr {place site : Nat} {i : Instr} {code : List Instr} {isSite : Bool}
    (h : p.instr place site i = .ok (code, isSite)) :
    definedLabels code =
      i.defined?.toList ++ if isSite then p.resumptions[site]?.toList else [] := by
  unfold instr at h
  split at h
  · next l =>
    split at h
    · obtain ⟨check, hcheck, h⟩ := bind_eq_ok.1 h
      cases h
      obtain ⟨r, -, hcheck⟩ := bind_eq_ok.1 hcheck
      cases hcheck
      rfl
    · cases h
      rfl
  · next notLabel =>
    have none : i.defined? = none := by
      cases hd : i.defined? with
      | none => rfl
      | some l => exact absurd (defined?_eq_some.1 hd) (notLabel l)
    split at h
    · cases h
      simp [definedLabels, none, deregister, loadContext, callService]
    · split at h
      · obtain ⟨code, hcode, h⟩ := bind_eq_ok.1 h
        cases h
        simp [none, definedLabels_answer hcode]
      · obtain ⟨code, hcode, h⟩ := bind_eq_ok.1 h
        cases h
        obtain ⟨l, hl, hlabels⟩ := definedLabels_suspend hcode
        simp [none, hl, hlabels]
      · obtain ⟨code, hcode, h⟩ := bind_eq_ok.1 h
        cases h
        simp [definedLabels_cons none, definedLabels_of_stock (stock_record _),
          definedLabels_of_stock (stock_retype hcode), none]

theorem definedLabels_prologue {front : List Instr} (h : p.prologue = .ok front) :
    definedLabels front = [p.start] := by
  obtain ⟨s, -, -, rfl⟩ := prologue_eq_ok h
  simp [definedLabels_of_serves serves_dispatch, definedLabels_of_serves serves_obtaining,
    definedLabels_of_stock (stock_recordParams _ _)]

theorem definedLabels_epilogue :
    (definedLabels p.epilogue).Sublist p.rethrow.toOption.toList := by
  unfold epilogue
  split
  · cases p.rethrow with
    | ok l => exact List.Sublist.refl _
    | error e => exact List.Sublist.refl _
  · exact List.nil_sublist _

/-! ## No label is defined twice -/

/-- The labels below all added ones are those of the method. -/
theorem old_labels {place site first : Nat} {instrs : List Instr} {l : List (List Instr)}
    (h : p.pieces place site instrs = .ok l)
    (old : ∀ x ∈ definedLabels instrs, x.toNat < first)
    (new : ∀ x ∈ p.resumptions, first ≤ x.toNat) :
    (definedLabels l.flatten).filter (fun x => decide (x.toNat < first)) = definedLabels instrs := by
  induction instrs generalizing place site l with
  | nil =>
    cases h
    rfl
  | cons i rest ih =>
    obtain ⟨⟨code, isSite⟩, hcode, h⟩ := bind_eq_ok.1 h
    obtain ⟨more, hmore, h⟩ := bind_eq_ok.1 h
    cases h
    have old' : ∀ x ∈ definedLabels rest, x.toNat < first := fun x hx =>
      old x (by simp only [mem_definedLabels] at hx ⊢; simp [hx])
    rw [List.flatten_cons, definedLabels_append, List.filter_append, ih hmore old',
      definedLabels_instr hcode, List.filter_append]
    have own : i.defined?.toList.filter (fun x => decide (x.toNat < first)) = i.defined?.toList := by
      refine List.filter_eq_self.2 fun x hx => decide_eq_true (old x ?_)
      have : i = .label x := defined?_eq_some.1 (by simpa using hx)
      simp [this]
    have added : (if isSite then p.resumptions[site]?.toList else []).filter
        (fun x => decide (x.toNat < first)) = [] := by
      refine List.filter_eq_nil_iff.2 fun x hx => ?_
      split at hx
      · have := new x (List.mem_of_getElem? (by simpa using hx))
        simpa using this
      · cases hx
    rw [own, added, List.append_nil]
    cases hd : i.defined? <;> simp [definedLabels, hd]

/-- The added labels of the pieces are resumption labels in their order.  A site takes the next one; every other
instruction takes none. -/
theorem new_labels {place site first : Nat} {instrs : List Instr} {l : List (List Instr)}
    (h : p.pieces place site instrs = .ok l)
    (old : ∀ x ∈ definedLabels instrs, x.toNat < first) :
    ((definedLabels l.flatten).filter fun x => !decide (x.toNat < first)).Sublist
      (p.resumptions.drop site) := by
  induction instrs generalizing place site l with
  | nil =>
    cases h
    exact List.nil_sublist _
  | cons i rest ih =>
    obtain ⟨⟨code, isSite⟩, hcode, h⟩ := bind_eq_ok.1 h
    obtain ⟨more, hmore, h⟩ := bind_eq_ok.1 h
    cases h
    have old' : ∀ x ∈ definedLabels rest, x.toNat < first := fun x hx =>
      old x (by simp only [mem_definedLabels] at hx ⊢; simp [hx])
    rw [List.flatten_cons, definedLabels_append, List.filter_append, definedLabels_instr hcode,
      List.filter_append]
    have own : i.defined?.toList.filter (fun x => !decide (x.toNat < first)) = [] := by
      refine List.filter_eq_nil_iff.2 fun x hx => ?_
      have : i = .label x := defined?_eq_some.1 (by simpa using hx)
      simpa using old x (by simp [this])
    rw [own, List.nil_append]
    have tail := ih hmore old'
    cases isSite with
    | false => simpa using tail
    | true =>
      cases hr : p.resumptions[site]? with
      | none =>
        have := List.getElem?_eq_none_iff.1 hr
        simp only [List.drop_eq_nil_of_le (show p.resumptions.length ≤ site + 1 by omega),
          if_true] at tail
        simp [List.eq_nil_of_sublist_nil tail]
      | some x =>
        obtain ⟨hlt, hx⟩ := List.getElem?_eq_some_iff.1 hr
        rw [List.drop_eq_getElem_cons hlt, hx]
        simp only [if_true, Option.toList_some] at tail ⊢
        exact (List.filter_sublist).append tail

end Plan

namespace Weaving

variable {W : Weaving}

theorem toNat_start : W.plan.start.toNat = W.method.firstFresh :=
  Plan.toNat_of_freshLabel W.made.start

theorem length_resumptions : W.plan.resumptions.length = W.metrics.siteCount := by
  simpa using (mapM_eq_ok.1 W.made.resumptions).1

theorem toNat_resumption {k : Nat} {l : Label} (h : W.plan.resumptions[k]? = some l) :
    l.toNat = W.method.firstFresh + (k + 1) := by
  obtain ⟨hlt, rfl⟩ := List.getElem?_eq_some_iff.1 h
  have hk : k < (List.range W.metrics.siteCount).length := by
    rw [List.length_range, ← length_resumptions]
    exact hlt
  have := (mapM_eq_ok.1 W.made.resumptions).2 k hk hlt
  rw [List.getElem_range] at this
  exact Plan.toNat_of_freshLabel this

theorem toNat_rethrow {l : Label} (h : W.plan.rethrow = .ok l) :
    l.toNat = W.method.firstFresh + (W.metrics.siteCount + 1) := by
  rw [W.made.rethrow] at h
  exact Plan.toNat_of_freshLabel h

/-- The labels that may be added. -/
def added (W : Weaving) : List Label := W.plan.start :: (W.plan.resumptions ++ W.plan.rethrow.toOption.toList)

/-- The added labels are numbered on from those of the method.  The start comes first, then the resumptions in
order, and the rethrow last. -/
theorem toNat_added {k : Nat} {l : Label} (h : W.added[k]? = some l) : l.toNat = W.method.firstFresh + k := by
  cases k with
  | zero =>
    obtain rfl := Option.some.inj h
    exact toNat_start
  | succ k =>
    rw [added, List.getElem?_cons_succ] at h
    by_cases inside : k < W.plan.resumptions.length
    · rw [List.getElem?_append_left inside] at h
      exact toNat_resumption h
    · rw [List.getElem?_append_right (Nat.le_of_not_lt inside)] at h
      cases hr : W.plan.rethrow with
      | error e =>
        rw [hr] at h
        cases h
      | ok r =>
        rw [hr] at h
        obtain ⟨last, rfl⟩ := List.getElem?_eq_some_iff.1 h
        have last : k - W.plan.resumptions.length < 1 := last
        have only : k = W.metrics.siteCount := by
          rw [← length_resumptions]
          omega
        subst only
        simp only [Except.toOption, Option.toList_some, List.getElem_singleton]
        exact toNat_rethrow hr

theorem firstFresh_le_of_added {l : Label} (h : l ∈ W.added) : W.method.firstFresh ≤ l.toNat := by
  obtain ⟨k, hk⟩ := List.mem_iff_getElem?.1 h
  have := toNat_added hk
  omega

/-- The added labels are different from each other. -/
theorem nodup_added : W.added.Nodup := by
  refine List.nodup_iff_pairwise_ne.2 (List.pairwise_iff_getElem.2 fun i j hi hj lt same => ?_)
  have first := toNat_added (List.getElem?_eq_getElem hi)
  have second := toNat_added (List.getElem?_eq_getElem hj)
  rw [same] at first
  omega

/-- The labels of suspendable code below all added ones are those of the method, in their order.  The front and
the end define added labels only. -/
theorem filter_original :
    (definedLabels W.stream).filter (fun x => decide (x.toNat < W.method.firstFresh)) = definedLabels W.instrs := by
  have old (x : Label) (hx : x ∈ definedLabels W.instrs) : x.toNat < W.method.firstFresh := Method.lt_firstFresh hx
  have new (x : Label) (hx : x ∈ W.plan.resumptions) : W.method.firstFresh ≤ x.toNat :=
    firstFresh_le_of_added (List.mem_cons_of_mem _ (List.mem_append_left _ hx))
  have start : ¬ W.plan.start.toNat < W.method.firstFresh := Nat.not_lt.2 (Nat.le_of_eq toNat_start.symm)
  have last : (definedLabels W.plan.epilogue).filter (fun x => decide (x.toNat < W.method.firstFresh)) = [] := by
    refine List.filter_eq_nil_iff.2 fun x hx => ?_
    have above := firstFresh_le_of_added (W := W)
      (List.mem_cons_of_mem _ (List.mem_append_right _ (Plan.definedLabels_epilogue.subset hx)))
    simpa using above
  rw [stream, definedLabels_append, definedLabels_append, Plan.definedLabels_prologue W.opened]
  simp only [List.filter_append, Plan.old_labels W.cut old new, last, List.append_nil]
  simp [start]

/-- The other labels of suspendable code are added ones, in their order. -/
theorem filter_added :
    ((definedLabels W.stream).filter fun x => !decide (x.toNat < W.method.firstFresh)).Sublist W.added := by
  have start : ¬ W.plan.start.toNat < W.method.firstFresh := Nat.not_lt.2 (Nat.le_of_eq toNat_start.symm)
  have pieces := Plan.new_labels W.cut fun x hx => Method.lt_firstFresh hx
  have epilogue : ((definedLabels W.plan.epilogue).filter fun x =>
      !decide (x.toNat < W.method.firstFresh)).Sublist W.plan.rethrow.toOption.toList :=
    List.filter_sublist.trans Plan.definedLabels_epilogue
  rw [List.drop_zero] at pieces
  rw [stream, definedLabels_append, definedLabels_append, Plan.definedLabels_prologue W.opened]
  simpa [added, start, List.filter_append] using pieces.append epilogue

/-- No label of suspendable code is defined twice. -/
theorem nodup_definedLabels : (definedLabels W.stream).Nodup := by
  obtain ⟨g, hg⟩ := W.exists_graph
  refine nodup_of_filter (fun x => decide (x.toNat < W.method.firstFresh)) ?_ ?_
  · rw [filter_original]
    exact Graph.nodup_of_build hg
  · exact nodup_added.sublist filter_added

/-- A label of suspendable code stands for the place where it is defined. -/
theorem target?_eq {q : Nat} {l : Label} (hq : W.stream[q]? = some (.label l)) :
    W.result.code.target? l = some q :=
  (lastDefinition_eq_some nodup_definedLabels hq 0).trans (by rw [Nat.zero_add])

theorem target_eq {f : Frame} (hm : f.method = W.result) {q : Nat} {l : Label}
    (hq : W.stream[q]? = some (.label l)) : f.target l = .ok q := by
  rw [Frame.target, hm, target?_eq hq]

/-- The labels of the method stand for the pieces of their definitions. -/
theorem target_label {f : Frame} (hm : f.method = W.result) {i : Nat} {l : Label}
    (hi : W.instrs[i]? = some (.label l)) : f.target l = .ok (W.placeOf i) :=
  by
  obtain ⟨check, hp⟩ := exists_piece_label hi
  exact target_eq hm (getElem?_placeOf_add (k := 0) (by simp [hp]))

end Weaving

/-! ## Suspension sites -/

theorem Metrics.countP_sites (className : String) (config : Config) (instrs : List Instr) :
    (sites className config instrs).countP SiteKind.suspends =
      instrs.countP (config.suspends className) := by
  unfold sites
  induction instrs with
  | nil => rfl
  | cons i rest ih =>
    rw [List.countP_cons, List.filterMap_cons, ← ih]
    unfold Config.suspends
    cases config.site? className i <;> simp [List.countP_cons]

/-- The sites at which a flow is resumed are counted. -/
theorem Metrics.siteCount_eq {className : String} {method : Method} {config : Config} {m : Metrics}
    (h : measure className method config = .ok m) :
    m.siteCount = method.code.instrs.countP (config.suspends className) := by
  obtain ⟨s, -, h⟩ := bind_eq_ok.1 h
  obtain ⟨entry, -, h⟩ := bind_eq_ok.1 h
  cases h
  exact countP_sites ..

theorem exists_take_countP {α : Type} (p : α → Bool) (l : List α) {k : Nat} (h : k < l.countP p) :
    ∃ i a, l[i]? = some a ∧ p a = true ∧ (l.take i).countP p = k := by
  induction l generalizing k with
  | nil => cases h
  | cons a rest ih =>
    rw [List.countP_cons] at h
    by_cases ha : p a = true
    · cases k with
      | zero => exact ⟨0, a, rfl, ha, rfl⟩
      | succ k =>
        obtain ⟨i, b, hi, hb, count⟩ := ih (k := k) (by simpa [ha] using h)
        exact ⟨i + 1, b, hi, hb, by simp [ha, count]⟩
    · obtain ⟨i, b, hi, hb, count⟩ := ih (k := k) (by simpa [ha] using h)
      exact ⟨i + 1, b, hi, hb, by simp [ha, count]⟩

namespace Weaving

/-- A suspension site of a method, with the code that it became. -/
structure Suspends (W : Weaving) (i : Nat) where
  kind : InvokeKind
  sort : SiteKind
  callee : MemberRef
  here : W.instrs[i]? = some (.invoke kind callee)
  site : W.config.site? W.className (.invoke kind callee) = some (kind, sort, callee)
  suspends : sort.suspends = true
  code : W.plan.SiteCode (W.siteAt i) kind sort
  piece : W.piece i = code.code

variable {W : Weaving} {i : Nat}

theorem exists_suspends {ins : Instr} (hi : W.instrs[i]? = some ins)
    (suspends : W.config.suspends W.className ins = true) : Nonempty (W.Suspends i) := by
  unfold Config.suspends at suspends
  split at suspends
  · next kind sort m site =>
    obtain rfl := invocation_of_site? site
    obtain ⟨s, hp⟩ := piece_site hi site suspends
    exact ⟨⟨kind, sort, m, hi, site, suspends, s, hp⟩⟩
  · cases suspends

/-- Every label of the dispatch belongs to a site. -/
theorem exists_of_resumption {k : Nat} {l : Label} (h : W.plan.resumptions[k]? = some l) :
    ∃ i, ∃ s : W.Suspends i, s.code.resumption = l := by
  have counted : k < W.instrs.countP (W.config.suspends W.className) := by
    rw [← Metrics.siteCount_eq W.measured, ← length_resumptions]
    exact (List.getElem?_eq_some_iff.1 h).1
  obtain ⟨i, ins, hi, suspends, rfl⟩ := exists_take_countP _ _ counted
  obtain ⟨s⟩ := exists_suspends hi suspends
  exact ⟨i, s, Option.some.inj (s.code.resumption_eq.symm.trans h)⟩

namespace Suspends

theorem lt (s : W.Suspends i) : i < W.instrs.length := (List.getElem?_eq_some_iff.1 s.here).1

/-- The label at which a site is resumed stands behind the code that leaves. -/
theorem label (s : W.Suspends i) : W.stream[W.placeOf i + s.code.leaving.length]? = some (.label s.code.resumption) := by
  refine getElem?_placeOf_add ?_
  rw [s.piece, Plan.SiteCode.code, List.getElem?_append_right (Nat.le_refl _), Nat.sub_self]
  rfl

end Suspends

end Weaving

end Suspension
