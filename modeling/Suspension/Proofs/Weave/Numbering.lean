import Mathlib.Data.List.Nodup
import Suspension.Proofs.Flow.Numbering
import Suspension.Proofs.Weave.Miscounts
import Suspension.Proofs.Weave.Resumption

/-!
# One numbering of the sites

The suspension sites of a method are gone through three times: they are counted, they are numbered in the
graph, and they are replaced in the code.  Each pass tells for itself which calls they are and counts them as
it goes; all three come to the same places in the same order.  A label at which a site is resumed is therefore
the one that the dispatch keeps for the number that the site stores.

## Main definitions
* `Plan.suspended`: the sites that are replaced, with the numbers under which they are.
* `Weaving.SiteOf`: what is put in the place of a site.

## Main results
* `Plan.suspended_prefix`, `Plan.suspended_eq`: the sites that are replaced.
* `Weaving.siteOf`: a site and its label.
* `sites_numbered`: the three passes, and what becomes of the sites, for every method.
-/

namespace Suspension

namespace Plan

variable {p : Plan}

/-- The instructions from `place` on that are replaced as suspension sites, with the numbers under which they
are, up to the end or to the first instruction that cannot be dealt with. -/
def suspended (p : Plan) : (place site : Nat) → List Instr → List (Nat × Nat)
  | _, _, [] => []
  | place, site, i :: rest =>
    match p.instr place site i with
    | .ok (_, true) => (place, site) :: suspended p (place + 1) (site + 1) rest
    | .ok (_, false) => suspended p (place + 1) site rest
    | .error _ => []

/-- What is counted as a site has been replaced by the code of a suspension site. -/
theorem suspend_of_instr {place site : Nat} {i : Instr} {code : List Instr}
    (h : p.instr place site i = .ok (code, true)) :
    ∃ kind sort m, p.config.site? p.className i = some (kind, sort, m) ∧ sort.suspends = true ∧
      p.suspend site kind sort = .ok code := by
  have suspends := (isSite_of_instr h).symm
  unfold Config.suspends at suspends
  split at suspends
  · next kind sort m site? =>
    refine ⟨kind, sort, m, site?, suspends, ?_⟩
    have notLabel (l : Label) : i ≠ .label l := by
      rintro rfl
      cases site?
    unfold instr at h
    split at h
    · next l => exact absurd rfl (notLabel l)
    · split at h
      · cases h
      · rw [site?] at h
        split at h
        · next answer =>
          cases answer
          cases suspends
        · next same =>
          cases same
          obtain ⟨code', made, h⟩ := bind_eq_ok.1 h
          cases h
          exact made
        · next none => cases none
  · cases suspends

/-- What is replaced is the beginning of the sites of the stream, numbered in its order. -/
theorem suspended_prefix (place site : Nat) (instrs : List Instr) :
    p.suspended place site instrs <+: (p.config.suspensions p.className place instrs).zipIdx site := by
  induction instrs generalizing place site with
  | nil => exact List.nil_prefix
  | cons i rest ih =>
    rw [suspended, Config.suspensions_cons]
    split
    · next made =>
      rw [← isSite_of_instr made, if_pos rfl, List.singleton_append, List.zipIdx_cons]
      exact List.prefix_cons_inj _ |>.2 (ih (place + 1) (site + 1))
    · next made =>
      rw [← isSite_of_instr made, if_neg Bool.false_ne_true, List.nil_append]
      exact ih (place + 1) site
    · exact List.nil_prefix

/-- All sites of the stream are replaced if all of it can be dealt with. -/
theorem suspended_eq {place site : Nat} {instrs : List Instr} {l : List (List Instr)}
    (h : p.pieces place site instrs = .ok l) :
    p.suspended place site instrs = (p.config.suspensions p.className place instrs).zipIdx site := by
  induction instrs generalizing place site l with
  | nil => rfl
  | cons i rest ih =>
    obtain ⟨⟨code, isSite⟩, made, h⟩ := bind_eq_ok.1 h
    obtain ⟨more, later, -⟩ := bind_eq_ok.1 h
    rw [suspended, made, Config.suspensions_cons, ← isSite_of_instr made]
    cases isSite with
    | true =>
      rw [if_pos rfl, List.singleton_append, List.zipIdx_cons]
      exact congrArg _ (ih later)
    | false =>
      rw [if_neg Bool.false_ne_true, List.nil_append]
      exact ih later

/-- What is replaced under a number is a call that is a suspension site, and its code is made for the number. -/
theorem suspend_of_mem_suspended {place site q k : Nat} {instrs : List Instr}
    (h : (q, k) ∈ p.suspended place site instrs) :
    ∃ i ins kind sort m code, q = place + i ∧ instrs[i]? = some ins ∧
      p.config.site? p.className ins = some (kind, sort, m) ∧ sort.suspends = true ∧
      p.suspend k kind sort = .ok code ∧ p.instr q k ins = .ok (code, true) := by
  induction instrs generalizing place site with
  | nil => cases h
  | cons i rest ih =>
    have later {site : Nat} (h : (q, k) ∈ p.suspended (place + 1) site rest) :
        ∃ j ins kind sort m code, q = place + j ∧ (i :: rest)[j]? = some ins ∧
          p.config.site? p.className ins = some (kind, sort, m) ∧ sort.suspends = true ∧
          p.suspend k kind sort = .ok code ∧ p.instr q k ins = .ok (code, true) := by
      obtain ⟨j, ins, kind, sort, m, code, rfl, hj, found⟩ := ih h
      exact ⟨j + 1, ins, kind, sort, m, code, by omega, hj, found⟩
    rw [suspended] at h
    split at h
    · next code made =>
      rcases List.mem_cons.1 h with here | h
      · cases here
        obtain ⟨kind, sort, m, site?, suspends, code_eq⟩ := suspend_of_instr made
        exact ⟨0, i, kind, sort, m, code, rfl, rfl, site?, suspends, code_eq, made⟩
      · exact later h
    · exact later h
    · cases h

end Plan

namespace Weaving

variable {W : Weaving}

/-- The places of the suspension sites of the method. -/
def places (W : Weaving) : List Nat := W.config.suspensions W.className 0 W.instrs

theorem length_places : W.plan.resumptions.length = W.places.length := by
  rw [length_resumptions, Metrics.siteCount_eq W.measured, places, Config.length_suspensions]

/-- What stands in the place of the site of number `k`, which is the instruction at `q`: its code stores `k`,
throws, and goes on at the label that the dispatch keeps for `k`. -/
structure SiteOf (W : Weaving) (k q : Nat) (l : Label) : Prop where
  number : (Int32.ofNat k).toInt = k
  label : W.plan.resumptions[k]? = some l
  once : (definedLabels W.result.code.instrs).count l = 1
  dispatched : tableTarget 0 (Int32.ofNat W.plan.resumptions.length - 1) W.plan.start W.plan.resumptions
    (Int32.ofNat k) = l
  code : ∃ saved signal returning, W.piece q = saved ++
    [W.plan.loadContext, pushInt (Int32.ofNat k), callService Service.setLabel] ++
      signal ++ [.plain .athrow, .label l] ++ returning
  stands : W.piece q <+: W.result.code.instrs.drop (W.placeOf q)

theorem siteOf (few : W.places.length < 2 ^ 31) {k q : Nat} (h : W.places[k]? = some q) :
    ∃ l, W.SiteOf k q l := by
  obtain ⟨i, ins, rfl, hi, suspends, count⟩ := Config.getElem?_suspensions.1 h
  rw [Nat.zero_add] at h ⊢
  obtain rfl : W.siteAt i = k := count
  have small : W.siteAt i < W.places.length := (List.getElem?_eq_some_iff.1 h).1
  obtain ⟨s⟩ := exists_suspends hi suspends
  refine ⟨s.code.resumption, Int32.toInt_ofNat_of_lt (by omega), s.code.resumption_eq,
    List.count_eq_one_of_mem nodup_definedLabels (mem_definedLabels.2 (List.mem_of_getElem? s.label)),
    Plan.tableTarget_resumption s.code.resumption_eq (length_places ▸ few), ?_, stands_piece s.lt⟩
  refine ⟨(if s.sort = .call then [.store .reference W.plan.slots.callTarget] else []) ++
    Plan.dropReceiver s.kind ++ s.code.saved, W.plan.building s.sort (W.plan.payload? s.sort), s.code.returning, ?_⟩
  rw [s.piece, Plan.SiteCode.code, Plan.SiteCode.leaving, Plan.saving, Plan.throwSignal_eq]
  simp

/-- A method with a site goes to the label of its context from a table of all labels, once it has the
context. -/
theorem dispatch_prefix (some : W.places ≠ []) :
    W.plan.obtaining ++ [W.plan.loadContext, callService Service.getLabel,
      .tableSwitch 0 (Int32.ofNat W.plan.resumptions.length - 1) W.plan.start W.plan.resumptions] <+:
        W.result.code.instrs := by
  obtain ⟨s, -, -, front⟩ := Plan.prologue_eq_ok W.opened
  have first : 0 < W.plan.resumptions.length := length_places ▸ List.length_pos_iff.2 some
  rw [← dispatch_eq (List.getElem?_eq_getElem first)]
  change _ <+: W.front ++ W.pieces.flatten ++ W.plan.epilogue
  rw [front, List.append_assoc, List.append_assoc]
  exact List.prefix_append _ _

end Weaving

/-- The suspension sites of a method are counted alike in all passes over it, whether control comes to them or
not.  If the method has a graph, the graph numbers the suspending calls of the stream in its order, as many are
counted in advance, and the same are replaced under the same numbers, in any plan, as far as the code can be
emitted.  So no method is refused because two counts disagree or because a site has no label.  In a suspendable
method each site has one label, which is defined once, directly behind the throw of the site; it stands in the
table of the dispatch at the number that the site stores. -/
theorem sites_numbered (className : String) (method : Method) (config : Config) :
    let places := config.suspensions className 0 method.code.instrs
    (∀ g, Graph.build className method config = .ok g →
      g.blocks.flatMap (fun b => Graph.numbered b.steps) = places.zipIdx ∧
      g.sites = (Metrics.sites className config method.code.instrs).filter SiteKind.suspends ∧
      g.sites.length = places.length ∧
      (∀ m, Metrics.measure className method config = .ok m → m.siteCount = places.length) ∧
      ∀ p : Plan, p.className = className → p.config = config →
        p.suspended 0 0 method.code.instrs <+: places.zipIdx ∧
        (∀ code, p.body 0 0 method.code.instrs = .ok code →
          p.suspended 0 0 method.code.instrs = places.zipIdx) ∧
        ∀ q k, (q, k) ∈ p.suspended 0 0 method.code.instrs → ∃ ins kind sort m code,
          method.code.instrs[q]? = some ins ∧ config.site? className ins = some (kind, sort, m) ∧
          sort.suspends = true ∧ p.suspend k kind sort = .ok code ∧ p.instr q k ins = .ok (code, true)) ∧
    (∀ e, (method.transform className config).result = .error e →
      ∀ name title a b, e ≠ .analysis name title (.siteCountMismatch a b) ∧
        e ≠ .weave name title (.snapshotCountMismatch a b) ∧ e ≠ .weave name title (.missingResumption a)) ∧
    ∀ result, (method.transform className config).result = .ok (some result) → places.length < 2 ^ 31 →
      ∃ W : Weaving, W.className = className ∧ W.method = method ∧ W.config = config ∧ W.result = result ∧
        W.plan.resumptions.length = places.length ∧ W.plan.resumptions.Nodup ∧
        (places ≠ [] → W.plan.obtaining ++ [W.plan.loadContext, callService Service.getLabel,
          .tableSwitch 0 (Int32.ofNat W.plan.resumptions.length - 1) W.plan.start W.plan.resumptions] <+:
            result.code.instrs) ∧
        ∀ k q, places[k]? = some q → ∃ l, W.SiteOf k q l := by
  intro places
  refine ⟨fun g built => ⟨Graph.numbered_of_build built, Graph.sites_of_build built, ?_, fun m measured => ?_, ?_⟩,
    fun e failed => ?_, fun result transformed few => ?_⟩
  · rw [Graph.length_sites_of_build built, Config.length_suspensions]
  · rw [Metrics.siteCount_eq measured, Config.length_suspensions]
  · rintro p rfl rfl
    refine ⟨Plan.suspended_prefix 0 0 _, fun code emitted => ?_, fun q k mem => ?_⟩
    · rw [Plan.body_eq] at emitted
      obtain ⟨pieces, cut, -⟩ := map_eq_ok.1 emitted
      exact Plan.suspended_eq cut
    · obtain ⟨i, ins, kind, sort, m, code, rfl, found⟩ := Plan.suspend_of_mem_suspended mem
      rw [Nat.zero_add] at found ⊢
      exact ⟨ins, kind, sort, m, code, found⟩
  · have counted := counted_transform e failed
    intro name title a b
    refine ⟨?_, ?_, ?_⟩ <;>
    · rintro rfl
      exact counted
  · obtain ⟨W, rfl, rfl, rfl, rfl⟩ := Weaving.exists_of_transform transformed
    have apart : W.plan.resumptions.Nodup :=
      (List.nodup_append.1 (List.nodup_cons.1 Weaving.nodup_added).2).1
    exact ⟨W, rfl, rfl, rfl, rfl, Weaving.length_places, apart, Weaving.dispatch_prefix, fun k q =>
      Weaving.siteOf few⟩

/-- Pauses and is done; behind the return, where control never comes, it would step back. -/
def pausingOnce : Method where
  access := staticFlag
  name := "execute"
  descriptor := "()V"
  maxLocals := 0
  code.instrs := [.pause, .plain (.leave none), .stepBack, .plain (.leave none)]

/-- The step back is numbered and has its label like the pause. -/
theorem pausingOnce_numbered :
    ∃ (g : Graph) (result : Method) (W : Weaving) (l : Label), Graph.build "app/C" pausingOnce {} = .ok g ∧
      g.blocks.flatMap (fun b => Graph.numbered b.steps) = [(0, 0), (2, 1)] ∧
      (pausingOnce.transform "app/C" {}).result = .ok (some result) ∧ W.result = result ∧ W.SiteOf 1 2 l := by
  have places : ({} : Config).suspensions "app/C" 0 pausingOnce.code.instrs = [0, 2] := by decide +kernel
  obtain ⟨g, built⟩ : ∃ g, Graph.build "app/C" pausingOnce {} = .ok g := exists_ok (by decide +kernel)
  obtain ⟨result, transformed⟩ : ∃ result, (pausingOnce.transform "app/C" {}).result = .ok (some result) :=
    exists_ok_some (by decide +kernel)
  obtain ⟨each, -, emitted⟩ := sites_numbered "app/C" pausingOnce {}
  obtain ⟨W, -, -, -, hresult, -, -, -, sites⟩ := emitted result transformed (by rw [places]; decide)
  obtain ⟨l, site⟩ := sites 1 2 (by rw [places]; rfl)
  refine ⟨g, result, W, l, built, ?_, transformed, hresult, site⟩
  rw [(each g built).1, places]
  rfl

end Suspension
