import Suspension.Proofs.Flow.Edges
import Suspension.Proofs.Flow.Steps

/-!
# How a stream is cut

The stretches of a stream lie one behind the other without a gap.  Each begins with its label, if it has one,
and holds no other; it ends before a label or with an instruction that ends a block, and no instruction before
the last one ends a block.  The blocks of a graph are these stretches, with their operations and their edges.

## Main definitions
* `Stretch.instrs`: the instructions of a stretch, its label included.
* `Stretch.Sound`: a stretch keeps the places of its instructions, and is left only at its end.
* `Stretch.Tiles`: stretches that make up a stream.
* `Stretch.Lowered`: the block that a stretch becomes.

## Main results
* `Stretch.tiles_split`: the stretches of a stream make it up.
* `Graph.lowered_of_build`: the blocks of a graph, one for each stretch.
-/

namespace Suspension

namespace Stretch

/-- The instructions of a stretch, its label included. -/
def instrs (s : Stretch) : List Instr := s.label.toList.map .label ++ s.body.map (·.2)

/-- A stretch keeps the places of its instructions, has no label but the one in front, and is left by none of
its instructions but the last. -/
structure Sound (s : Stretch) : Prop where
  nonempty : s.instrs ≠ []
  places : s.body.map (·.1) = List.range' (s.start + s.label.toList.length) s.body.length
  noLabel : ∀ e ∈ s.body, e.2.defined? = none
  inner : ∀ e ∈ s.body.dropLast, e.2.endsBlock = false

/-- Stretches that make up a stream which starts at a place.  Where one of them ends, a label follows or the
last instruction ends the block. -/
inductive Tiles : Nat → List Instr → List Stretch → Prop
  | done (place : Nat) : Tiles place [] []
  | next {place : Nat} {s : Stretch} {rest : List Instr} {more : List Stretch} (start : s.start = place)
      (sound : s.Sound)
      (ends : ∀ t ∈ more.head?, t.label = none → ∃ e ∈ s.body.getLast?, e.2.endsBlock = true)
      (later : Tiles (place + s.instrs.length) rest more) : Tiles place (s.instrs ++ rest) (s :: more)

/-- The stretch behind the label has none of its own, so the label becomes its front. -/
theorem tiles_prependLabel {place : Nat} {l : Label} {rest : List Instr} {ss : List Stretch}
    (h : Tiles (place + 1) rest ss) : Tiles place (.label l :: rest) (prependLabel place l ss) := by
  have alone (labelled : ∀ t ∈ ss.head?, t.label ≠ none) :
      Tiles place (.label l :: rest) (⟨some l, place, []⟩ :: ss) :=
    .next (s := ⟨some l, place, []⟩) rfl ⟨by simp [instrs], rfl, by simp, by simp⟩
      (fun t ht none => absurd none (labelled t ht)) h
  cases h with
  | done => exact alone (by simp)
  | @next _ s rest more start sound ends later =>
    obtain ⟨label, start', body⟩ := s
    cases start
    cases label with
    | some l' => exact alone (by simp)
    | none =>
      have joined := @Tiles.next place ⟨some l, place, body⟩ rest more rfl
        ⟨by simp [instrs], by simpa using sound.places, sound.noLabel, sound.inner⟩ ends
      refine joined ?_
      simpa [instrs, Nat.add_assoc, Nat.add_comm 1] using later

/-- In front of a labelled stretch the instruction stands alone; otherwise it joins the first stretch, whose
body is not empty and still comes last in the joined one. -/
theorem tiles_prepend {place : Nat} {i : Instr} {rest : List Instr} {ss : List Stretch}
    (noLabel : i.defined? = none) (runs : i.endsBlock = false) (h : Tiles (place + 1) rest ss) :
    Tiles place (i :: rest) (prepend place i ss) := by
  have alone (labelled : ∀ t ∈ ss.head?, t.label ≠ none) :
      Tiles place (i :: rest) (⟨none, place, [(place, i)]⟩ :: ss) :=
    .next (s := ⟨none, place, [(place, i)]⟩) rfl
      ⟨by simp [instrs], by simp, by simpa using noLabel, by simp⟩
      (fun t ht none => absurd none (labelled t ht)) h
  cases h with
  | done => exact alone (by simp)
  | @next _ s rest more start sound ends later =>
    obtain ⟨label, start', body⟩ := s
    cases start
    cases label with
    | some l' => exact alone (by simp)
    | none =>
      have nonempty : body ≠ [] := by
        have := sound.nonempty
        simpa [instrs] using this
      have joined := @Tiles.next place ⟨none, place, (place, i) :: body⟩ rest more rfl
        ⟨by simp [instrs], by simpa [List.range'_succ] using sound.places, ?_, ?_⟩ ?_
      · refine joined ?_
        simpa [instrs, Nat.add_assoc, Nat.add_comm 1] using later
      · rintro e (_ | ⟨_, he⟩)
        · exact noLabel
        · exact sound.noLabel e he
      · rw [List.dropLast_cons_of_ne_nil nonempty]
        rintro e (_ | ⟨_, he⟩)
        · exact runs
        · exact sound.inner e he
      · intro t ht none
        obtain ⟨e, he, last⟩ := ends t ht none
        refine ⟨e, ?_, last⟩
        cases body with
        | nil => exact absurd rfl nonempty
        | cons e' body => rwa [List.getLast?_cons_cons]

/-- The stretches of a stream make it up. -/
theorem tiles_split (place : Nat) (instrs : List Instr) : Tiles place instrs (split place instrs) := by
  induction instrs generalizing place with
  | nil => exact .done place
  | cons i rest ih =>
    have later := ih (place + 1)
    unfold split
    split
    · next l => exact tiles_prependLabel later
    · next notLabel =>
      have noLabel : i.defined? = none := by
        cases h : i.defined? with
        | none => rfl
        | some l => exact absurd (defined?_eq_some.1 h) (notLabel l)
      split
      · next stops =>
        exact .next (s := ⟨none, place, [(place, i)]⟩) rfl
          ⟨by simp [Stretch.instrs], by simp, by simpa using noLabel, by simp⟩
          (fun t _ _ => ⟨(place, i), by simp, stops⟩) later
      · next runs => exact tiles_prepend noLabel (by simpa using runs) later

/-! ## Places in a stream that is cut -/

namespace Tiles

variable {place n : Nat} {code : List Instr} {ss : List Stretch} {s : Stretch}

/-- Laid one behind the other, the stretches are the stream. -/
theorem flatMap_instrs (h : Tiles place code ss) : ss.flatMap instrs = code := by
  induction h with
  | done => rfl
  | next start sound ends later ih => rw [List.flatMap_cons, ih]

/-- From one stretch on, the stream is made up of the stretches from there on. -/
theorem drop (h : Tiles place code ss) (hn : ss[n]? = some s) :
    s.start = place + ((ss.take n).flatMap instrs).length ∧
      ∃ rest, code = (ss.take n).flatMap instrs ++ rest ∧ Tiles s.start rest (ss.drop n) := by
  induction h generalizing n with
  | done => simp at hn
  | @next place t rest more start sound ends later ih =>
    cases n with
    | zero =>
      obtain rfl : t = s := by simpa using hn
      refine ⟨start, t.instrs ++ rest, rfl, ?_⟩
      rw [start]
      exact .next start sound ends later
    | succ n =>
      obtain ⟨at', rest', split, tiles⟩ := ih (by simpa using hn)
      refine ⟨by simp [at', Nat.add_assoc], rest', ?_, tiles⟩
      rw [List.take_succ_cons, List.flatMap_cons, List.append_assoc, ← split]

/-- What is known of one stretch of a stream. -/
theorem sound (h : Tiles place code ss) (hn : ss[n]? = some s) : s.Sound := by
  obtain ⟨-, rest, -, tiles⟩ := h.drop hn
  rw [List.drop_eq_getElem?_toList_append, hn] at tiles
  cases tiles with
  | next start sound ends later => exact sound

/-- The instructions of a stretch stand in the stream from its start on. -/
theorem getElem?_instrs (h : Tiles place code ss) (hn : ss[n]? = some s) {k : Nat} {i : Instr}
    (hk : s.instrs[k]? = some i) : place ≤ s.start ∧ code[s.start - place + k]? = some i := by
  obtain ⟨start, rest, split, tiles⟩ := h.drop hn
  rw [List.drop_eq_getElem?_toList_append, hn] at tiles
  cases tiles with
  | next start' sound ends later =>
    refine ⟨by omega, ?_⟩
    rw [split, start, List.getElem?_append_right (by omega)]
    rw [show place + ((ss.take n).flatMap instrs).length - place + k -
      ((ss.take n).flatMap instrs).length = k by omega]
    rw [List.getElem?_append_left (List.getElem?_eq_some_iff.1 hk).1, hk]

/-- The next stretch starts where one ends; it has a label, or the one before it ends a block. -/
theorem succ (h : Tiles place code ss) (hn : ss[n]? = some s) {t : Stretch} (ht : ss[n + 1]? = some t) :
    t.start = s.start + s.instrs.length ∧
      (t.label = none → ∃ e ∈ s.body.getLast?, e.2.endsBlock = true) := by
  obtain ⟨-, rest, -, tiles⟩ := h.drop hn
  have head : (ss.drop (n + 1)).head? = some t := by rw [List.head?_drop, ht]
  rw [List.drop_eq_getElem?_toList_append, hn] at tiles
  cases tiles with
  | next start sound ends later =>
    refine ⟨?_, fun none => ends t head none⟩
    cases hd : ss.drop (n + 1) with
    | nil => simp [hd] at head
    | cons u more =>
      obtain rfl : u = t := by simpa [hd] using head
      rw [hd] at later
      cases later with
      | next start _ _ _ => exact start

/-- A stretch ends before every later one starts. -/
theorem end_le (h : Tiles place code ss) (hn : ss[n]? = some s) {m : Nat} {t : Stretch} (hm : ss[m]? = some t)
    (lt : n < m) : s.start + s.instrs.length ≤ t.start := by
  have ends : ((ss.take (n + 1)).flatMap instrs).length =
      ((ss.take n).flatMap instrs).length + s.instrs.length := by
    rw [List.take_add_one, hn]
    simp
  have le : ((ss.take (n + 1)).flatMap instrs).length ≤ ((ss.take m).flatMap instrs).length := by
    obtain ⟨k, rfl⟩ := Nat.exists_eq_add_of_le (Nat.succ_le_of_lt lt)
    rw [Nat.succ_eq_add_one, List.take_add (i := n + 1), List.flatMap_append, List.length_append]
    exact Nat.le_add_right _ _
  rw [(h.drop hn).1, (h.drop hm).1]
  omega

/-- A stretch that starts before the end of another one starts no later than that one. -/
theorem start_le (h : Tiles place code ss) (hn : ss[n]? = some s) {m : Nat} {t : Stretch}
    (hm : ss[m]? = some t) (before : t.start < s.start + s.instrs.length) : t.start ≤ s.start := by
  rcases Nat.lt_trichotomy n m with lt | rfl | lt
  · have := h.end_le hn hm lt
    omega
  · exact Nat.le_of_eq (congrArg Stretch.start (Option.some.inj (hm.symm.trans hn)))
  · have := h.end_le hm hn lt
    omega

/-- A place lies in one stretch only. -/
theorem unique (h : Tiles place code ss) (hn : ss[n]? = some s) {m : Nat} {t : Stretch} (hm : ss[m]? = some t)
    {j k : Nat} (hj : j < s.instrs.length) (hk : k < t.instrs.length) (same : s.start + j = t.start + k) :
    n = m ∧ s = t ∧ j = k := by
  rcases Nat.lt_trichotomy n m with lt | rfl | lt
  · have := h.end_le hn hm lt
    omega
  · obtain rfl := Option.some.inj (hn.symm.trans hm)
    exact ⟨rfl, rfl, by omega⟩
  · have := h.end_le hm hn lt
    omega

/-- The last stretch ends where the stream does. -/
theorem last (h : Tiles place code ss) (hn : ss[n]? = some s) (none : ss[n + 1]? = none) :
    s.start + s.instrs.length = place + code.length := by
  obtain ⟨start, rest, split, tiles⟩ := h.drop hn
  have nil : ss.drop (n + 1) = [] := List.drop_eq_nil_of_le (List.getElem?_eq_none_iff.1 none)
  rw [List.drop_eq_getElem?_toList_append, hn, nil] at tiles
  cases tiles with
  | next start' sound ends later =>
    cases later
    rw [split, start]
    simp only [List.length_append, List.length_nil]
    omega

/-- Every place of a stream lies in a stretch. -/
theorem exists_stretch (h : Tiles place code ss) {q : Nat} (hq : q < code.length) :
    ∃ (n : Nat) (s : Stretch) (k : Nat), ss[n]? = some s ∧ k < s.instrs.length ∧ place + q = s.start + k := by
  induction h generalizing q with
  | done => simp at hq
  | @next place t rest more start sound ends later ih =>
    by_cases here : q < t.instrs.length
    · exact ⟨0, t, q, rfl, here, by omega⟩
    · obtain ⟨n, s, k, hn, hk, at'⟩ := ih (q := q - t.instrs.length)
        (by simp only [List.length_append] at hq; omega)
      exact ⟨n + 1, s, k, by simpa using hn, hk, by omega⟩

end Tiles

namespace Sound

variable {s : Stretch} {k : Nat} {i : Instr}

/-- An entry of the body stands in the stretch behind its label, and names its own place. -/
theorem getElem?_body (h : s.Sound) (hk : s.instrs[k]? = some i) (behind : s.label.toList.length ≤ k) :
    s.body[k - s.label.toList.length]? = some (s.start + k, i) := by
  have instr : (s.body.map (·.2))[k - s.label.toList.length]? = some i := by
    rw [instrs, List.getElem?_append_right (by simpa using behind)] at hk
    simpa using hk
  obtain ⟨e, he, rfl⟩ := by simpa only [List.getElem?_map, Option.map_eq_some_iff] using instr
  have lt := (List.getElem?_eq_some_iff.1 he).1
  have place : (s.body.map (·.1))[k - s.label.toList.length]? = some (s.start + k) := by
    rw [h.places, List.getElem?_range' lt, Nat.one_mul]
    congr 1
    omega
  rw [List.getElem?_map, he] at place
  rw [he]
  exact congrArg some (Prod.ext (Option.some.inj place) rfl)

/-- An instruction of a stretch is its label, or an entry of its body. -/
theorem entry (h : s.Sound) (hk : s.instrs[k]? = some i) :
    (k = 0 ∧ ∃ l, s.label = some l ∧ i = .label l) ∨ (s.start + k, i) ∈ s.body := by
  by_cases behind : s.label.toList.length ≤ k
  · exact .inr (List.mem_of_getElem? (h.getElem?_body hk behind))
  · cases hl : s.label with
    | none => simp [hl] at behind
    | some l =>
      obtain rfl : k = 0 := by simpa [hl] using behind
      exact .inl ⟨rfl, l, rfl, by simpa [instrs, hl] using hk.symm⟩

/-- Only the last instruction of a stretch ends a block. -/
theorem last_of_endsBlock (h : s.Sound) (hk : s.instrs[k]? = some i) (ends : i.endsBlock = true) :
    k + 1 = s.instrs.length := by
  have lt := (List.getElem?_eq_some_iff.1 hk).1
  have length : s.instrs.length = s.label.toList.length + s.body.length := by simp [instrs]
  by_cases behind : s.label.toList.length ≤ k
  · have entry := h.getElem?_body hk behind
    refine Decidable.byContradiction fun more => ?_
    have early : s.body.dropLast[k - s.label.toList.length]? = some (s.start + k, i) := by
      rw [List.getElem?_dropLast, if_pos (by omega), entry]
    have inner := h.inner _ (List.mem_of_getElem? early)
    simp [ends] at inner
  · cases hl : s.label with
    | none => simp [hl] at behind
    | some l =>
      obtain rfl : k = 0 := by simpa [hl] using behind
      have front : .label l = i := by
        rw [instrs, hl] at hk
        exact Option.some.inj hk
      subst front
      simp at ends

/-- Control runs on from a stretch as it does from its last instruction.  That is in the body, unless the label
alone makes up the stretch. -/
theorem fallsThrough_eq (h : s.Sound) (hk : s.instrs[k]? = some i) (last : k + 1 = s.instrs.length) :
    s.fallsThrough = i.fallsThrough := by
  have length : s.instrs.length = s.label.toList.length + s.body.length := by simp [instrs]
  by_cases behind : s.label.toList.length ≤ k
  · have entry := h.getElem?_body hk behind
    rw [show k - s.label.toList.length = s.body.length - 1 by omega, ← List.getLast?_eq_getElem?] at entry
    rw [Stretch.fallsThrough, entry]
  · cases hl : s.label with
    | none => simp [hl] at behind
    | some l =>
      obtain rfl : k = 0 := by simpa [hl] using behind
      have front : .label l = i := by
        rw [instrs, hl] at hk
        exact Option.some.inj hk
      subst front
      have empty : s.body = [] := by
        rw [← List.length_eq_zero_iff]
        simp only [hl, Option.toList_some, List.length_singleton] at length
        omega
      rw [Stretch.fallsThrough, empty]
      rfl

end Sound

/-- The block that a stretch becomes, its handlers excepted. -/
def block (s : Stretch) (low : Graph.Lowered) (next : Option Nat) : Block :=
  ⟨s.label, s.start, false, low.steps, low.jumps, next⟩

end Stretch

/-- How the last instruction of a block goes to its targets. -/
def Instr.jumpKind : Instr → EdgeKind
  | .jump .jsr _ => .subroutine
  | _ => .branch

/-! ## The blocks of a graph -/

namespace Graph

variable {className : String} {config : Config} {blocks : List Stretch}

/-- A label resolves to the stretch that it starts. -/
theorem resolve_eq_ok {l : Label} {q : Nat} (h : resolve blocks l = .ok q) :
    ∃ s, blocks[q]? = some s ∧ s.label = some l := by
  unfold resolve place? at h
  split at h
  · next place hq =>
    cases h
    obtain ⟨lt, found, -⟩ := List.findIdx?_eq_some_iff_getElem.1 hq
    exact ⟨blocks[q], List.getElem?_eq_getElem lt, by simpa using found⟩
  · cases h

/-- The jumps of an instruction are edges to its targets. -/
theorem target_of_mem_jumpEdges {i : Instr} {jumps : List Edge} (h : jumpEdges blocks i = .ok jumps) {e : Edge}
    (he : e ∈ jumps) : ∃ l ∈ i.targets, resolve blocks l = .ok e.target ∧ e.kind = i.jumpKind := by
  obtain ⟨length, each⟩ := mapM_eq_ok.1 h
  obtain ⟨k, hk, rfl⟩ := List.mem_iff_getElem.1 he
  obtain ⟨q, resolved, made⟩ := bind_eq_ok.1 (each k (length ▸ hk) hk)
  injection made with made
  rw [← made]
  exact ⟨_, List.getElem_mem (length ▸ hk), resolved, rfl⟩

/-- An instruction jumps to each of its targets. -/
theorem exists_jumpEdge {i : Instr} {jumps : List Edge} (h : jumpEdges blocks i = .ok jumps) {l : Label}
    (hl : l ∈ i.targets) : ∃ e ∈ jumps, resolve blocks l = .ok e.target ∧ e.kind = i.jumpKind := by
  obtain ⟨length, each⟩ := mapM_eq_ok.1 h
  obtain ⟨k, hk, rfl⟩ := List.mem_iff_getElem.1 hl
  obtain ⟨q, resolved, made⟩ := bind_eq_ok.1 (each k hk (length ▸ hk))
  injection made with made
  have inside : k < jumps.length := length ▸ hk
  refine ⟨jumps[k], List.getElem_mem inside, ?_⟩
  rw [← made]
  exact ⟨resolved, rfl⟩

/-- The jumps of a body are edges to the targets of its instructions. -/
theorem target_of_mem_jumps {site : Nat} {body : List (Nat × Instr)} {low : Lowered}
    (h : lower className config blocks site body = .ok low) {e : Edge} (he : e ∈ low.jumps) :
    ∃ p ∈ body, ∃ l ∈ p.2.targets, resolve blocks l = .ok e.target ∧ e.kind = p.2.jumpKind := by
  induction body generalizing site low with
  | nil =>
    cases h
    cases he
  | cons p rest ih =>
    obtain ⟨effect, -, h⟩ := bind_eq_ok.1 h
    obtain ⟨jumps, hjumps, h⟩ := bind_eq_ok.1 h
    obtain ⟨more, hmore, h⟩ := bind_eq_ok.1 h
    cases h
    rcases List.mem_append.1 he with he | he
    · exact ⟨p, List.mem_cons_self, target_of_mem_jumpEdges hjumps he⟩
    · obtain ⟨p', hp', target⟩ := ih hmore he
      exact ⟨p', List.mem_cons_of_mem _ hp', target⟩

/-- A body jumps to each of the targets of its instructions. -/
theorem exists_jump {site : Nat} {body : List (Nat × Instr)} {low : Lowered}
    (h : lower className config blocks site body = .ok low) {p : Nat × Instr} (hp : p ∈ body) {l : Label}
    (hl : l ∈ p.2.targets) : ∃ e ∈ low.jumps, resolve blocks l = .ok e.target ∧ e.kind = p.2.jumpKind := by
  induction body generalizing site low with
  | nil => cases hp
  | cons p' rest ih =>
    obtain ⟨effect, -, h⟩ := bind_eq_ok.1 h
    obtain ⟨jumps, hjumps, h⟩ := bind_eq_ok.1 h
    obtain ⟨more, hmore, h⟩ := bind_eq_ok.1 h
    cases h
    rcases List.mem_cons.1 hp with rfl | hp
    · obtain ⟨e, he, target⟩ := exists_jumpEdge hjumps hl
      exact ⟨e, List.mem_append_left _ he, target⟩
    · obtain ⟨e, he, target⟩ := ih hmore hp
      exact ⟨e, List.mem_append_right _ he, target⟩

theorem length_sites_of_lower {site : Nat} {body : List (Nat × Instr)} {low : Lowered}
    (h : lower className config blocks site body = .ok low) :
    low.sites.length = (body.map (·.2)).countP (config.suspends className) := by
  induction body generalizing site low with
  | nil =>
    cases h
    rfl
  | cons p rest ih =>
    obtain ⟨effect, heffect, h⟩ := bind_eq_ok.1 h
    obtain ⟨jumps, -, h⟩ := bind_eq_ok.1 h
    obtain ⟨more, hmore, h⟩ := bind_eq_ok.1 h
    cases h
    rw [List.length_append, ih hmore, Instr.countP_of_effect (mapError_eq_ok.1 heffect), ← List.countP_append]
    rfl

/-- Each stretch is lowered, and becomes the block at its place; its sites are numbered on from those of the
stretches before it.  A label in front of the body is no call, so a stretch has as many sites as its body. -/
theorem getElem?_of_lowerAll {all ss : List Stretch} {place site : Nat} {blocks : List Block}
    {sites : List SiteKind} (h : lowerAll className config all place site ss = .ok (blocks, sites))
    {n : Nat} {s : Stretch} (hs : ss[n]? = some s) :
    ∃ low, lower className config all
        (site + ((ss.take n).flatMap Stretch.instrs).countP (config.suspends className)) s.body = .ok low ∧
      blocks[n]? = some (s.block low
        (if s.fallsThrough = true ∧ n + 1 < ss.length then some (place + n + 1) else none)) := by
  induction ss generalizing place site blocks sites n with
  | nil => cases hs
  | cons t rest ih =>
    obtain ⟨low, hlow, h⟩ := bind_eq_ok.1 h
    obtain ⟨more, hmore, h⟩ := bind_eq_ok.1 h
    cases h
    cases n with
    | zero =>
      obtain rfl : t = s := by simpa using hs
      refine ⟨low, hlow, ?_⟩
      cases rest <;> simp [Stretch.block]
    | succ n =>
      obtain ⟨low', hlow', block⟩ := ih hmore (by simpa using hs)
      have count : t.instrs.countP (config.suspends className) = low.sites.length := by
        rw [length_sites_of_lower hlow, Stretch.instrs, List.countP_append]
        cases t.label <;> simp [Config.suspends, Config.site?, Instr.invocation?]
      refine ⟨low', ?_, ?_⟩
      · rw [← hlow', List.take_succ_cons, List.flatMap_cons, List.countP_append, count, Nat.add_assoc]
      · rw [List.getElem?_cons_succ, block, show place + 1 + n + 1 = place + (n + 1) + 1 by omega]
        simp only [List.length_cons, Nat.add_lt_add_iff_right]

variable {method : Method} {g : Graph}

theorem tiles_stretches (method : Method) :
    Stretch.Tiles 0 method.code.instrs (stretches method) := Stretch.tiles_split ..

/-- A label that resolves stands for the start of its stretch. -/
theorem target_of_resolve (h : build className method config = .ok g) {l : Label} {q : Nat}
    (resolved : resolve (stretches method) l = .ok q) :
    ∃ s, (stretches method)[q]? = some s ∧ method.code.target? l = some s.start := by
  obtain ⟨s, hs, label⟩ := resolve_eq_ok resolved
  have first : s.instrs[0]? = some (.label l) := by simp [Stretch.instrs, label]
  have here := ((tiles_stretches method).getElem?_instrs hs first).2
  refine ⟨s, hs, ?_⟩
  rw [Code.target?, lastDefinition_eq_some (nodup_of_build h) (by simpa using here), Nat.zero_add]

/-- The labels of a region stand for its ends, of which the first is the start of a stretch, and for the start
of its handler. -/
theorem span_of_region (h : build className method config = .ok g) {spans : List Span}
    (hspans : method.code.regions.mapM (span (stretches method)) = .ok spans) {r : Region}
    (hr : r ∈ method.code.regions) :
    ∃ p ∈ spans, method.code.target? r.start = some p.start ∧ method.code.target? r.stop = some p.stop ∧
      (∃ (m : Nat) (s : Stretch), (stretches method)[m]? = some s ∧ s.start = p.start) ∧
      ∃ t, (stretches method)[p.handler]? = some t ∧ method.code.target? r.handler = some t.start := by
  obtain ⟨q, hq, rfl⟩ := List.mem_iff_getElem.1 hr
  obtain ⟨length, each⟩ := mapM_eq_ok.1 hspans
  obtain ⟨start, resolved, made⟩ := bind_eq_ok.1 (each q hq (length ▸ hq))
  obtain ⟨stop, resolved', made⟩ := bind_eq_ok.1 made
  obtain ⟨handler, resolved'', made⟩ := bind_eq_ok.1 made
  obtain ⟨s, hs, target⟩ := target_of_resolve h resolved
  obtain ⟨u, hu, target'⟩ := target_of_resolve h resolved'
  simp only [hs, hu] at made
  injection made with made
  have inside : q < spans.length := length ▸ hq
  refine ⟨spans[q], List.getElem_mem inside, ?_⟩
  rw [← made]
  exact ⟨target, target', ⟨start, s, hs, rfl⟩, target_of_resolve h resolved''⟩

/-- Each stretch of a method is lowered, and becomes the block at its place.  The stretches in front hold the
instructions in front, so that sites are numbered by their places. -/
theorem lowered_of_build (h : build className method config = .ok g) :
    ∃ spans, method.code.regions.mapM (span (stretches method)) = .ok spans ∧
      ∀ n s, (stretches method)[n]? = some s →
        ∃ low, lower className config (stretches method)
            ((method.code.instrs.take s.start).countP (config.suspends className)) s.body = .ok low ∧
          g.block? n = some (protect spans n (s.block low
            (if s.fallsThrough = true ∧ n + 1 < (stretches method).length then some (n + 1) else none))) := by
  obtain ⟨-, blocks, spans, hlow, hspans, hblocks⟩ := build_eq_ok h
  refine ⟨spans, hspans, fun n s hs => ?_⟩
  obtain ⟨low, lowered, block⟩ := getElem?_of_lowerAll hlow hs
  have front : ((stretches method).take n).flatMap Stretch.instrs = method.code.instrs.take s.start := by
    obtain ⟨start, rest, split, -⟩ := (tiles_stretches method).drop hs
    rw [split, start, Nat.zero_add, List.take_left]
  rw [Nat.zero_add, front] at lowered
  have some : blocks.isEmpty = false := by
    cases blocks with
    | nil => cases block
    | cons b rest => rfl
  refine ⟨low, lowered, ?_⟩
  rw [block?, hblocks, some, List.getElem?_mapIdx, if_neg Bool.false_ne_true, block, Nat.zero_add]
  rfl

/-- There is one block for each stretch, and one even if there are no stretches. -/
theorem length_of_build (h : build className method config = .ok g) :
    g.blocks.length = max 1 (stretches method).length := by
  obtain ⟨-, blocks, spans, hlow, -, hblocks⟩ := build_eq_ok h
  obtain ⟨length, -⟩ := targets_of_lowerAll_lt hlow
  rw [hblocks, List.length_mapIdx, ← length]
  cases blocks with
  | nil => rfl
  | cons b rest => simp

end Graph

end Suspension
