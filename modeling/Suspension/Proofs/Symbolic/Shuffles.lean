import Suspension.Proofs.Symbolic.Matching

/-!
# Shuffles of values and of tags

A shuffle takes values of so many words off the stack, then values of so many more, and puts them back in another
order.  The analysis does so with tags and the machine with values, and both refuse to part a value of two words.
The exception is `swap`, which the machine carries out on whatever two values it finds.

## Main definitions
* `Shuffle.sizes`, `Shuffle.arrange`, `Shuffle.Turns`: what a shuffle does to a stack of entries of either width.
* `Shuffle.Overlooks`: a swap that the machine carries out although the analysis refuses it.

## Main results
* `Shuffle.apply_symOp_iff`, `Frame.shuffle_iff`: the shuffles of the analysis and of the machine.
* `Shuffle.Turns.lift`, `Shuffle.Turns.map`: a shuffle treats entries alike, whatever they are.
* `shuffles_agree`: analysis and machine accept the same shuffles, except for what is overlooked.
-/

namespace Suspension

variable {α β σ : Type}

/-! ## The forms of shuffles -/

namespace Shuffle

/-- The words that a shuffle takes off the stack first, and those that it takes next. -/
def sizes : Shuffle → Nat × Nat
  | .pop | .dup => (1, 0)
  | .pop2 | .dup2 => (2, 0)
  | .dupX1 | .swap => (1, 1)
  | .dupX2 => (1, 2)
  | .dup2X1 => (2, 1)
  | .dup2X2 => (2, 2)

/-- What a shuffle puts in the place of what it took, top first. -/
def arrange (s : Shuffle) (top below : List α) : List α :=
  match s with
  | .pop | .pop2 => []
  | .swap => below ++ top
  | _ => top ++ below ++ top

/-- What a shuffle does to a stack whose entries cover some words each: it can be carried out if the topmost
entries cover the words exactly. -/
def Turns (s : Shuffle) (words : α → Nat) (stack result : List α) : Prop :=
  ∃ top below rest, stack = top ++ (below ++ rest) ∧ total words top = s.sizes.1 ∧ total words below = s.sizes.2 ∧
    result = s.arrange top below ++ rest

/-- A swap of two entries of which one has two words. -/
def Overlooks (s : Shuffle) (stack : List Value) : Prop :=
  s = .swap ∧ ∃ a b rest, stack = a :: b :: rest ∧ (a.width = .two ∨ b.width = .two)

theorem exists_turns_iff {s : Shuffle} {words : α → Nat} {stack : List α} {Q : List α → Prop} :
    (∃ result, s.Turns words stack result ∧ Q result) ↔ ∃ top below rest, stack = top ++ (below ++ rest) ∧
      total words top = s.sizes.1 ∧ total words below = s.sizes.2 ∧ Q (s.arrange top below ++ rest) := by
  constructor
  · rintro ⟨_, ⟨top, below, rest, same, first, second, rfl⟩, h⟩
    exact ⟨top, below, rest, same, first, second, h⟩
  · rintro ⟨top, below, rest, same, first, second, h⟩
    exact ⟨_, ⟨top, below, rest, same, first, second, rfl⟩, h⟩

theorem arrange_map (s : Shuffle) (f : α → β) (top below : List α) :
    s.arrange (top.map f) (below.map f) = (s.arrange top below).map f := by
  cases s <;> simp [arrange]

variable {s : Shuffle}

/-- A shuffle of entries shuffles what is read off them. -/
theorem Turns.map {words : β → Nat} {f : α → β} {stack result : List α} (h : s.Turns (words ∘ f) stack result) :
    s.Turns words (stack.map f) (result.map f) := by
  obtain ⟨top, below, rest, rfl, first, second, rfl⟩ := h
  refine ⟨top.map f, below.map f, rest.map f, by simp, ?_, ?_, ?_⟩
  · rw [total_map, first]
  · rw [total_map, second]
  · rw [List.map_append, arrange_map]

/-- A shuffle of what is read off entries comes from a shuffle of the entries. -/
theorem Turns.lift {words : β → Nat} {f : α → β} {stack : List α} {result : List β}
    (h : s.Turns words (stack.map f) result) : ∃ entries, s.Turns (words ∘ f) stack entries ∧ result = entries.map f := by
  obtain ⟨top, below, rest, same, first, second, rfl⟩ := h
  obtain ⟨top, more, rfl, rfl, left⟩ := List.map_eq_append_iff.1 same
  obtain ⟨below, rest, rfl, rfl, rfl⟩ := List.map_eq_append_iff.1 left
  rw [total_map] at first second
  exact ⟨_, ⟨top, below, rest, rfl, first, second, rfl⟩, by rw [List.map_append, arrange_map]⟩

theorem Turns.congr {words words' : α → Nat} {stack result : List α} (h : s.Turns words stack result)
    (same : ∀ a ∈ stack, words a = words' a) : s.Turns words' stack result := by
  obtain ⟨top, below, rest, rfl, first, second, rfl⟩ := h
  refine ⟨top, below, rest, rfl, ?_, ?_, rfl⟩
  · rw [← first]
    exact (total_congr fun a ha => same a (by simp [ha])).symm
  · rw [← second]
    exact (total_congr fun a ha => same a (by simp [ha])).symm

end Shuffle

/-! ## Taking words off a stack -/

theorem Tag.one_le_words (t : Tag) : 1 ≤ t.words := by
  unfold words
  cases t.width <;> decide

theorem Value.one_le_words (v : Value) : 1 ≤ v.words := by
  unfold words
  cases v.width <;> decide

/-- Entries that cover no word are none. -/
theorem eq_nil_of_total {words : α → Nat} (positive : ∀ a, 1 ≤ words a) {l : List α} (h : total words l = 0) :
    l = [] := by
  cases l with
  | nil => rfl
  | cons a rest =>
    have := positive a
    rw [total_cons] at h
    omega

/-- Nothing is taken to cover no word. -/
theorem eq_append_total_zero {words : α → Nat} (positive : ∀ a, 1 ≤ words a) {stack top rest : List α} :
    stack = top ++ rest ∧ total words top = 0 ↔ top = [] ∧ rest = stack := by
  constructor
  · rintro ⟨rfl, none⟩
    obtain rfl := eq_nil_of_total positive none
    exact ⟨rfl, rfl⟩
  · rintro ⟨rfl, rfl⟩
    exact ⟨rfl, rfl⟩

/-- To cover some words, the topmost entry is taken, if it is not too wide, and then others for what is left. -/
theorem eq_append_total_succ {words : α → Nat} {n : Nat} {a : α} {stack top rest : List α} :
    a :: stack = top ++ rest ∧ total words top = n + 1 ↔
      words a ≤ n + 1 ∧ ∃ more, top = a :: more ∧ stack = more ++ rest ∧ total words more = n + 1 - words a := by
  constructor
  · rintro ⟨same, covers⟩
    cases top with
    | nil => cases covers
    | cons b more =>
      obtain ⟨rfl, rfl⟩ := List.cons.inj same
      rw [total_cons] at covers
      exact ⟨by omega, more, rfl, rfl, by omega⟩
  · rintro ⟨fits, more, rfl, rfl, covers⟩
    refine ⟨rfl, ?_⟩
    rw [total_cons]
    omega

/-- Exactly the tags that cover the words are taken.  Nothing more is taken once no words are left to cover. -/
theorem takeTags_iff {n : Nat} {stack top rest : List Tag} :
    takeTags n stack = .ok top rest ↔ stack = top ++ rest ∧ total Tag.words top = n := by
  induction stack generalizing n top rest with
  | nil =>
    cases n with
    | zero =>
      rw [eq_append_total_zero Tag.one_le_words]
      constructor
      · intro h
        cases h
        exact ⟨rfl, rfl⟩
      · rintro ⟨rfl, rfl⟩
        rfl
    | succ n =>
      constructor
      · intro h
        cases h
      · rintro ⟨none, covers⟩
        obtain ⟨rfl, -⟩ := List.append_eq_nil_iff.1 none.symm
        cases covers
  | cons t stack ih =>
    cases n with
    | zero =>
      rw [eq_append_total_zero Tag.one_le_words]
      constructor
      · intro h
        cases h
        exact ⟨rfl, rfl⟩
      · rintro ⟨rfl, rfl⟩
        rfl
    | succ n =>
      rw [eq_append_total_succ, takeTags]
      split
      · next fits =>
        rw [and_iff_right fits]
        simp only [← ih]
        cases takeTags (n + 1 - t.words) stack with
        | ok more left =>
          constructor
          · rintro ⟨⟩
            exact ⟨more, rfl, rfl⟩
          · rintro ⟨_, rfl, ⟨⟩⟩
            rfl
        | error e left =>
          constructor
          · intro h
            cases h
          · rintro ⟨_, _, ⟨⟩⟩
      · next wide =>
        constructor
        · intro h
          cases h
        · intro h
          exact absurd h.1 wide

/-- Exactly the values that cover the words are taken.  The machine fails if the words would part a value. -/
theorem takeValues_iff {n : Nat} {stack top rest : List Value} :
    Frame.takeValues n stack = .ok (top, rest) ↔ stack = top ++ rest ∧ total Value.words top = n := by
  induction stack generalizing n top rest with
  | nil =>
    cases n with
    | zero =>
      rw [eq_append_total_zero Value.one_le_words]
      constructor
      · intro h
        cases h
        exact ⟨rfl, rfl⟩
      · rintro ⟨rfl, rfl⟩
        rfl
    | succ n =>
      constructor
      · intro h
        cases h
      · rintro ⟨none, covers⟩
        obtain ⟨rfl, -⟩ := List.append_eq_nil_iff.1 none.symm
        cases covers
  | cons v stack ih =>
    cases n with
    | zero =>
      rw [eq_append_total_zero Value.one_le_words]
      constructor
      · intro h
        cases h
        exact ⟨rfl, rfl⟩
      · rintro ⟨rfl, rfl⟩
        rfl
    | succ n =>
      rw [eq_append_total_succ, Frame.takeValues]
      split
      · next fits =>
        rw [and_iff_right fits]
        simp only [← ih]
        cases Frame.takeValues (n + 1 - v.words) stack with
        | ok both =>
          obtain ⟨more, left⟩ := both
          constructor
          · rintro ⟨⟩
            exact ⟨more, rfl, rfl⟩
          · rintro ⟨_, rfl, ⟨⟩⟩
            rfl
        | error e =>
          constructor
          · intro h
            cases h
          · rintro ⟨_, _, ⟨⟩⟩
      · next wide =>
        constructor
        · intro h
          cases h
        · intro h
          exact absurd h.1 wide

/-! ## Parts of a stack

Both the analysis and the machine keep a stack in a frame, take words off it, and put entries back.
-/

/-- A stack kept in a state, from which entries are taken by the words that they cover. -/
structure WordStack (ε τ α : Type) where
  words : α → Nat
  positive : ∀ a, 1 ≤ words a
  stack : τ → List α
  withStack : τ → List α → τ
  stack_withStack : ∀ f l, stack (withStack f l) = l
  withStack_withStack : ∀ f l l', withStack (withStack f l) l' = withStack f l'
  take : Nat → EStateM ε τ (List α)
  take_iff : ∀ n f top f', take n f = .ok top f' ↔
    ∃ rest, stack f = top ++ rest ∧ total words top = n ∧ f' = withStack f rest
  put : List α → EStateM ε τ Unit
  put_eq : ∀ l f, put l f = .ok () (withStack f (l ++ stack f))

namespace WordStack

variable {ε τ : Type} (S : WordStack ε τ α) {f f' : τ} {n m : Nat}

/-- One part of a stack is dropped. -/
theorem drop_iff : (S.take n >>= fun _ => pure ()) f = .ok () f' ↔
    ∃ top below rest, S.stack f = top ++ (below ++ rest) ∧ total S.words top = n ∧ total S.words below = 0 ∧
      f' = S.withStack f rest := by
  simp only [bind_apply_eq_ok_iff, S.take_iff]
  constructor
  · rintro ⟨top, _, ⟨rest, same, covers, rfl⟩, ⟨⟩⟩
    exact ⟨top, [], rest, same, covers, rfl, rfl⟩
  · rintro ⟨top, below, rest, same, covers, none, rfl⟩
    obtain rfl := eq_nil_of_total S.positive none
    exact ⟨top, _, ⟨rest, same, covers, rfl⟩, rfl⟩

/-- Two parts of a stack are taken and put back in some order. -/
theorem rearrange_iff (order : List α → List α → List α) :
    (do let top ← S.take n; let below ← S.take m; S.put (order top below)) f = .ok () f' ↔
      ∃ top below rest, S.stack f = top ++ (below ++ rest) ∧ total S.words top = n ∧ total S.words below = m ∧
        f' = S.withStack f (order top below ++ rest) := by
  simp only [bind_apply_eq_ok_iff, S.take_iff]
  constructor
  · rintro ⟨top, _, ⟨more, same, first, rfl⟩, below, _, ⟨rest, left, second, rfl⟩, last⟩
    rw [S.stack_withStack] at left
    rw [S.put_eq, S.withStack_withStack, S.withStack_withStack, S.stack_withStack] at last
    cases last
    exact ⟨top, below, rest, left ▸ same, first, second, rfl⟩
  · rintro ⟨top, below, rest, same, first, second, rfl⟩
    refine ⟨top, _, ⟨_, same, first, rfl⟩, below, _, ⟨rest, S.stack_withStack _ _, second, rfl⟩, ?_⟩
    rw [S.put_eq, S.withStack_withStack, S.withStack_withStack, S.stack_withStack]

end WordStack

/-- The stack of a symbolic frame. -/
def SymFrame.wordStack : WordStack Fault SymFrame Tag where
  words := Tag.words
  positive := Tag.one_le_words
  stack := SymFrame.stack
  withStack f l := { f with stack := l }
  stack_withStack _ _ := rfl
  withStack_withStack _ _ _ := rfl
  take := popWords
  take_iff n f top f' := by
    simp only [← and_assoc, ← takeTags_iff]
    unfold popWords
    cases takeTags n f.stack with
    | ok top' rest =>
      constructor
      · rintro ⟨⟩
        exact ⟨rest, rfl, rfl⟩
      · rintro ⟨_, ⟨⟩, rfl⟩
        rfl
    | error e rest => exact iff_of_false nofun fun ⟨_, h, _⟩ => nomatch h
  put := pushAll
  put_eq _ _ := rfl

/-- The stack of a frame of the machine. -/
def Frame.wordStack : WordStack ExecError Frame Value where
  words := Value.words
  positive := Value.one_le_words
  stack := Frame.stack
  withStack f l := { f with stack := l }
  stack_withStack _ _ := rfl
  withStack_withStack _ _ _ := rfl
  take := popWords
  take_iff n f top f' := by
    simp only [← and_assoc, ← takeValues_iff]
    unfold popWords
    cases takeValues n f.stack with
    | ok both =>
      obtain ⟨top', rest⟩ := both
      constructor
      · rintro ⟨⟩
        exact ⟨rest, rfl, rfl⟩
      · rintro ⟨_, ⟨⟩, rfl⟩
        rfl
    | error e => exact iff_of_false nofun fun ⟨_, h, _⟩ => nomatch h
  put := pushAll
  put_eq _ _ := rfl

/-! ## The shuffles of the analysis and of the machine -/

/-- The analysis carries out a shuffle exactly if its words can be taken. -/
theorem Shuffle.apply_symOp_iff {s : Shuffle} {g g' : SymFrame} :
    s.symOp.apply g = .ok () g' ↔ ∃ stack, s.Turns Tag.words g.stack stack ∧ g' = { g with stack } := by
  rw [exists_turns_iff]
  cases s with
  | pop | pop2 => exact SymFrame.wordStack.drop_iff
  | swap => exact SymFrame.wordStack.rearrange_iff fun top below => below ++ top
  | _ => exact SymFrame.wordStack.rearrange_iff fun top below => top ++ below ++ top

namespace Frame

variable {f f' : Frame}

/-- But for a swap, the machine carries out a shuffle exactly if its words can be taken. -/
theorem shuffle_iff {s : Shuffle} (other : s ≠ .swap) :
    shuffle s f = .ok () f' ↔ ∃ stack, s.Turns Value.words f.stack stack ∧ f' = { f with stack } := by
  rw [Shuffle.exists_turns_iff]
  cases s with
  | pop | pop2 => exact wordStack.drop_iff
  | swap => exact absurd rfl other
  | _ => exact wordStack.rearrange_iff fun top below => top ++ below ++ top

theorem pop_iff {v : Value} : pop f = .ok v f' ↔ ∃ rest, f.stack = v :: rest ∧ f' = { f with stack := rest } := by
  unfold pop
  cases f.stack with
  | nil => exact iff_of_false nofun fun ⟨_, h, _⟩ => nomatch h
  | cons u rest =>
    constructor
    · rintro ⟨⟩
      exact ⟨rest, rfl, rfl⟩
    · rintro ⟨_, ⟨⟩, rfl⟩
      rfl

/-- The machine exchanges whatever two values it finds. -/
theorem swap_iff :
    shuffle .swap f = .ok () f' ↔ ∃ a b rest, f.stack = a :: b :: rest ∧ f' = { f with stack := b :: a :: rest } := by
  change swap f = .ok () f' ↔ _
  unfold swap
  simp only [bind_apply_eq_ok_iff, pop_iff]
  constructor
  · rintro ⟨a, _, ⟨more, same, rfl⟩, b, _, ⟨rest, left, rfl⟩, _, _, ⟨⟩, ⟨⟩⟩
    obtain rfl : more = b :: rest := left
    exact ⟨a, b, rest, same, rfl⟩
  · rintro ⟨a, b, rest, same, rfl⟩
    exact ⟨a, _, ⟨_, same, rfl⟩, b, _, ⟨rest, rfl, rfl⟩, _, _, rfl, rfl⟩

end Frame

/-- A swap exchanges two entries of one word each.  A part that covers one word is one entry. -/
theorem Shuffle.turns_swap_iff {words : α → Nat} (positive : ∀ a, 1 ≤ words a) {stack result : List α} :
    Shuffle.swap.Turns words stack result ↔
      ∃ a b rest, stack = a :: b :: rest ∧ words a = 1 ∧ words b = 1 ∧ result = b :: a :: rest := by
  have single {part : List α} : total words part = 1 ↔ ∃ a, part = [a] ∧ words a = 1 := by
    constructor
    · intro covers
      cases part with
      | nil => cases covers
      | cons a more =>
        rw [total_cons] at covers
        have := positive a
        obtain rfl := eq_nil_of_total positive (l := more) (by omega)
        exact ⟨a, rfl, by rw [total_nil] at covers; omega⟩
    · rintro ⟨a, rfl, one⟩
      rw [total_cons, one, total_nil]
  constructor
  · rintro ⟨top, below, rest, rfl, first, second, rfl⟩
    obtain ⟨a, rfl, one⟩ := single.1 first
    obtain ⟨b, rfl, one'⟩ := single.1 second
    exact ⟨a, b, rest, rfl, one, one', rfl⟩
  · rintro ⟨a, b, rest, rfl, one, one', rfl⟩
    exact ⟨[a], [b], rest, rfl, single.2 ⟨a, rfl, one⟩, single.2 ⟨b, rfl, one'⟩, rfl⟩

/-- The machine carries out the shuffles whose words can be taken, and swaps that the analysis refuses. -/
theorem Frame.shuffle_iff_of_not_overlooks {s : Shuffle} {f f' : Frame} (h : ¬s.Overlooks f.stack) :
    shuffle s f = .ok () f' ↔ ∃ stack, s.Turns Value.words f.stack stack ∧ f' = { f with stack } := by
  by_cases swaps : s = .swap
  · subst swaps
    have narrow {v : Value} (one : v.width ≠ .two) : v.words = 1 := by
      unfold Value.words
      cases width : v.width with
      | one => rfl
      | two => exact absurd width one
    rw [swap_iff]
    simp only [Shuffle.turns_swap_iff Value.one_le_words]
    constructor
    · rintro ⟨a, b, rest, same, rfl⟩
      have one : a.width ≠ .two := fun wide => h ⟨rfl, a, b, rest, same, .inl wide⟩
      have one' : b.width ≠ .two := fun wide => h ⟨rfl, a, b, rest, same, .inr wide⟩
      exact ⟨_, ⟨a, b, rest, same, narrow one, narrow one', rfl⟩, rfl⟩
    · rintro ⟨_, ⟨a, b, rest, same, -, -, rfl⟩, rfl⟩
      exact ⟨a, b, rest, same, rfl⟩
  · exact shuffle_iff swaps

theorem Shuffle.step_iff {s : Shuffle} {cls : Class} {host : Host σ} {f : Frame} {w : World σ} {flow : Flow}
    {t : Situation σ} : (Instr.plain (.shuffle s)).step cls host ⟨f, w⟩ = .ok flow t ↔
      ∃ f', Frame.shuffle s f = .ok () f' ∧ flow = .next ∧ t = ⟨f', w⟩ := by
  change ((liftM (Frame.shuffle s) : StepM σ Unit) >>= fun _ => (pure Flow.next : StepM σ Flow)) ⟨f, w⟩ = _ ↔ _
  rw [bind_apply, liftM_frame_apply]
  cases Frame.shuffle s f with
  | ok _ f' =>
    constructor
    · rintro ⟨⟩
      exact ⟨f', rfl, rfl, rfl⟩
    · rintro ⟨_, ⟨⟩, rfl, rfl⟩
      rfl
  | error e f' => exact iff_of_false nofun fun ⟨_, h, _⟩ => nomatch h

/-- The analysis refuses to swap two entries of which one has two words.  Of two tags of the same widths the one
that is wider than a word cannot be taken as one. -/
theorem SymFrame.split_of_swap {g : SymFrame} {a b : Value} {rest : List Value}
    (kinds : (a :: b :: rest).map Value.kind = g.stack.map Tag.kind) (wide : a.width = .two ∨ b.width = .two) :
    ∃ g', Shuffle.swap.symOp.apply g = .error .split g' := by
  obtain ⟨locals, _ | ⟨t, _ | ⟨u, more⟩⟩⟩ := g
  · simp at kinds
  · simp at kinds
  · simp only [List.map_cons, List.cons.injEq] at kinds
    rw [Value.width_of_kind kinds.1, Value.width_of_kind kinds.2.1] at wide
    have parted {t : Tag} (two : t.width = .two) (rest : List Tag) : takeTags 1 (t :: rest) = .error .split rest := by
      rw [takeTags, if_neg (by rw [Tag.words, two]; decide)]
    have taken {t : Tag} (one : t.width = .one) (rest : List Tag) : takeTags 1 (t :: rest) = .ok [t] rest :=
      takeTags_iff.2 ⟨rfl, by rw [total_cons, total_nil, Tag.words, one]; rfl⟩
    change ∃ g', SymFrame.swap ⟨locals, t :: u :: more⟩ = .error .split g'
    simp only [SymFrame.swap, bind_apply, SymFrame.popWords]
    cases first : t.width with
    | two =>
      rw [parted first]
      exact ⟨_, rfl⟩
    | one =>
      have second : u.width = .two := by
        rcases wide with wide | wide
        · rw [first] at wide
          cases wide
        · exact wide
      rw [taken first]
      simp only [parted second]
      exact ⟨_, rfl⟩

/-- Shuffles of values and of tags of the same kinds are shuffles of the pairs.  Pairing loses nothing: the
values and the tags are the two sides of the pairs. -/
theorem Shuffle.turns_pairs {s : Shuffle} {vs : List Value} {ts : List Tag}
    (kinds : vs.map Value.kind = ts.map Tag.kind) :
    (∀ result, s.Turns Value.words vs result ↔
        ∃ pairs, s.Turns (fun p => p.1.words) (vs.zip ts) pairs ∧ result = pairs.map (·.1)) ∧
      ∀ result, s.Turns Tag.words ts result ↔
        ∃ pairs, s.Turns (fun p => p.1.words) (vs.zip ts) pairs ∧ result = pairs.map (·.2) := by
  have length : vs.length = ts.length := by simpa using congrArg List.length kinds
  have values : (vs.zip ts).map (·.1) = vs := List.map_fst_zip (Nat.le_of_eq length)
  have tags : (vs.zip ts).map (·.2) = ts := List.map_snd_zip (Nat.le_of_eq length.symm)
  have same (p : Value × Tag) (hp : p ∈ vs.zip ts) : p.1.words = p.2.words := by
    obtain ⟨n, hn, rfl⟩ := List.mem_iff_getElem.1 hp
    rw [List.getElem_zip]
    refine Value.words_of_kind ?_
    have at_ := congrArg (·[n]?) kinds
    rw [List.length_zip] at hn
    simpa [List.getElem?_eq_getElem (show n < vs.length by omega),
      List.getElem?_eq_getElem (show n < ts.length by omega)] using at_
  constructor
  · refine fun result => ⟨fun turns => ?_, ?_⟩
    · rw [← values] at turns
      exact turns.lift
    · rintro ⟨pairs, turns, rfl⟩
      rw [← values]
      exact Turns.map turns
  · refine fun result => ⟨fun turns => ?_, ?_⟩
    · rw [← tags] at turns
      obtain ⟨pairs, lifted, rfl⟩ := turns.lift
      exact ⟨pairs, lifted.congr fun p hp => (same p hp).symm, rfl⟩
    · rintro ⟨pairs, turns, rfl⟩
      rw [← tags]
      exact Turns.map (turns.congr same)

/-- The machine and the analysis accept the same shuffles: if the words that a shuffle takes can be taken, both
carry it out, and values and tags, side by side, are shuffled as pairs; if they cannot, because there are too few or
because a value of two words would be parted, both fail.  The exception is a swap of two values of which one has two
words: the machine exchanges them, and the analysis refuses to part it. -/
theorem shuffles_agree (cls : Class) (host : Host σ) (s : Shuffle) (f : Frame) (g : SymFrame) (w : World σ)
    (kinds : f.stack.map Value.kind = g.stack.map Tag.kind) :
    (¬s.Overlooks f.stack →
      ((∃ flow t, (Instr.plain (.shuffle s)).step cls host ⟨f, w⟩ = .ok flow t) ↔ ∃ g', s.symOp.apply g = .ok () g') ∧
      ∀ flow t g', (Instr.plain (.shuffle s)).step cls host ⟨f, w⟩ = .ok flow t → s.symOp.apply g = .ok () g' →
        ∃ pairs, s.Turns (fun p => p.1.words) (f.stack.zip g.stack) pairs ∧ flow = .next ∧
          t = ⟨{ f with stack := pairs.map (·.1) }, w⟩ ∧ g' = { g with stack := pairs.map (·.2) }) ∧
    ((∃ g', s.symOp.apply g = .ok () g') ↔ ∃ result, s.Turns Tag.words g.stack result) ∧
    (s.Overlooks f.stack → (∃ t, (Instr.plain (.shuffle s)).step cls host ⟨f, w⟩ = .ok .next t) ∧
      ∃ g', s.symOp.apply g = .error .split g') := by
  obtain ⟨values, tags⟩ := Shuffle.turns_pairs (s := s) kinds
  refine ⟨fun heeds => ⟨?_, ?_⟩, ?_, ?_⟩
  · simp only [Shuffle.step_iff, Frame.shuffle_iff_of_not_overlooks heeds, Shuffle.apply_symOp_iff, values, tags]
    constructor
    · rintro ⟨_, _, _, ⟨_, ⟨pairs, turns, rfl⟩, rfl⟩, rfl, rfl⟩
      exact ⟨_, _, ⟨pairs, turns, rfl⟩, rfl⟩
    · rintro ⟨_, _, ⟨pairs, turns, rfl⟩, rfl⟩
      exact ⟨_, _, _, ⟨_, ⟨pairs, turns, rfl⟩, rfl⟩, rfl, rfl⟩
  · intro flow t g' stepped applied
    obtain ⟨f', shuffled, rfl, rfl⟩ := Shuffle.step_iff.1 stepped
    obtain ⟨_, carried, rfl⟩ := (Frame.shuffle_iff_of_not_overlooks heeds).1 shuffled
    obtain ⟨pairs, turns, rfl⟩ := (values _).1 carried
    refine ⟨pairs, turns, rfl, rfl, ?_⟩
    have tagged := Shuffle.apply_symOp_iff.2 ⟨_, (tags _).2 ⟨pairs, turns, rfl⟩, rfl⟩
    rw [tagged] at applied
    cases applied
    rfl
  · simp only [Shuffle.apply_symOp_iff]
    exact ⟨fun ⟨_, result, turns, _⟩ => ⟨result, turns⟩, fun ⟨result, turns⟩ => ⟨_, result, turns, rfl⟩⟩
  · rintro ⟨rfl, a, b, rest, stack, wide⟩
    refine ⟨⟨_, Shuffle.step_iff.2 ⟨_, Frame.swap_iff.2 ⟨a, b, rest, stack, rfl⟩, rfl, rfl⟩⟩, ?_⟩
    rw [stack] at kinds
    exact SymFrame.split_of_swap kinds wide

namespace Shuffles

/-- A frame with some values on its stack. -/
def frame (stack : List Value) : Frame where
  method := ⟨0, "execute", "()V", 0, {}⟩
  stack := stack

/-- A class without methods. -/
def idle : Class := ⟨0, "app/C", none, [], []⟩

/-- A world without objects. -/
def world : World Unit := { outside := () }

end Shuffles

/-- An int above a long is copied below the long, as a value and as a tag. -/
theorem intAboveLong_agrees : ∃ pairs : List (Value × Tag), pairs.map (·.1) = [.int 2, .long 1, .int 2] ∧
    (Instr.plain (.shuffle .dupX2)).step Shuffles.idle (Host.nothing Unit)
        ⟨Shuffles.frame [.int 2, .long 1], Shuffles.world⟩ =
      .ok .next ⟨Shuffles.frame (pairs.map (·.1)), Shuffles.world⟩ ∧
    Shuffle.dupX2.symOp.apply { stack := [.int, .long] } = .ok () { stack := pairs.map (·.2) } := by
  obtain ⟨both, -, -⟩ := shuffles_agree Shuffles.idle (Host.nothing Unit) .dupX2 (Shuffles.frame [.int 2, .long 1])
    { stack := [.int, .long] } Shuffles.world rfl
  have stepped : (Instr.plain (.shuffle .dupX2)).step Shuffles.idle (Host.nothing Unit)
      ⟨Shuffles.frame [.int 2, .long 1], Shuffles.world⟩ =
        .ok .next ⟨Shuffles.frame [.int 2, .long 1, .int 2], Shuffles.world⟩ := rfl
  have heeds : ¬Shuffle.dupX2.Overlooks [.int 2, .long 1] := fun h => nomatch h.1
  obtain ⟨same, pairwise⟩ := both heeds
  obtain ⟨g', applied⟩ := same.1 ⟨_, _, stepped⟩
  obtain ⟨pairs, -, -, values, rfl⟩ := pairwise _ _ g' stepped applied
  have stack : [.int 2, .long 1, .int 2] = pairs.map (·.1) := congrArg (·.frame.stack) values
  exact ⟨pairs, stack.symm, stack ▸ stepped, applied⟩

/-- A long below an int is exchanged with it by the machine, and refused by the analysis. -/
theorem swap_parts_long :
    [Value.int 2, .long 1].map Value.kind = [Tag.int, .long].map Tag.kind ∧
    (Instr.plain (.shuffle .swap)).step Shuffles.idle (Host.nothing Unit)
        ⟨Shuffles.frame [.int 2, .long 1], Shuffles.world⟩ =
      .ok .next ⟨Shuffles.frame [.long 1, .int 2], Shuffles.world⟩ ∧
    Shuffle.swap.symOp.apply { stack := [.int, .long] } = .error .split { stack := [] } := by
  exact ⟨rfl, rfl, rfl⟩

end Suspension
