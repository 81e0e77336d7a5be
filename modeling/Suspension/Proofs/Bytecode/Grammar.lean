import Mathlib.Data.List.Basic
import Mathlib.Data.List.TakeWhile
import Suspension.Bytecode.Descriptor

/-!
# The grammar of descriptors

A field type is a letter or a class name between `L` and a semicolon, behind any number of brackets.  A method
type lists field types between parentheses, and then gives the type of its result or `V`.  The readers accept
the texts of these forms and no others, and read each as the types that its form means.  Types can be written
again, and come out as they were read unless the name of a class looks like an array.

## Main definitions
* `ClassName`, `ElementForm`, `FieldForm`, `MethodForm`: what a descriptor may look like, with its text and the
  types that it means.
* `Tag.written`, `Signature.written`: types as text.

## Main results
* `fieldType?_eq_some`, `fieldTypes_eq`: what is read off the front of a text.
* `descriptors_read`: the readers accept the grammar, and nothing else.
-/

namespace Suspension

/-! ## Forms and their texts -/

/-- The name of a class as it stands in front of a semicolon. -/
structure ClassName where
  chars : List Char
  nonempty : chars ≠ []
  closed : ';' ∉ chars
  deriving DecidableEq

namespace PrimArray

/-- The letter of an element type. -/
def letter : PrimArray → Char
  | .boolean => 'Z'
  | .char => 'C'
  | .byte => 'B'
  | .short => 'S'
  | .int => 'I'
  | .float => 'F'
  | .long => 'J'
  | .double => 'D'

/-- The tag of an element. -/
def tag : PrimArray → Tag
  | .boolean => .boolean
  | .char => .char
  | .byte => .byte
  | .short => .short
  | .int => .int
  | .float => .float
  | .long => .long
  | .double => .double

end PrimArray

/-- What an array may have as its innermost elements. -/
inductive ElementForm where
  | primitive (k : PrimArray)
  | object (name : ClassName)
  deriving DecidableEq

/-- The text of an element. -/
def ElementForm.text : ElementForm → List Char
  | .primitive k => [k.letter]
  | .object name => 'L' :: name.chars ++ [';']

/-- A field type: an element behind some brackets. -/
structure FieldForm where
  dims : Nat
  element : ElementForm
  deriving DecidableEq

namespace FieldForm

/-- The text of a field type. -/
def text (f : FieldForm) : List Char := List.replicate f.dims '[' ++ f.element.text

/-- What a field type means.  An array is named by its own text. -/
def tag (f : FieldForm) : Tag :=
  match f.dims, f.element with
  | 0, .primitive k => k.tag
  | 0, .object name => .ref (String.ofList name.chars)
  | _ + 1, _ => .ref (String.ofList f.text)

/-- A field type that is no object whose name begins like an array. -/
def Plain (f : FieldForm) : Prop :=
  ∀ name, f = ⟨0, .object name⟩ → name.chars.head? ≠ some '['

end FieldForm

/-- A method type. -/
structure MethodForm where
  params : List FieldForm
  result : Option FieldForm
  deriving DecidableEq

namespace MethodForm

/-- The text of a method type. -/
def text (m : MethodForm) : List Char :=
  '(' :: m.params.flatMap FieldForm.text ++ ')' :: m.result.elim ['V'] FieldForm.text

/-- What a method type means. -/
def signature (m : MethodForm) : Signature := ⟨m.params.map FieldForm.tag, m.result.map FieldForm.tag⟩

/-- A method type of which no object has a name that begins like an array. -/
def Plain (m : MethodForm) : Prop := (∀ f ∈ m.params, f.Plain) ∧ ∀ f ∈ m.result, f.Plain

end MethodForm

/-! ## Types as text -/

/-- The text of a type.  A reference whose name begins with a bracket is an array, and named by its own text. -/
def Tag.written : Tag → List Char
  | .ref name => if name.toList.head? = some '[' then name.toList else 'L' :: name.toList ++ [';']
  | t => t.text.toList

/-- The text of a signature. -/
def Signature.written (s : Signature) : List Char :=
  '(' :: s.params.flatMap Tag.written ++ ')' :: s.result.elim ['V'] Tag.written

theorem FieldForm.written_tag {f : FieldForm} (plain : f.Plain) : f.tag.written = f.text := by
  obtain ⟨_ | n, element⟩ := f
  · cases element with
    | primitive k => cases k <;> rfl
    | object name =>
      have ordinary : name.chars.head? ≠ some '[' := plain name rfl
      simp [tag, Tag.written, text, ElementForm.text, ordinary]
  · simp [tag, Tag.written, text, List.replicate_succ]

theorem MethodForm.written_signature {m : MethodForm} (plain : m.Plain) : m.signature.written = m.text := by
  obtain ⟨params, result⟩ := m
  obtain ⟨ordinary, last⟩ := plain
  have front : (params.map FieldForm.tag).flatMap Tag.written = params.flatMap FieldForm.text := by
    rw [List.flatMap_map]
    exact List.flatMap_congr fun f hf => FieldForm.written_tag (ordinary f hf)
  have back : (result.map FieldForm.tag).elim ['V'] Tag.written = result.elim ['V'] FieldForm.text := by
    cases result with
    | none => rfl
    | some f => exact FieldForm.written_tag (last f rfl)
  simp only [signature, Signature.written, text, front, back]

/-! ## What is read off the front of a text -/

/-- A list is cut in front of the first element that does not have a property. -/
theorem takeWhile_dropWhile_eq_iff {α : Type} {p : α → Bool} {l front rest : List α} :
    l.takeWhile p = front ∧ l.dropWhile p = rest ↔
      l = front ++ rest ∧ (∀ x ∈ front, p x = true) ∧ ∀ x ∈ rest.head?, p x = false := by
  constructor
  · rintro ⟨rfl, rfl⟩
    refine ⟨List.takeWhile_append_dropWhile.symm, fun x hx => List.mem_takeWhile_imp hx, fun x hx => ?_⟩
    have stops := List.head?_dropWhile_not p l
    rw [Option.mem_def.1 hx] at stops
    simpa using stops
  · rintro ⟨rfl, inside, stops⟩
    rw [List.takeWhile_append_of_pos inside, List.dropWhile_append_of_pos inside]
    cases rest with
    | nil => simp
    | cons x rest =>
      have outside : ¬ p x = true := by simp [stops x rfl]
      rw [List.takeWhile_cons_of_neg outside, List.dropWhile_cons_of_neg outside, List.append_nil]
      exact ⟨rfl, rfl⟩

theorem primitive?_eq_some {c : Char} {t : Tag} :
    primitive? c = some t ↔ ∃ k : PrimArray, c = k.letter ∧ t = k.tag := by
  constructor
  · intro h
    unfold primitive? at h
    split at h
    · exact ⟨.boolean, rfl, (Option.some.inj h).symm⟩
    · exact ⟨.char, rfl, (Option.some.inj h).symm⟩
    · exact ⟨.byte, rfl, (Option.some.inj h).symm⟩
    · exact ⟨.short, rfl, (Option.some.inj h).symm⟩
    · exact ⟨.int, rfl, (Option.some.inj h).symm⟩
    · exact ⟨.float, rfl, (Option.some.inj h).symm⟩
    · exact ⟨.long, rfl, (Option.some.inj h).symm⟩
    · exact ⟨.double, rfl, (Option.some.inj h).symm⟩
    · cases h
  · rintro ⟨k, rfl, rfl⟩
    cases k <;> rfl

@[simp] theorem primitive?_letter (k : PrimArray) : primitive? k.letter = some k.tag :=
  primitive?_eq_some.2 ⟨k, rfl, rfl⟩

/-- A name is what stands in front of the first semicolon.  The reader cuts there, so the name holds no
semicolon itself. -/
theorem className?_eq_some {cs name rest : List Char} :
    className? cs = some (name, rest) ↔ ∃ n : ClassName, name = n.chars ∧ cs = n.chars ++ ';' :: rest := by
  constructor
  · intro h
    unfold className? at h
    split at h
    · next c front semicolon back taken dropped =>
      cases h
      obtain ⟨rfl, inside, stops⟩ := takeWhile_dropWhile_eq_iff.1 ⟨taken, dropped⟩
      obtain rfl : semicolon = ';' := by simpa using stops semicolon rfl
      have closed : ';' ∉ c :: front := fun there => by simpa using inside ';' there
      exact ⟨⟨c :: front, List.cons_ne_nil c front, closed⟩, rfl, rfl⟩
    · cases h
  · rintro ⟨n, rfl, rfl⟩
    have inside : ∀ x ∈ n.chars, decide (x ≠ ';') = true := fun x hx => by
      simpa using fun same : x = ';' => n.closed (same ▸ hx)
    have cut : n.chars ++ ';' :: rest = n.chars ++ ';' :: rest ∧ (∀ x ∈ n.chars, decide (x ≠ ';') = true) ∧
        ∀ x ∈ (';' :: rest).head?, decide (x ≠ ';') = false := ⟨rfl, inside, by simp⟩
    obtain ⟨taken, dropped⟩ := takeWhile_dropWhile_eq_iff.2 cut
    obtain ⟨c, front, chars⟩ := List.exists_cons_of_ne_nil n.nonempty
    rw [className?, taken, dropped, chars]

/-- An element type is read by its letter: that of a primitive type, or the `L` in front of a name. -/
theorem element?_eq_some {cs elem rest : List Char} :
    element? cs = some (elem, rest) ↔ ∃ e : ElementForm, elem = e.text ∧ cs = e.text ++ rest := by
  constructor
  · intro h
    cases cs with
    | nil => cases h
    | cons c cs =>
      rw [element?] at h
      split at h
      · next letter =>
        cases h
        obtain ⟨t, ht⟩ := Option.isSome_iff_exists.1 letter
        obtain ⟨k, rfl, -⟩ := primitive?_eq_some.1 ht
        exact ⟨.primitive k, rfl, rfl⟩
      · split at h
        · next object =>
          subst object
          obtain ⟨⟨name, rest'⟩, named, e⟩ := Option.map_eq_some_iff.1 h
          cases e
          obtain ⟨n, rfl, rfl⟩ := className?_eq_some.1 named
          exact ⟨.object n, rfl, by simp [ElementForm.text]⟩
        · cases h
  · rintro ⟨e, rfl, rfl⟩
    cases e with
    | primitive k => simp [ElementForm.text, element?]
    | object name =>
      have named : className? (name.chars ++ ';' :: rest) = some (name.chars, rest) :=
        className?_eq_some.2 ⟨name, rfl, rfl⟩
      have other : primitive? 'L' = none := rfl
      simp [ElementForm.text, element?, other, named]

/-- No element begins with a bracket. -/
theorem ElementForm.head_ne (e : ElementForm) (rest : List Char) :
    ∀ c ∈ (e.text ++ rest).head?, decide (c = '[') = false := by
  cases e with
  | primitive k => cases k <;> simp [ElementForm.text, PrimArray.letter]
  | object name => simp [ElementForm.text]

/-- A field type is read off the front of a text if and only if the text begins with the text of a form.  The
first character decides; brackets are taken all at once, and taking stops at the element, which does not begin
with one. -/
theorem fieldType?_eq_some {cs rest : List Char} {t : Tag} :
    fieldType? cs = some (t, rest) ↔ ∃ f : FieldForm, t = f.tag ∧ cs = f.text ++ rest := by
  constructor
  · intro h
    cases cs with
    | nil => cases h
    | cons c cs =>
      rw [fieldType?] at h
      split at h
      · next t' ht =>
        cases h
        obtain ⟨k, rfl, rfl⟩ := primitive?_eq_some.1 ht
        exact ⟨⟨0, .primitive k⟩, rfl, rfl⟩
      · split at h
        · next object =>
          subst object
          obtain ⟨⟨name, rest'⟩, named, e⟩ := Option.map_eq_some_iff.1 h
          cases e
          obtain ⟨n, rfl, rfl⟩ := className?_eq_some.1 named
          exact ⟨⟨0, .object n⟩, rfl, by simp [FieldForm.text, ElementForm.text]⟩
        · split at h
          · next array =>
            subst array
            obtain ⟨⟨elem, rest'⟩, read, e⟩ := Option.map_eq_some_iff.1 h
            cases e
            obtain ⟨e, rfl, dropped⟩ := element?_eq_some.1 read
            obtain ⟨split, brackets, -⟩ := takeWhile_dropWhile_eq_iff.1 ⟨rfl, dropped⟩
            have all : cs.takeWhile (· = '[') = List.replicate (cs.takeWhile (· = '[')).length '[' :=
              List.eq_replicate_iff.2 ⟨rfl, fun x hx => by simpa using brackets x hx⟩
            refine ⟨⟨(cs.takeWhile (· = '[')).length + 1, e⟩, ?_, ?_⟩
            · rw [FieldForm.tag, FieldForm.text, List.replicate_succ, ← all]
            · rw [FieldForm.text, List.replicate_succ, ← all, List.append_assoc, List.cons_append, ← split]
          · cases h
  · rintro ⟨⟨_ | n, element⟩, rfl, rfl⟩
    · cases element with
      | primitive k => simp [FieldForm.text, FieldForm.tag, ElementForm.text, fieldType?]
      | object name =>
        have named : className? (name.chars ++ ';' :: rest) = some (name.chars, rest) :=
          className?_eq_some.2 ⟨name, rfl, rfl⟩
        have other : primitive? 'L' = none := rfl
        simp [FieldForm.text, FieldForm.tag, ElementForm.text, fieldType?, other, named]
    · have read : element? (element.text ++ rest) = some (element.text, rest) :=
        element?_eq_some.2 ⟨element, rfl, rfl⟩
      have other : primitive? '[' = none := rfl
      have brackets : ∀ x ∈ List.replicate n '[', decide (x = '[') = true := fun x hx => by
        simpa using (List.mem_replicate.1 hx).2
      obtain ⟨taken, dropped⟩ := takeWhile_dropWhile_eq_iff.2 ⟨rfl, brackets, element.head_ne rest⟩
      rw [FieldForm.tag, FieldForm.text, List.replicate_succ, List.cons_append, List.cons_append,
        List.append_assoc, fieldType?]
      simp [other, taken, dropped, read]

/-- As many field types are read as there are in front of what is no field type.  The reader only says how much
it leaves, so the induction is on the types read; it cannot stop before the last of them, as each form in front
is read. -/
theorem fieldTypes_eq {cs rest : List Char} {ts : List Tag} :
    fieldTypes cs = (ts, rest) ↔ fieldType? rest = none ∧
      ∃ fs : List FieldForm, ts = fs.map FieldForm.tag ∧ cs = fs.flatMap FieldForm.text ++ rest := by
  constructor
  · intro h
    induction ts generalizing cs with
    | nil =>
      rw [fieldTypes] at h
      split at h
      · next stops =>
        cases h
        exact ⟨stops, [], rfl, rfl⟩
      · cases h
    | cons t ts ih =>
      rw [fieldTypes] at h
      split at h
      · cases h
      · next t' behind first =>
        simp only [Prod.mk.injEq, List.cons.injEq] at h
        obtain ⟨⟨rfl, others⟩, left⟩ := h
        obtain ⟨stops, fs, rfl, rfl⟩ := ih (Prod.ext others left)
        obtain ⟨f, rfl, rfl⟩ := fieldType?_eq_some.1 first
        exact ⟨stops, f :: fs, rfl, by rw [List.flatMap_cons, List.append_assoc]⟩
  · rintro ⟨stops, fs, rfl, rfl⟩
    induction fs with
    | nil =>
      rw [fieldTypes]
      split
      · rfl
      · next first => cases stops.symm.trans first
    | cons f fs ih =>
      have first : fieldType? ((f :: fs).flatMap FieldForm.text ++ rest) =
          some (f.tag, fs.flatMap FieldForm.text ++ rest) :=
        fieldType?_eq_some.2 ⟨f, rfl, by rw [List.flatMap_cons, List.append_assoc]⟩
      rw [fieldTypes]
      split
      · next none => cases first.symm.trans none
      · next t behind found =>
        cases first.symm.trans found
        simp only [ih, List.map_cons]

namespace Signature

/-- A result is a field type, or the letter of no result, which is not the text of a form. -/
theorem resultType?_eq_some {cs : List Char} {r : Option Tag} :
    resultType? cs = some r ↔
      ∃ f : Option FieldForm, r = f.map FieldForm.tag ∧ cs = f.elim ['V'] FieldForm.text := by
  constructor
  · intro h
    unfold resultType? at h
    split at h
    · cases h
      exact ⟨none, rfl, rfl⟩
    · split at h
      · next t found =>
        cases h
        obtain ⟨f, rfl, rfl⟩ := fieldType?_eq_some.1 found
        exact ⟨some f, rfl, List.append_nil _⟩
      · cases h
  · rintro ⟨_ | f, rfl, rfl⟩
    · rfl
    · have found : fieldType? f.text = some (f.tag, []) :=
        fieldType?_eq_some.2 ⟨f, rfl, (List.append_nil _).symm⟩
      unfold resultType?
      split
      · next void =>
        have void : f.text = ['V'] := void
        rw [void] at found
        cases found
      · simp only [Option.elim_some, found, Option.map_some]

theorem ofChars?_eq_some {cs : List Char} {s : Signature} :
    ofChars? cs = some s ↔ ∃ m : MethodForm, s = m.signature ∧ cs = m.text := by
  constructor
  · intro h
    unfold ofChars? at h
    split at h
    · split at h
      · next params rest listed =>
        obtain ⟨r, read, rfl⟩ := Option.map_eq_some_iff.1 h
        obtain ⟨-, fs, rfl, rfl⟩ := fieldTypes_eq.1 listed
        obtain ⟨f, rfl, rfl⟩ := resultType?_eq_some.1 read
        exact ⟨⟨fs, f⟩, rfl, rfl⟩
      · cases h
    · cases h
  · rintro ⟨⟨params, result⟩, rfl, rfl⟩
    have read : resultType? (result.elim ['V'] FieldForm.text) = some (result.map FieldForm.tag) :=
      resultType?_eq_some.2 ⟨result, rfl, rfl⟩
    have listed : fieldTypes (params.flatMap FieldForm.text ++ ')' :: result.elim ['V'] FieldForm.text) =
        (params.map FieldForm.tag, ')' :: result.elim ['V'] FieldForm.text) :=
      fieldTypes_eq.2 ⟨rfl, params, rfl, rfl⟩
    simp only [MethodForm.text, List.cons_append, ofChars?, listed, read, Option.map_some, MethodForm.signature]

end Signature

/-- The readers of descriptors accept the grammar, and nothing else.  A field type is read if and only if it is
the text of a form, and a method type likewise, as the types that the form means.  The types of a method type
that is plain, written again, are the text that they were read from; so two such texts mean different types. -/
theorem descriptors_read :
    (∀ (text : String) (t : Tag),
      Tag.ofDescriptor text = .ok t ↔ ∃ f : FieldForm, t = f.tag ∧ text.toList = f.text) ∧
    (∀ (text : String) (s : Signature),
      Signature.parse text = .ok s ↔ ∃ m : MethodForm, s = m.signature ∧ text.toList = m.text) ∧
    (∀ (text : String) (m : MethodForm), text.toList = m.text → m.Plain →
      ∃ s, Signature.parse text = .ok s ∧ s.written = text.toList) ∧
    ∀ (text text' : String) (m m' : MethodForm), text.toList = m.text → text'.toList = m'.text → m.Plain → m'.Plain →
      text ≠ text' → Signature.parse text ≠ Signature.parse text' := by
  have signatures (text : String) (s : Signature) :
      Signature.parse text = .ok s ↔ ∃ m : MethodForm, s = m.signature ∧ text.toList = m.text := by
    rw [← Signature.ofChars?_eq_some, Signature.parse]
    cases Signature.ofChars? text.toList <;> simp
  have rewritten (text : String) (m : MethodForm) (form : text.toList = m.text) (plain : m.Plain) :
      ∃ s, Signature.parse text = .ok s ∧ s.written = text.toList :=
    ⟨m.signature, (signatures text _).2 ⟨m, rfl, form⟩, by rw [form, MethodForm.written_signature plain]⟩
  refine ⟨fun text t => ?_, signatures, rewritten, fun text text' m m' form form' plain plain' ne same => ne ?_⟩
  · have whole : Tag.ofDescriptor text = .ok t ↔ fieldType? text.toList = some (t, []) := by
      unfold Tag.ofDescriptor
      constructor
      · intro h
        split at h
        · next found =>
          cases h
          exact found
        · cases h
      · intro found
        rw [found]
    rw [whole, fieldType?_eq_some]
    simp only [List.append_nil]
  · obtain ⟨s, read, written⟩ := rewritten text m form plain
    obtain ⟨s', read', written'⟩ := rewritten text' m' form' plain'
    cases read.symm.trans (same.trans read')
    exact String.toList_inj.1 (written.symm.trans written')

/-- A method of a long, of an array of arrays and of an object is read, and written as it was. -/
theorem descriptors_read_objects :
    ∃ s, Signature.parse "(J[[La/B;Lc;)V" = .ok s ∧ s.written = "(J[[La/B;Lc;)V".toList := by
  refine descriptors_read.2.2.1 "(J[[La/B;Lc;)V"
    ⟨[⟨0, .primitive .long⟩, ⟨2, .object ⟨['a', '/', 'B'], by decide, by decide⟩⟩,
      ⟨0, .object ⟨['c'], by decide, by decide⟩⟩], none⟩ (by decide) ⟨?_, by simp⟩
  rintro f mem name rfl
  obtain rfl : name = ⟨['c'], by decide, by decide⟩ := by simpa using mem
  decide

/-- A name that looks like an array is read as that array. -/
example : Tag.ofDescriptor "L[I;" = Tag.ofDescriptor "[I" := by decide

end Suspension
