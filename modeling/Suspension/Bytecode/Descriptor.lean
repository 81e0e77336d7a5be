import Suspension.Bytecode.Tag
import Suspension.Total

/-!
# Descriptors

The textual types of fields and methods.  A field type is one of eight letters, `L` *name* `;` with a
name that is not empty and holds no semicolon, or any number of `[` in front of one of these.  A
method type lists the types of its parameters between parentheses, then the type of its result, or
`V` for none.

## Main definitions
* `fieldType?`: reads one field type off the front of a text.
* `Tag.ofDescriptor`, `Signature.parse`: read a whole text.
* `Tag.component`: the type of the elements of an array type.
-/

namespace Suspension

/-- A text that is no descriptor. -/
structure MalformedDescriptor where
  text : String
  deriving DecidableEq, Repr

/-- The diagnostic for a text that is no descriptor. -/
def MalformedDescriptor.message (e : MalformedDescriptor) : String :=
  "malformed descriptor `" ++ e.text ++ "`"

/-- The types written as one letter. -/
def primitive? : Char → Option Tag
  | 'Z' => some .boolean
  | 'C' => some .char
  | 'B' => some .byte
  | 'S' => some .short
  | 'I' => some .int
  | 'F' => some .float
  | 'J' => some .long
  | 'D' => some .double
  | _ => none

/-- The name in front of a semicolon, which has to be there, and what follows the semicolon. -/
def className? (cs : List Char) : Option (List Char × List Char) :=
  match cs.takeWhile (· ≠ ';'), cs.dropWhile (· ≠ ';') with
  | c :: name, _ :: rest => some (c :: name, rest)
  | _, _ => none

/-- What an array may have as its innermost elements: its text and what follows it. -/
def element? : List Char → Option (List Char × List Char)
  | [] => none
  | c :: rest =>
    if (primitive? c).isSome then some ([c], rest)
    else if c = 'L' then (className? rest).map fun (name, rest) => ('L' :: name ++ [';'], rest)
    else none

/-- Reads one field type off the front of a text. -/
def fieldType? : List Char → Option (Tag × List Char)
  | [] => none
  | c :: rest =>
    match primitive? c with
    | some t => some (t, rest)
    | none =>
      if c = 'L' then (className? rest).map fun (name, rest) => (.ref (String.ofList name), rest)
      else if c = '[' then
        let dims := '[' :: rest.takeWhile (· = '[')
        (element? (rest.dropWhile (· = '['))).map fun (elem, rest) =>
          (.ref (String.ofList (dims ++ elem)), rest)
      else none

theorem length_className? {cs name rest : List Char} (h : className? cs = some (name, rest)) :
    rest.length < cs.length := by
  have hlen := congrArg List.length (List.takeWhile_append_dropWhile (p := (· ≠ ';')) (l := cs))
  unfold className? at h
  split at h
  · rename_i h1 h2
    simp only [Option.some.injEq, Prod.mk.injEq] at h
    rw [h1, h2] at hlen
    simp only [List.length_append, List.length_cons] at hlen
    rw [← h.2]
    omega
  · simp at h

theorem length_element? {cs elem rest : List Char} (h : element? cs = some (elem, rest)) :
    rest.length < cs.length := by
  cases cs with
  | nil => simp [element?] at h
  | cons c cs =>
    simp only [element?] at h
    split at h
    · simp only [Option.some.injEq, Prod.mk.injEq] at h
      simp [← h.2]
    · split at h
      · obtain ⟨⟨name, r⟩, hr, he⟩ := Option.map_eq_some_iff.1 h
        have := length_className? hr
        simp only [Prod.mk.injEq] at he
        rw [← he.2]
        simp only [List.length_cons]
        omega
      · simp at h

/-- Reading a field type consumes at least one character. -/
theorem length_fieldType? {cs rest : List Char} {t : Tag} (h : fieldType? cs = some (t, rest)) :
    rest.length < cs.length := by
  cases cs with
  | nil => simp [fieldType?] at h
  | cons c cs =>
    simp only [fieldType?] at h
    split at h
    · simp only [Option.some.injEq, Prod.mk.injEq] at h
      simp [← h.2]
    · split at h
      · obtain ⟨⟨name, r⟩, hr, he⟩ := Option.map_eq_some_iff.1 h
        have := length_className? hr
        simp only [Prod.mk.injEq] at he
        rw [← he.2]
        simp only [List.length_cons]
        omega
      · split at h
        · obtain ⟨⟨elem, r⟩, hr, he⟩ := Option.map_eq_some_iff.1 h
          have h1 := length_element? hr
          have h2 : (cs.dropWhile (· = '[')).length ≤ cs.length :=
            (List.dropWhile_sublist _).length_le
          simp only [Prod.mk.injEq] at he
          rw [← he.2]
          simp only [List.length_cons]
          omega
        · simp at h

/-- Reads as many field types as there are off the front of a text. -/
def fieldTypes (cs : List Char) : List Tag × List Char :=
  match h : fieldType? cs with
  | none => ([], cs)
  | some (t, rest) =>
    have : rest.length < cs.length := length_fieldType? h
    let more := fieldTypes rest
    (t :: more.1, more.2)
termination_by cs.length

/-- The type written by the whole of a text. -/
def Tag.ofDescriptor (text : String) : Except MalformedDescriptor Tag :=
  match fieldType? text.toList with
  | some (t, []) => .ok t
  | _ => .error ⟨text⟩

/-- The type of the elements, for the descriptor of an array. -/
def Tag.component : Tag → Option Tag
  | .ref name =>
    match name.toList with
    | '[' :: element =>
      match fieldType? element with
      | some (t, []) => some t
      | _ => none
    | _ => none
  | _ => none

/-- Parameter types and result type of a method. -/
structure Signature where
  params : List Tag
  result : Option Tag
  deriving DecidableEq, Repr

namespace Signature

/-- The result type at the end of a method type. -/
def resultType? : List Char → Option (Option Tag)
  | ['V'] => some none
  | cs =>
    match fieldType? cs with
    | some (t, []) => some (some t)
    | _ => none

/-- The signature written by a list of characters. -/
def ofChars? : List Char → Option Signature
  | '(' :: cs =>
    match fieldTypes cs with
    | (params, ')' :: rest) => (resultType? rest).map (⟨params, ·⟩)
    | _ => none
  | _ => none

/-- The signature written by the whole of a text. -/
def parse (text : String) : Except MalformedDescriptor Signature :=
  match ofChars? text.toList with
  | some s => .ok s
  | none => .error ⟨text⟩

/-- Slots that the parameters occupy. -/
def slots (s : Signature) : Nat := total Tag.words s.params

end Signature

end Suspension
