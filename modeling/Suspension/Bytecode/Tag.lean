import Suspension.Text.Quoted

/-!
# Types of values

Values are sorted three ways: by the words they cover (`Width`), by the instructions that move them
(`Kind`), and by what is known of them before the code runs (`Tag`).

## Main definitions
* `Width`, `Kind`, `Storage`, `Tag`.
* `Tag.kind`, `Tag.castTarget`: how a value of a tag is stored, and what it is cast to when it is
  fetched back.
* `PrimArray`: the arrays of numbers, with their codes.
-/

namespace Suspension

/-- Index of a local slot. -/
abbrev Slot := UInt16

/-- The root of all classes. -/
def objectClass : String := "java/lang/Object"

/-- The root of everything that can be thrown. -/
def throwableClass : String := "java/lang/Throwable"

/-- The class of string constants. -/
def stringClass : String := "java/lang/String"

/-- The class of class constants. -/
def classClass : String := "java/lang/Class"

/-- Words that a value covers in the local slots and, for the shuffles, on the stack. -/
inductive Width where
  | one
  | two
  deriving DecidableEq, Repr

/-- The width as a number. -/
def Width.words : Width → Nat
  | .one => 1
  | .two => 2

/-- The sorts of values that a typed load or store names, and that a saved slot can hold. -/
inductive Storage where
  | int
  | long
  | float
  | double
  | reference
  deriving DecidableEq, Repr

/-- All storages. -/
def Storage.all : List Storage := [.int, .long, .float, .double, .reference]

theorem Storage.mem_all (s : Storage) : s ∈ all := by
  cases s <;> decide

/-- Storage class of a value: two values may meet at a join if and only if their kinds agree. -/
inductive Kind where
  | int
  | long
  | float
  | double
  | reference
  | address
  deriving DecidableEq, Repr

/-- The kind that a typed load or store moves. -/
def Storage.kind : Storage → Kind
  | .int => .int
  | .long => .long
  | .float => .float
  | .double => .double
  | .reference => .reference

/-- The storage a value of this kind is saved in; a return address cannot be saved. -/
def Kind.storage? : Kind → Option Storage
  | .int => some .int
  | .long => some .long
  | .float => some .float
  | .double => some .double
  | .reference => some .reference
  | .address => none

/-- The instructions that move a value of this kind; return addresses move like references. -/
def Kind.mover : Kind → Storage
  | .int => .int
  | .long => .long
  | .float => .float
  | .double => .double
  | .reference | .address => .reference

/-- The width of every value of a storage. -/
def Storage.width : Storage → Width
  | .long | .double => .two
  | .int | .float | .reference => .one

/-- What is known of a value without running the code.  A reference carries its class name, or its
descriptor if it is an array. -/
inductive Tag where
  | boolean
  | char
  | byte
  | short
  | int
  | float
  | long
  | double
  | address
  | null
  | ref (name : String)
  deriving DecidableEq, Repr

namespace Tag

/-- The tag of a reference of which nothing is known. -/
def object : Tag := .ref objectClass

/-- The words that a value covers. -/
def width : Tag → Width
  | .long | .double => .two
  | _ => .one

/-- Whether a value covers two words. -/
def isWide (t : Tag) : Bool := t.width = .two

/-- The words that a value covers, as a number. -/
def words (t : Tag) : Nat := t.width.words

/-- The storage class of a value. -/
def kind : Tag → Kind
  | .boolean | .char | .byte | .short | .int => .int
  | .float => .float
  | .long => .long
  | .double => .double
  | .address => .address
  | .null | .ref _ => .reference

/-- The class that a value is cast to when it is fetched back from where it was saved. -/
def castTarget : Tag → Option String
  | .ref name => if name = objectClass then none else some name
  | _ => none

/-- Short form, as in a descriptor where there is one. -/
def text : Tag → String
  | .boolean => "Z"
  | .char => "C"
  | .byte => "B"
  | .short => "S"
  | .int => "I"
  | .float => "F"
  | .long => "J"
  | .double => "D"
  | .address => "<address>"
  | .null => "null"
  | .ref name => name

/-- Long form, as used inside diagnostics. -/
def diagnostic : Tag → String
  | .boolean => "Boolean"
  | .char => "Char"
  | .byte => "Byte"
  | .short => "Short"
  | .int => "Int"
  | .float => "Float"
  | .long => "Long"
  | .double => "Double"
  | .address => "ReturnAddress"
  | .null => "Null"
  | .ref name => "Reference(" ++ Text.quoted name ++ ")"

end Tag

/-- Element types of the arrays of numbers. -/
inductive PrimArray where
  | boolean
  | char
  | float
  | double
  | byte
  | short
  | int
  | long
  deriving DecidableEq, Repr

namespace PrimArray

/-- All of them, by ascending code. -/
def all : List PrimArray := [.boolean, .char, .float, .double, .byte, .short, .int, .long]

/-- The code that stands for the element type in the container. -/
def code : PrimArray → UInt8
  | .boolean => 4
  | .char => 5
  | .float => 6
  | .double => 7
  | .byte => 8
  | .short => 9
  | .int => 10
  | .long => 11

/-- The element type of a code. -/
def ofCode? (code : UInt8) : Option PrimArray := all.find? (·.code == code)

/-- Descriptor of the array itself. -/
def descriptor : PrimArray → String
  | .boolean => "[Z"
  | .char => "[C"
  | .float => "[F"
  | .double => "[D"
  | .byte => "[B"
  | .short => "[S"
  | .int => "[I"
  | .long => "[J"

@[simp] theorem ofCode?_code (k : PrimArray) : ofCode? k.code = some k := by
  cases k <;> rfl

theorem code_of_ofCode? {c : UInt8} {k : PrimArray} (h : ofCode? c = some k) : k.code = c := by
  simpa using List.find?_some h

end PrimArray

/-- The form of a class name inside the container: packages are separated by slashes. -/
def internalName (name : String) : String := name.map fun c => if c = '.' then '/' else c

/-- Descriptor of an array whose elements are of the class or array type `element`. -/
def arrayOf (element : String) : String :=
  if element.startsWith "[" then "[" ++ element else "[L" ++ element ++ ";"

end Suspension
