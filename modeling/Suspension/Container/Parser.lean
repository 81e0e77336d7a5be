/-!
# Parsers of bytes

A parser takes a value off the front of a list of bytes and leaves the rest.  A failure says how many
bytes were left where it arose, so its place is known once the length of the whole input is; sections
around it are noted from the innermost outwards.

## Main definitions
* `Parser`, with its monad structure.
* `Parser.byte`, `Parser.take`, `Parser.times`: the primitive parsers.
* `Parser.inside`, `Parser.whole`, `Parser.enclosed`: sections, whole inputs, and inputs in inputs.
-/

namespace Suspension.Container

/-- Why bytes were refused. -/
inductive Reason where
  | endOfInput
  | unexpectedBytes
  | outOfRange
  | invalidText
  | unknownOpcode
  | invalidTag
  | lengthMismatch
  deriving DecidableEq, Repr

/-- The diagnostic for a reason. -/
def Reason.message : Reason → String
  | .endOfInput => "unexpected end of input"
  | .unexpectedBytes => "unexpected bytes"
  | .outOfRange => "integer out of range"
  | .invalidText => "invalid UTF-8 in name"
  | .unknownOpcode => "unknown opcode"
  | .invalidTag => "invalid tag"
  | .lengthMismatch => "length prefix does not match contents"

/-- The parts of a container that a failure is located in. -/
inductive Part where
  | magic
  | version
  | className
  | method
  | methodName
  | methodDescriptor
  | code
  | instruction
  | constant
  | tableSwitch
  | lookupSwitch
  | region
  deriving DecidableEq, Repr

/-- The name of a part in diagnostics. -/
def Part.name : Part → String
  | .magic => "magic"
  | .version => "version"
  | .className => "class name"
  | .method => "method"
  | .methodName => "method name"
  | .methodDescriptor => "method descriptor"
  | .code => "code"
  | .instruction => "instruction"
  | .constant => "ldc"
  | .tableSwitch => "tableswitch"
  | .lookupSwitch => "lookupswitch"
  | .region => "try-catch block"

/-- A failure: the number of bytes that were left, the reason, and the parts around it from the
innermost outwards. -/
structure Failure where
  remaining : Nat
  reason : Reason
  parts : List Part := []
  deriving DecidableEq, Repr

/-- Takes a value off the front of a list of bytes. -/
def Parser (α : Type) := List UInt8 → Except Failure (α × List UInt8)

namespace Parser

variable {α β : Type}

/-- Takes nothing. -/
def pure (a : α) : Parser α := fun bytes => .ok (a, bytes)

/-- One parser after another. -/
def bind (p : Parser α) (f : α → Parser β) : Parser β := fun bytes =>
  match p bytes with
  | .ok (a, rest) => f a rest
  | .error e => .error e

instance : Monad Parser where
  pure := pure
  bind := bind

/-- Refuses the input at its front. -/
def fail (reason : Reason) : Parser α := fun bytes => .error ⟨bytes.length, reason, []⟩

/-- Refuses the input at its front unless `p` finds a value that `f` accepts. -/
def filterMap (p : Parser α) (f : α → Option β) (reason : Reason) : Parser β := fun bytes =>
  match p bytes with
  | .ok (a, rest) =>
    match f a with
    | some b => .ok (b, rest)
    | none => .error ⟨bytes.length, reason, []⟩
  | .error e => .error e

/-- One byte. -/
def byte : Parser UInt8
  | [] => .error ⟨0, .endOfInput, []⟩
  | b :: rest => .ok (b, rest)

/-- The next `n` bytes. -/
def take (n : Nat) : Parser (List UInt8) := fun bytes =>
  let taken := bytes.take n
  if taken.length = n then .ok (taken, bytes.drop n) else .error ⟨bytes.length, .endOfInput, []⟩

/-- Exactly the given bytes. -/
def exactly (expected : List UInt8) : Parser Unit := fun bytes =>
  if expected.isPrefixOf bytes then .ok ((), bytes.drop expected.length)
  else .error ⟨bytes.length, .unexpectedBytes, []⟩

/-- The same parser `n` times. -/
def times (p : Parser α) : Nat → Parser (List α)
  | 0 => pure []
  | n + 1 => bind p fun a => bind (times p n) fun as => pure (a :: as)

/-- Notes the part that a failure of `p` lies in. -/
def inside (part : Part) (p : Parser α) : Parser α := fun bytes =>
  match p bytes with
  | .ok r => .ok r
  | .error e => .error { e with parts := e.parts ++ [part] }

/-- The value that `p` takes off the whole of the bytes. -/
def whole (p : Parser α) (bytes : List UInt8) : Except Failure α :=
  match p bytes with
  | .ok (a, []) => .ok a
  | .ok (_, rest) => .error ⟨rest.length, .endOfInput, []⟩
  | .error e => .error e

/-- The value that `p` takes off the whole of `inner`, which lies in front of the rest of the input;
a failure is located in the input. -/
def enclosed (p : Parser α) (inner : List UInt8) : Parser α := fun rest =>
  match whole p inner with
  | .ok a => .ok (a, rest)
  | .error e => .error { e with remaining := e.remaining + rest.length }

end Parser

end Suspension.Container
