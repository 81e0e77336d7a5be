import Suspension.Text.Shapeless

/-!
# Quoted text

Names inside diagnostics are written between double quotes.  A quote, a backslash and every
character without a shape of its own are written as escapes, so that a quoted name shows exactly
which characters it holds.

## Main definitions
* `quoted`: a text between quotes.
-/

namespace Suspension.Text

/-- One character of a quoted text. -/
def escape (c : Char) : List Char :=
  match c with
  | '"' => ['\\', '"']
  | '\\' => ['\\', '\\']
  | '\n' => ['\\', 'n']
  | '\r' => ['\\', 'r']
  | '\t' => ['\\', 't']
  | '\x00' => ['\\', '0']
  | c => if isShapeless c then ['\\', 'u', '\x7b'] ++ Nat.toDigits 16 c.toNat ++ ['\x7d'] else [c]

/-- `s` between double quotes, with escapes. -/
def quoted (s : String) : String :=
  String.ofList ('"' :: s.toList.flatMap escape ++ ['"'])

end Suspension.Text
