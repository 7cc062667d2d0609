/-
# The shape of a line

A list of tokens has the right shape when

* no token is foreign,
* no two operands stand side by side, and
* an equals sign stands at most once, and then as the second token, right after a name.

Signs may stand anywhere, in any number.  The tokens are looked at from left to right and the
first one that breaks a rule is reported; what follows it does not matter.

While the tokens are looked at, three things are remembered of those already seen: the last of
them, how many they are, and the target of the assignment, once its equals sign has been seen.
-/
import SignedSum.Fault

namespace SignedSum

/-- What an assignment writes to. -/
structure Target where
  /-- The name to the left of the equals sign. -/
  name : String
  /-- The number of tokens up to the equals sign and with it; the others are to be evaluated. -/
  bodyStart : Nat
deriving DecidableEq

/-- What is remembered of the tokens already looked at. -/
structure Seen where
  /-- The last of them. -/
  last : Option Token := none
  /-- How many they are. -/
  count : Nat := 0
  /-- The target of the assignment. -/
  target : Option Target := none
deriving DecidableEq

namespace Seen

/-- The text of the last token, or nothing. -/
def lastText (seen : Seen) : String := (seen.last.map (·.text)).getD ""

/-- Whether the last token is an operand. -/
def endsInOperand (seen : Seen) : Bool := seen.last.any (·.kind.isOperand)

/-- The target that an equals sign here would write to: the name that is all there is so far. -/
def opening (seen : Seen) : Option Target :=
  match seen.last with
  | some t => if t.kind = .name ∧ seen.count = 1 then some ⟨t.text, seen.count + 1⟩ else none
  | none => none

/-- Looks at one more token. -/
def push (seen : Seen) (t : Token) : Except FormFault Seen :=
  let next : Seen := { seen with last := some t, count := seen.count + 1 }
  match t.kind with
  | .foreign => .error (.foreignToken t.text)
  | .equals =>
    if seen.target.isSome then .error .secondEquals
    else match seen.opening with
      | some target => .ok { next with target := some target }
      | none => .error (.misplacedEquals (seen.lastText ++ t.text))
  | .numeral | .name =>
    if seen.endsInOperand then .error (.missingSign (seen.lastText ++ t.text)) else .ok next
  | .sign _ => .ok next

end Seen

/-- Checks the shape of some tokens, and finds the target of their assignment, if they are one. -/
def checkShape (tokens : List Token) : Except FormFault (Option Target) := do
  let seen ← tokens.foldlM Seen.push {}
  return seen.target

end SignedSum
