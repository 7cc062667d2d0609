/-
# Faults

A line can fail in two ways: it has no form, or it has no value.  Each fault is recorded by its
cause, with the words of the line that show it, and the sentence that is printed is made from
the cause in one place.

For the log every fault also has a name and named fields.  They group the causes more coarsely:
all the ways in which a sum can be out of balance have one name and differ in a detail, and a
numeral that is too long shares its name with a sum that is too large.
-/
import SignedSum.Token
import SignedSum.Text.Quoted

namespace SignedSum

open Text (quoted quotedChar record)

/-! ## Faults of form -/

/-- Why a line, or a list of tokens, has no form. -/
inductive FormFault where
  /-- The first character that no word is made of, and the whole line. -/
  | foreignChar (c : Char) (line : String)
  /-- A run of characters that stands for no single operator. -/
  | mixedRun (run : String)
  /-- A token of the foreign kind. -/
  | foreignToken (text : String)
  /-- An equals sign after the one of the assignment. -/
  | secondEquals
  /-- An equals sign that does not follow a name at the start; its neighbourhood. -/
  | misplacedEquals (found : String)
  /-- Two operands with no operator between them, written together. -/
  | missingSign (found : String)
deriving DecidableEq

namespace FormFault

/-- The sentence that is printed. -/
def message : FormFault → String
  | foreignChar c line =>
    "Unsupported character '" ++ String.singleton c ++ "' in expression: " ++ line
  | mixedRun run => "Unsupported operator: " ++ run
  | foreignToken text => "Can't add a word of unsupported type: " ++ text
  | secondEquals => "Expression can't contain more than one assignment"
  | misplacedEquals found =>
    "Left side of an assignment operator should be a variable, got: \x22" ++ found ++ "\x22"
  | missingSign found =>
    "Left side of a variable or value should be an operator, got: \x22" ++ found ++ "\x22"

/-- The name in the log. -/
def label : FormFault → String
  | foreignChar .. => "InvalidCharacter"
  | mixedRun _ => "InvalidOperator"
  | foreignToken _ => "UnsupportedToken"
  | secondEquals => "MultipleAssignments"
  | misplacedEquals _ => "InvalidAssignmentTarget"
  | missingSign _ => "MissingOperator"

/-- The fields in the log. -/
def fields : FormFault → List (String × String)
  | foreignChar c line => [("character", quotedChar c), ("line", quoted line)]
  | mixedRun run => [("operator", quoted run)]
  | foreignToken text => [("token", quoted text)]
  | secondEquals => []
  | misplacedEquals found | missingSign found => [("found", quoted found)]

end FormFault

/-! ## Faults of value -/

/-- Why a sequence of operands and signs does not come out at one value. -/
inductive Imbalance where
  /-- A sign that has no two values to work on. -/
  | missingOperand (sign : String)
  /-- A token that is neither a numeral nor a sign. -/
  | strayToken (text : String)
  /-- No value is there at the end. -/
  | noValue
  /-- More than one value is there at the end. -/
  | leftover (n : Nat)
deriving DecidableEq

/-- The detail of the sentence that is printed. -/
def Imbalance.detail : Imbalance → String
  | missingOperand sign => "operator '" ++ sign ++ "' is missing an operand"
  | strayToken text => "unexpected token '" ++ text ++ "'"
  | noValue => "no value to return"
  | leftover n => String.ofList (Nat.toDigits 10 n) ++ " values left without an operator"

/-- What it is that is not in the range of values. -/
inductive Excess where
  /-- A text read as a number. -/
  | literal (text : String)
  /-- The exact sum or difference of two values. -/
  | step (s : Sign) (left right : Value)
deriving DecidableEq

/-- The number, or the sum, as it is printed. -/
def Excess.text : Excess → String
  | literal text => text
  | step s left right => left.text ++ " " ++ String.singleton s.symbol ++ " " ++ right.text

/-- Why a list of tokens has no value: a name in it has none, there is nothing to evaluate,
operands and signs are out of balance, or a number is out of range. -/
inductive ValueFault where
  | unbound (name : String)
  | empty
  | unbalanced (cause : Imbalance)
  | outOfRange (cause : Excess)
deriving DecidableEq

namespace ValueFault

def message : ValueFault → String
  | unbound name => "Undefined variable " ++ name
  | empty => "Right side of an expression should not be empty"
  | unbalanced cause => "Can't process an expression: " ++ cause.detail
  | outOfRange cause =>
    "Numbers in an expression should be in range of Integer type: -2^31 ... 2^31-1, got: " ++
      cause.text

def label : ValueFault → String
  | unbound _ => "UndefinedVariable"
  | empty => "EmptyExpression"
  | unbalanced _ => "MalformedExpression"
  | outOfRange _ => "IntegerOverflow"

def fields : ValueFault → List (String × String)
  | unbound name => [("name", quoted name)]
  | empty => []
  | unbalanced cause => [("details", quoted cause.detail)]
  | outOfRange cause => [("value", quoted cause.text)]

end ValueFault

/-! ## Faults of a line -/

/-- Why a line gives no answer: it has no form, or it has a form but no value. -/
inductive Fault where
  | form (f : FormFault)
  | value (f : ValueFault)
deriving DecidableEq

namespace Fault

def message : Fault → String
  | form f => f.message
  | value f => f.message

/-- The name in the log of the stage at which the line fails. -/
def stage : Fault → String
  | form _ => "Parse"
  | value _ => "Runtime"

def label : Fault → String
  | form f => f.label
  | value f => f.label

def fields : Fault → List (String × String)
  | form f => f.fields
  | value f => f.fields

/-- The fault as the log shows it. -/
def shown (f : Fault) : String := f.stage ++ "(" ++ record f.label f.fields ++ ")"

end Fault

end SignedSum
