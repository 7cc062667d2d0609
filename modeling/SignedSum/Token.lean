/-
# Tokens

A line is made of words, and a token is a word with its kind.  A kind also classifies a single
character: the characters of a word all have the kind of the word, except that a run of signs
counts as one sign.

A token is a plain pair.  What comes out of a line has a text that fits its kind, but the rest
of the library never relies on that: a sign token is taken for the sign of its kind, and its
text is only ever shown.
-/
import SignedSum.Sign

namespace SignedSum

/-- What a word, or a single character, is: a number written in digits, the name of a variable
written in letters, one of the two signs, the equals sign of an assignment, or foreign, that is,
anything else. -/
inductive Kind where
  | numeral
  | name
  | sign (s : Sign)
  | equals
  | foreign
deriving DecidableEq

namespace Kind

/-- The kind of a single character; digits and letters are those of ASCII. -/
def ofChar (c : Char) : Kind :=
  if c.isDigit then numeral
  else if c.isAlpha then name
  else if c = '+' then sign .plus
  else if c = '-' then sign .minus
  else if c = '=' then equals
  else foreign

def isSign : Kind → Bool
  | sign _ => true
  | _ => false

/-- The signs and the equals sign: what may stand to the left of an operand. -/
def isOperator : Kind → Bool
  | sign _ | equals => true
  | _ => false

/-- The numerals and the names: what has a value. -/
def isOperand : Kind → Bool
  | numeral | name => true
  | _ => false

/-- The text of an operator. -/
def symbol? : Kind → Option String
  | sign s => some (String.singleton s.symbol)
  | equals => some "="
  | _ => none

end Kind

/-- A word of a line, or a word put in its place: what it is, and how it is written. -/
structure Token where
  kind : Kind
  text : String
deriving DecidableEq

namespace Token

/-- The numeral of a value; unlike the numerals of a line it may be negative. -/
def ofValue (v : Value) : Token := ⟨.numeral, v.text⟩

/-- The token of an operator. -/
def operator? (k : Kind) : Option Token := k.symbol?.map (⟨k, ·⟩)

/-- The texts of some tokens, with one space between each two. -/
def spaced (ts : List Token) : String := " ".intercalate (ts.map (·.text))

@[simp] theorem kind_ofValue (v : Value) : (ofValue v).kind = .numeral := rfl

@[simp] theorem text_ofValue (v : Value) : (ofValue v).text = v.text := rfl

end Token
end SignedSum
