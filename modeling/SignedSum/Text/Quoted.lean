/-
# Quoted text

The log shows a character or a string between quotes, in a form that fits on one line: the quote
itself and the backslash are escaped by a backslash, the tab, the line ends and the null
character have short names, and every other character that does not print is shown by its code in
hexadecimal.  All other characters stand as they are.

The characters that do not print are the control characters, the separators other than the space,
the format characters, those for private use and those that Unicode will never assign.  Two sorts
of characters that change from one version of Unicode to the next are left out, and stand as they
are although they should be shown by their codes: those that are not assigned yet, and the marks
that are drawn onto the character in front of them.  Only the account of a fault in the log depends
on that.
-/
import SignedSum.Text.Blank

namespace SignedSum
namespace Text

/-- The control characters, that is, the characters of Unicode's general category `Cc`. -/
def isControl (c : Char) : Bool := c.toNat < 0x20 || (0x7f ≤ c.toNat && c.toNat ≤ 0x9f)

/-- The first and the last code of every range of format characters, that is, of Unicode's general
category `Cf`. -/
def formatRanges : List (Nat × Nat) :=
  [(0xad, 0xad), (0x600, 0x605), (0x61c, 0x61c), (0x6dd, 0x6dd), (0x70f, 0x70f), (0x890, 0x891),
    (0x8e2, 0x8e2), (0x180e, 0x180e), (0x200b, 0x200f), (0x202a, 0x202e), (0x2060, 0x2064),
    (0x2066, 0x206f), (0xfeff, 0xfeff), (0xfff9, 0xfffb), (0x110bd, 0x110bd), (0x110cd, 0x110cd),
    (0x13430, 0x1343f), (0x1bca0, 0x1bca3), (0x1d173, 0x1d17a), (0xe0001, 0xe0001),
    (0xe0020, 0xe007f)]

/-- The format characters. -/
def isFormat (c : Char) : Bool := formatRanges.any fun r => r.1 ≤ c.toNat && c.toNat ≤ r.2

/-- The characters for private use, that is, those of Unicode's general category `Co`. -/
def isPrivate (c : Char) : Bool :=
  let n := c.toNat
  (0xe000 ≤ n && n ≤ 0xf8ff) || (0xf0000 ≤ n && n ≤ 0xffffd) || (0x100000 ≤ n && n ≤ 0x10fffd)

/-- The codes that will never be assigned: the last two of every plane, and 32 others. -/
def isNoncharacter (c : Char) : Bool :=
  let n := c.toNat
  0xfffe ≤ n % 0x10000 || (0xfdd0 ≤ n && n ≤ 0xfdef)

/-- The characters that do not print. -/
def isUnprinted (c : Char) : Bool :=
  isControl c || (isBlank c && c != ' ') || isFormat c || isPrivate c || isNoncharacter c

/-- A character as it is written between two characters `quote`. -/
def escape (quote c : Char) : List Char :=
  if c = quote ∨ c = '\x5c' then ['\x5c', c]
  else if c = '\t' then ['\x5c', 't']
  else if c = '\r' then ['\x5c', 'r']
  else if c = '\n' then ['\x5c', 'n']
  else if c = '\x00' then ['\x5c', '0']
  else if isUnprinted c then ['\x5c', 'u', '\x7b'] ++ Nat.toDigits 16 c.toNat ++ ['\x7d']
  else [c]

/-- A character between single quotes. -/
def quotedChar (c : Char) : String := String.ofList ('\x27' :: escape '\x27' c ++ ['\x27'])

/-- A string between double quotes. -/
def quoted (s : String) : String :=
  String.ofList ('\x22' :: s.toList.flatMap (escape '\x22') ++ ['\x22'])

/-- A named record: the name alone, or the name followed by its fields between braces. -/
def record (name : String) : List (String × String) → String
  | [] => name
  | fields =>
    name ++ " \x7b " ++ ", ".intercalate (fields.map fun f => f.1 ++ ": " ++ f.2) ++ " \x7d"

end Text
end SignedSum
