/-
# Postfix order

The tokens of a sum are put in an order in which every sign follows the operands that it works
on.  Both signs bind equally and from the left, so it is enough to hold one sign back: a sign
goes out when the next sign comes, or at the end, and everything else goes out at once.

    4 + 6 - 8    becomes    4 6 + 8 -
    - 5 + 3      becomes    5 - 3 +
-/
import SignedSum.Fault

namespace SignedSum
namespace Postfix

/-- Puts tokens in postfix order, while a sign may be held back. -/
def arrange (held : Option Token) : List Token → List Token
  | [] => held.toList
  | t :: rest =>
    if t.kind.isSign then held.toList ++ arrange (some t) rest else t :: arrange held rest

/-- The tokens in postfix order; there has to be at least one. -/
def ofTokens (tokens : List Token) : Except ValueFault (List Token) :=
  if tokens.isEmpty then .error .empty else .ok (arrange none tokens)

variable {held : Option Token} {t : Token} {rest : List Token}

@[simp] theorem arrange_nil : arrange held [] = held.toList := rfl

theorem arrange_sign (h : t.kind.isSign = true) :
    arrange held (t :: rest) = held.toList ++ arrange (some t) rest := by
  rw [arrange, if_pos h]

theorem arrange_other (h : t.kind.isSign = false) :
    arrange held (t :: rest) = t :: arrange held rest := by
  rw [arrange, h, if_neg Bool.false_ne_true]

theorem ofTokens_of_ne_nil {tokens : List Token} (h : tokens ≠ []) :
    ofTokens tokens = .ok (arrange none tokens) := by
  rw [ofTokens, List.isEmpty_eq_false_iff.2 h, if_neg Bool.false_ne_true]

end Postfix
end SignedSum
