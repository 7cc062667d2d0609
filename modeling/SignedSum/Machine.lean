/-
# The stack machine

Tokens in postfix order are evaluated on a stack of values.  A numeral is pushed; a sign takes
the two topmost values and pushes what it makes of them, the lower one on the left.

The stack does not start empty: at its bottom lies a zero, the seed, which gives a sign that
stands at the very start something to work on.  The machine remembers whether the seed has been
taken.  At the end the stack has to hold one value, and a seed that nothing has taken is not
counted, so that a lone operand is its own value.
-/
import SignedSum.Arithmetic
import SignedSum.Logged

namespace SignedSum

/-- A state of the stack machine. -/
structure Machine where
  /-- The values on the stack, the topmost one first. -/
  stack : List Value
  /-- Whether a sign has taken the seed. -/
  seedTaken : Bool
deriving DecidableEq

namespace Machine

/-- The value that lies at the bottom of the stack at the start. -/
def seed : Value := .zero

/-- The machine before the first token. -/
def start : Machine := ⟨[seed], false⟩

/-- Reads one token. -/
def step (m : Machine) (t : Token) : Logged ValueFault Machine :=
  match t.kind with
  | .numeral => do
    let v ← Value.ofLiteral t.text
    return { m with stack := v :: m.stack }
  | .sign s =>
    match m.stack with
    | right :: left :: below => do
      let result ← s.combine left right
      Logged.note (.applied left t.text right result)
      -- the seed is the lowest value, so it is taken when nothing lies below the two
      return ⟨result :: below, m.seedTaken || below.isEmpty⟩
    | _ => .quiet (.error (.unbalanced (.missingOperand t.text)))
  | _ => .quiet (.error (.unbalanced (.strayToken t.text)))

/-- The values that are counted at the end, the topmost one first. -/
def counted (m : Machine) : List Value := if m.seedTaken then m.stack else m.stack.dropLast

/-- The value that the machine has come to. -/
def result (m : Machine) : Except ValueFault Value :=
  match m.counted with
  | [v] => .ok v
  | [] => .error (.unbalanced .noValue)
  | vs => .error (.unbalanced (.leftover vs.length))

/-- Reads some tokens, one after the other. -/
def run (m : Machine) (tokens : List Token) : Logged ValueFault Machine := tokens.foldlM step m

variable {m m' : Machine} {t : Token} {s : Sign} {v left right : Value} {below : List Value}

/-! ## One step -/

theorem outcome_step_numeral (h : t.kind = .numeral) :
    (m.step t).outcome =
      (Value.ofLiteral t.text).map fun v => { m with stack := v :: m.stack } := by
  rw [step, h]
  simp only [Logged.outcome_bind, Logged.outcome_monadLift]
  cases Value.ofLiteral t.text <;> rfl

theorem outcome_step_sign (h : t.kind = .sign s) (hs : m.stack = right :: left :: below) :
    (m.step t).outcome =
      (s.combine left right).map fun v => ⟨v :: below, m.seedTaken || below.isEmpty⟩ := by
  rw [step, h]
  simp only [hs, Logged.outcome_bind, Logged.outcome_monadLift]
  cases s.combine left right <;> rfl

/-- A sign that finds fewer than two values is a fault. -/
theorem step_sign_of_length_lt (h : t.kind = .sign s) (hs : m.stack.length < 2) :
    m.step t = .quiet (.error (.unbalanced (.missingOperand t.text))) := by
  rw [step, h]
  match hm : m.stack with
  | [] => rfl
  | [_] => rfl
  | _ :: _ :: _ =>
    rw [hm] at hs
    simp only [List.length_cons] at hs
    omega

@[simp] theorem run_nil : m.run [] = pure m := rfl

theorem run_cons (ts : List Token) : m.run (t :: ts) = m.step t >>= fun m' => m'.run ts := rfl

theorem run_append (ts us : List Token) : m.run (ts ++ us) = m.run ts >>= fun m' => m'.run us :=
  List.foldlM_append

end Machine

/-- The value of tokens in postfix order. -/
def Postfix.evaluate (tokens : List Token) : Logged ValueFault Value := do
  let m ← Machine.start.run tokens
  m.result

end SignedSum
