/-
# Logged computations

A computation that records events and may fail.  The events recorded before a failure are kept.

A logged computation is a pair of its log and its outcome.  The outcome of a composition depends
on the outcomes of its parts alone (`outcome_bind`), so wherever the log does not matter, a
logged computation may be read as a plain one.
-/
import SignedSum.Event

namespace SignedSum

/-- A log, and a result or a fault. -/
@[ext] structure Logged (ε α : Type) where
  /-- The events, in the order in which they happened. -/
  log : List Event
  /-- What the computation comes to. -/
  outcome : Except ε α

namespace Logged

variable {ε α β : Type}

instance : Monad (Logged ε) where
  pure a := ⟨[], .ok a⟩
  bind x f :=
    match x.outcome with
    | .ok a => ⟨x.log ++ (f a).log, (f a).outcome⟩
    | .error e => ⟨x.log, .error e⟩

/-- Records an event. -/
def note (e : Event) : Logged ε Unit := ⟨[e], .ok ()⟩

/-- A computation that records nothing. -/
def quiet (r : Except ε α) : Logged ε α := ⟨[], r⟩

instance : MonadLift (Except ε) (Logged ε) := ⟨quiet⟩

/-! ## The outcome of a composition -/

@[simp] theorem outcome_pure (a : α) : (pure a : Logged ε α).outcome = .ok a := rfl

@[simp] theorem outcome_note (e : Event) : (note e : Logged ε Unit).outcome = .ok () := rfl

@[simp] theorem outcome_quiet (r : Except ε α) : (quiet r).outcome = r := rfl

@[simp] theorem outcome_monadLift (r : Except ε α) : (monadLift r : Logged ε α).outcome = r := rfl

theorem outcome_bind (x : Logged ε α) (f : α → Logged ε β) :
    (x >>= f).outcome = x.outcome >>= fun a => (f a).outcome := by
  simp only [bind]
  cases x.outcome <;> rfl

/-! ## The log of a composition -/

@[simp] theorem log_pure (a : α) : (pure a : Logged ε α).log = [] := rfl

@[simp] theorem log_note (e : Event) : (note e : Logged ε Unit).log = [e] := rfl

@[simp] theorem log_quiet (r : Except ε α) : (quiet r).log = [] := rfl

@[simp] theorem log_monadLift (r : Except ε α) : (monadLift r : Logged ε α).log = [] := rfl

theorem log_bind_of_ok {x : Logged ε α} {a : α} (h : x.outcome = .ok a) (f : α → Logged ε β) :
    (x >>= f).log = x.log ++ (f a).log := by
  simp only [bind, h]

instance : LawfulMonad (Logged ε) :=
  .mk' _
    (fun x => by
      obtain ⟨log, outcome⟩ := x
      cases outcome <;> simp [Functor.map])
    (fun a f => by simp [bind, pure])
    (fun x f g => by
      obtain ⟨log, outcome⟩ := x
      cases outcome with
      | error e => rfl
      | ok a => cases h : (f a).outcome <;> simp [bind, h, List.append_assoc])

end Logged
end SignedSum
