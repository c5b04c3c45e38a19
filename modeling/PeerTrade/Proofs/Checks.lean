/-!
# Sequences of checks

Deciding, creating, restoring and encoding are sequences of checks, any of which may fail. A
sequence succeeds exactly if every check in it does; the facts below say so for each way of
putting checks together, so that the success of a whole sequence is taken apart by rewriting.
-/

namespace PeerTrade.Checks

variable {ε ε' α β : Type}

@[simp] theorem pure_eq_ok_iff {a b : α} : (pure a : Except ε α) = .ok b ↔ a = b := by
  simp [pure, Except.pure]

/-- Two checks in sequence succeed exactly if both do. -/
@[simp] theorem bind_eq_ok_iff {x : Except ε α} {f : α → Except ε β} {b : β} :
    (x >>= f) = .ok b ↔ ∃ a, x = .ok a ∧ f a = .ok b := by
  cases x <;> simp [bind, Except.bind]

@[simp] theorem map_eq_ok_iff {x : Except ε α} {f : α → β} {b : β} :
    f <$> x = .ok b ↔ ∃ a, x = .ok a ∧ f a = b := by
  cases x <;> simp [Functor.map, Except.map]

@[simp] theorem mapError_eq_ok_iff {x : Except ε α} {f : ε → ε'} {a : α} :
    x.mapError f = .ok a ↔ x = .ok a := by
  cases x with
  | ok a' => constructor <;> intro h <;> cases h <;> rfl
  | error e => constructor <;> intro h <;> cases h

theorem toOption_eq_some_iff {x : Except ε α} {a : α} : x.toOption = some a ↔ x = .ok a := by
  cases x <;> simp [Except.toOption]

@[simp] theorem ite_error_eq_ok_iff {p : Prop} [Decidable p] {cause : ε} {x : Except ε α} {a : α} :
    (if p then .error cause else x) = .ok a ↔ ¬p ∧ x = .ok a := by
  by_cases hp : p <;> simp [hp]

@[simp] theorem ite_else_error_eq_ok_iff {p : Prop} [Decidable p] {cause : ε} {x : Except ε α}
    {a : α} : (if p then x else .error cause) = .ok a ↔ p ∧ x = .ok a := by
  by_cases hp : p <;> simp [hp]

end PeerTrade.Checks
