/-!
# Steps that may fail

What one step after another comes to: a value if both steps have one, and otherwise the fault of the
first step that fails.
-/

namespace TensorFormula

variable {β γ ε ε' : Type}

theorem bind_eq_ok_iff {r : Except ε β} {p : β → Except ε γ} {y : γ} :
    r >>= p = .ok y ↔ ∃ x, r = .ok x ∧ p x = .ok y := by
  cases r with
  | error e => simp [bind, Except.bind]
  | ok x => simp [bind, Except.bind]

theorem bind_eq_error_iff {r : Except ε β} {p : β → Except ε γ} {e : ε} :
    r >>= p = .error e ↔ r = .error e ∨ ∃ x, r = .ok x ∧ p x = .error e := by
  cases r with
  | error e => simp [bind, Except.bind]
  | ok x => simp [bind, Except.bind]

theorem mapError_eq_ok_iff {g : ε → ε'} {r : Except ε β} {x : β} :
    r.mapError g = .ok x ↔ r = .ok x := by
  cases r with
  | error e => constructor <;> intro h <;> cases h
  | ok y =>
      change Except.ok y = _ ↔ _
      simp

theorem mapError_eq_error_iff {g : ε → ε'} {r : Except ε β} {e : ε'} :
    r.mapError g = .error e ↔ ∃ f, r = .error f ∧ g f = e := by
  cases r with
  | error f =>
      change Except.error (g f) = _ ↔ _
      simp
  | ok y =>
      change Except.ok y = _ ↔ _
      simp

end TensorFormula
