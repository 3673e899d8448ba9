/-!
# Computations that can fail

When a computation in several parts succeeds, and with which error it fails.
-/

namespace Semicolon

variable {ε α β γ : Type}

/-- A result that was mapped comes from one that was not. -/
theorem exists_of_map_eq_ok {f : α → β} {x : Except ε α} {b : β} (h : x.map f = .ok b) :
    ∃ a, x = .ok a ∧ f a = b := by
  cases x with
  | error e => cases h
  | ok a => exact ⟨a, rfl, Except.ok.inj h⟩

theorem map_eq_error {f : α → β} {x : Except ε α} {e : ε} : x.map f = .error e ↔ x = .error e := by
  cases x with
  | error e' => simp [Except.map]
  | ok a => simp [Except.map]

/-- A computation in two parts succeeds when both parts do. -/
theorem bind_eq_ok {x : Except ε α} {f : α → Except ε β} {b : β} :
    (x >>= f) = .ok b ↔ ∃ a, x = .ok a ∧ f a = .ok b := by
  cases x with
  | error e =>
    refine ⟨fun h => absurd h nofun, ?_⟩
    rintro ⟨a, ha, -⟩
    cases ha
  | ok a =>
    refine ⟨fun h => ⟨a, rfl, h⟩, ?_⟩
    rintro ⟨a', ha, hf⟩
    cases ha
    exact hf

/-- A computation in two parts fails when one of its parts does. -/
theorem bind_eq_error {x : Except ε α} {f : α → Except ε β} {e : ε} :
    (x >>= f) = .error e ↔ x = .error e ∨ ∃ a, x = .ok a ∧ f a = .error e := by
  cases x with
  | error e' => simp [bind, Except.bind]
  | ok a => simp [bind, Except.bind]

/-- The error with which a computation ends. -/
def error? : Except ε α → Option ε
  | .error e => some e
  | .ok _ => none

theorem error?_eq_some {x : Except ε α} {e : ε} : error? x = some e ↔ x = .error e := by
  cases x <;> simp [error?]

/-- A computation in two parts fails as the first part does, or else as the second one does. -/
theorem error?_bind_bind (x : Except ε α) (y : Except ε β) (g : α → β → γ) :
    error? (x >>= fun a => y >>= fun b => pure (g a b)) = (error? x).or (error? y) := by
  cases x with
  | error e => rfl
  | ok a => cases y <;> rfl

theorem error?_bind_pure (x : Except ε α) (g : α → β) :
    error? (x >>= fun a => pure (g a)) = error? x := by
  cases x <;> rfl

end Semicolon
