/-!
# Computations that may fail

What is known of the steps of a computation that gives a result.
-/

namespace GraphLowering

theorem bind_eq_ok {ε α β : Type} {x : Except ε α} {f : α → Except ε β} {b : β} :
    x >>= f = .ok b ↔ ∃ a, x = .ok a ∧ f a = .ok b := by
  cases x with
  | error e => simp [bind, Except.bind]
  | ok a => simp [bind, Except.bind]

theorem pure_eq_ok {ε α : Type} {a b : α} : (pure a : Except ε α) = .ok b ↔ a = b := by
  simp [pure, Except.pure]

theorem check_eq_ok {ε α : Type} {c : Prop} [Decidable c] {e : ε} {x : Except ε α} {a : α} :
    (if c then (Except.error e : Except ε PUnit) >>= fun _ => x else x) = .ok a ↔
      ¬ c ∧ x = .ok a := by
  by_cases hc : c <;> simp [hc, bind, Except.bind]

section State

variable {ε σ α β : Type} {x : ExceptT ε (StateM σ) α} {k : α → ExceptT ε (StateM σ) β} {s s' : σ}

theorem run_bind_of_ok {a : α} (h : x s = (.ok a, s')) : (x >>= k) s = k a s' := by
  simp only [bind, ExceptT.bind, ExceptT.mk, StateT.bind, ExceptT.bindCont, h]

theorem run_bind_of_error {e : ε} (h : x s = (.error e, s')) : (x >>= k) s = (.error e, s') := by
  simp only [bind, ExceptT.bind, ExceptT.mk, StateT.bind, ExceptT.bindCont, h]
  rfl

theorem run_bind_ok {b : β} (h : (x >>= k) s = (.ok b, s')) :
    ∃ a s₁, x s = (.ok a, s₁) ∧ k a s₁ = (.ok b, s') := by
  rcases hx : x s with ⟨e | a, s₁⟩
  · rw [run_bind_of_error hx] at h
    cases h
  · exact ⟨a, s₁, rfl, (run_bind_of_ok hx).symm.trans h⟩

end State

end GraphLowering
