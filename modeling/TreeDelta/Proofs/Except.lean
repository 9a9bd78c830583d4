import Mathlib.Data.List.Basic
/-!
# Computations that can fail

What it takes for steps in a row to end well, and what it takes for them to fail.
-/

namespace TreeDelta

variable {ε α β : Type}

theorem bind_eq_ok {x : Except ε α} {f : α → Except ε β} {b : β} :
    (x >>= f) = .ok b ↔ ∃ a, x = .ok a ∧ f a = .ok b := by
  cases x <;> simp [bind, Except.bind]

theorem bind_eq_error {x : Except ε α} {f : α → Except ε β} {e : ε} :
    (x >>= f) = .error e ↔ x = .error e ∨ ∃ a, x = .ok a ∧ f a = .error e := by
  cases x <;> simp [bind, Except.bind]

theorem map_eq_error {x : Except ε α} {f : α → β} {e : ε} :
    x.map f = .error e ↔ x = .error e := by
  cases x <;> simp [Except.map]

theorem foldlM_cons_ok {f : β → α → Except ε β} {b c : β} {a : α} {as : List α} :
    (a :: as).foldlM f b = .ok c ↔ ∃ next, f b a = .ok next ∧ as.foldlM f next = .ok c := by
  rw [List.foldlM_cons, bind_eq_ok]

theorem foldlM_append_ok {f : β → α → Except ε β} {b c : β} {as more : List α} :
    (as ++ more).foldlM f b = .ok c ↔ ∃ next, as.foldlM f b = .ok next ∧ more.foldlM f next = .ok c := by
  rw [List.foldlM_append, bind_eq_ok]

end TreeDelta
