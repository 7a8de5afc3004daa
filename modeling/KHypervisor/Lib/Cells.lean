import Mathlib.Data.Nat.Notation
import Mathlib.Logic.Function.Basic

/-!
# Arrays that end

An array of `k` cells is a function of the numbers below `k`. It is read and assigned to at numbers
that may be too large for it, and then the access has no result.
-/

namespace Cells

variable {k : ℕ} {α : Type*}

/-- The cell `i` of an array. -/
def get (a : Fin k → α) (i : ℕ) : Option α := if h : i < k then some (a ⟨i, h⟩) else none

/-- The array after an assignment to cell `i`. -/
def set (a : Fin k → α) (i : ℕ) (x : α) : Option (Fin k → α) :=
  if h : i < k then some (Function.update a ⟨i, h⟩ x) else none

theorem get_of_lt (a : Fin k → α) {i : ℕ} (h : i < k) : get a i = some (a ⟨i, h⟩) := dif_pos h

theorem get_of_le (a : Fin k → α) {i : ℕ} (h : k ≤ i) : get a i = none :=
  dif_neg (Nat.not_lt_of_le h)

theorem set_of_lt (a : Fin k → α) {i : ℕ} (h : i < k) (x : α) :
    set a i x = some (Function.update a ⟨i, h⟩ x) := dif_pos h

theorem set_of_le (a : Fin k → α) {i : ℕ} (h : k ≤ i) (x : α) : set a i x = none :=
  dif_neg (Nat.not_lt_of_le h)

theorem get_val (a : Fin k → α) (i : Fin k) : get a i = some (a i) := get_of_lt a i.isLt

theorem set_val (a : Fin k → α) (i : Fin k) (x : α) : set a i x = some (Function.update a i x) :=
  set_of_lt a i.isLt x

theorem get_eq_some {a : Fin k → α} {i : ℕ} {x : α} :
    get a i = some x ↔ ∃ j : Fin k, i = j ∧ a j = x := by
  constructor
  · intro h
    by_cases hi : i < k
    · rw [get_of_lt a hi, Option.some.injEq] at h
      exact ⟨⟨i, hi⟩, rfl, h⟩
    · rw [get_of_le a (Nat.le_of_not_lt hi)] at h
      cases h
  · rintro ⟨j, rfl, rfl⟩
    exact get_val a j

end Cells
