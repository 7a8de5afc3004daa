import Mathlib.Data.List.Basic
import Mathlib.Data.List.Rotate

/-!
# Places of lists

What stands at the places of a list with one more element, and of a list that goes round a cycle;
and what a search finds if it can find only one.
-/

namespace Lists

variable {α : Type*}

theorem find?_eq_some_of_unique {p : α → Bool} {l : List α} {a : α} (ha : a ∈ l) (hpa : p a)
    (hunique : ∀ b ∈ l, p b → b = a) : l.find? p = some a := by
  cases hfind : l.find? p with
  | none => exact absurd hpa (List.find?_eq_none.mp hfind a ha)
  | some b => rw [hunique b (List.mem_of_find?_eq_some hfind) (List.find?_some hfind)]

theorem getElem?_concat_eq_some_iff {l : List α} {x a : α} {n : ℕ} :
    (l ++ [x])[n]? = some a ↔ l[n]? = some a ∨ n = l.length ∧ x = a := by
  rcases Nat.lt_or_ge n l.length with hn | hn
  · rw [List.getElem?_append_left hn]
    exact (or_iff_left fun h => Nat.ne_of_lt hn h.1).symm
  · rw [List.getElem?_append_right hn, List.getElem?_singleton,
      or_iff_right (by rw [List.getElem?_eq_none hn]; simp)]
    split_ifs with hlast
    · rw [Option.some.injEq]
      exact (and_iff_right (Nat.le_antisymm (Nat.sub_eq_zero_iff_le.mp hlast) hn)).symm
    · exact iff_of_false (by simp) fun h => hlast (Nat.sub_eq_zero_of_le h.1.le)

/-- A list obeys a law about its places if the list without its last element does, and that too. -/
theorem forall_getElem?_concat {P : ℕ → α → Prop} (l : List α) (x : α) :
    (∀ n y, (l ++ [x])[n]? = some y → P n y) ↔
      (∀ n y, l[n]? = some y → P n y) ∧ P l.length x := by
  constructor
  · intro h
    refine ⟨fun n y hy => h n y (getElem?_concat_eq_some_iff.mpr (.inl hy)), ?_⟩
    exact h l.length x (getElem?_concat_eq_some_iff.mpr (.inr ⟨rfl, rfl⟩))
  · rintro ⟨h, hx⟩ n y hy
    rcases getElem?_concat_eq_some_iff.mp hy with hold | ⟨rfl, rfl⟩
    · exact h n y hold
    · exact hx

/-- The next one of a list that is gone round is the next one of the list that is rotated. -/
theorem getElem?_rotate_one {l : List α} (hl : l ≠ []) (m : ℕ) :
    (l.rotate 1)[m % l.length]? = l[(m + 1) % l.length]? := by
  rw [List.getElem?_rotate (Nat.mod_lt _ (List.length_pos_iff.mpr hl)), Nat.mod_add_mod]

/-- As many places in a row as there are in the cycle are the cycle, begun at some place. -/
theorem window_eq_rotate {l cycle : List α} (h : ∀ m < l.length,
    l[m]? = cycle[m % cycle.length]?) {m : ℕ} (hm : m + cycle.length ≤ l.length) :
    (l.drop m).take cycle.length = cycle.rotate m := by
  refine List.ext_getElem? fun i => ?_
  by_cases hi : i < cycle.length
  · rw [List.getElem?_take_of_lt hi, List.getElem?_drop, List.getElem?_rotate hi,
      h (m + i) (by omega), Nat.add_comm]
  · have hlength : ((l.drop m).take cycle.length).length ≤ i :=
      (List.length_take_le _ _).trans (Nat.le_of_not_lt hi)
    rw [List.getElem?_eq_none hlength, List.getElem?_eq_none]
    rw [List.length_rotate]
    exact Nat.le_of_not_lt hi

end Lists
