import Mathlib.Logic.Function.Basic

/-!
# A word with exclusive accesses

A processor that loads the word exclusively marks it. An exclusive store succeeds only if the mark
is still there, and every store takes the marks of the other processors away; a mark can be lost
for other reasons as well. So a mark says that the word has not been written since it was loaded.
-/

structure Exclusive (V C : Type*) where
  value : V
  marked : C → Bool

namespace Exclusive

variable {V C : Type*} [DecidableEq C]

/-- An exclusive load by `c`. -/
def mark (x : Exclusive V C) (c : C) : Exclusive V C :=
  { x with marked := Function.update x.marked c true }

/-- The mark of `c` is lost. -/
def clear (x : Exclusive V C) (c : C) : Exclusive V C :=
  { x with marked := Function.update x.marked c false }

/-- A store by `c`. -/
def store (x : Exclusive V C) (c : C) (v : V) : Exclusive V C :=
  ⟨v, fun d => if d = c then x.marked c else false⟩

/-- An exclusive store by `c`, if the word is marked. -/
def storeMarked (_ : Exclusive V C) (v : V) : Exclusive V C := ⟨v, fun _ => false⟩

def Known (x : Exclusive V C) (r : C → Option V) : Prop :=
  ∀ c v, x.marked c = true → r c = some v → x.value = v

variable {x : Exclusive V C} {r : C → Option V} {c : C} {v : V}

theorem Known.mark (h : x.Known r) (c : C) :
    (x.mark c).Known (Function.update r c (some x.value)) := by
  intro d v hd hv
  by_cases hdc : d = c
  · subst hdc
    simpa [Exclusive.mark] using hv
  · simp only [Exclusive.mark, Function.update_of_ne hdc] at hd hv
    exact h d v hd hv

theorem Known.forget (h : x.Known r) (c : C) : x.Known (Function.update r c none) := by
  intro d v hd hv
  by_cases hdc : d = c
  · subst hdc
    simp at hv
  · rw [Function.update_of_ne hdc] at hv
    exact h d v hd hv

theorem Known.clear (h : x.Known r) (c : C) : (x.clear c).Known r := by
  intro d v hd hv
  by_cases hdc : d = c
  · subst hdc
    simp [Exclusive.clear] at hd
  · simp only [Exclusive.clear, Function.update_of_ne hdc] at hd
    exact h d v hd hv

theorem Known.store (hc : r c = none) (v : V) : (x.store c v).Known r := by
  intro d u hd hu
  by_cases hdc : d = c
  · rw [hdc, hc] at hu
    cases hu
  · simp [Exclusive.store, hdc] at hd

omit [DecidableEq C] in
theorem known_storeMarked (x : Exclusive V C) (r : C → Option V) (v : V) :
    (x.storeMarked v).Known r := by
  intro d u hd _
  simp [Exclusive.storeMarked] at hd

end Exclusive
