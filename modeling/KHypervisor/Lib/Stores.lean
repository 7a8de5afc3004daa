import Mathlib.Data.List.Nodup
import Mathlib.Logic.Function.Basic

/-!
# Lists of stores

A map after a list of stores, made in their order. A key that nothing was stored under keeps its
value, and one that every store agrees on has the value stored; in particular a key that was
stored under once.
-/

namespace Stores

variable {K V : Type*} [DecidableEq K]

def storeAll (f : K → V) (ws : List (K × V)) : K → V :=
  ws.foldl (fun f w => Function.update f w.1 w.2) f

@[simp]
theorem storeAll_nil (f : K → V) : storeAll f [] = f := rfl

@[simp]
theorem storeAll_cons (f : K → V) (w : K × V) (ws : List (K × V)) :
    storeAll f (w :: ws) = storeAll (Function.update f w.1 w.2) ws := rfl

theorem storeAll_of_notMem (f : K → V) {ws : List (K × V)} {k : K} (h : ∀ w ∈ ws, w.1 ≠ k) :
    storeAll f ws k = f k := by
  induction ws generalizing f with
  | nil => rfl
  | cons w ws ih =>
      have hne : k ≠ w.1 := (h w List.mem_cons_self).symm
      rw [storeAll_cons, ih _ fun o ho => h o (List.mem_cons_of_mem _ ho),
        Function.update_of_ne hne]

/-- If all the stores under a key agree, and there are some, they decide its value. -/
theorem storeAll_of_forall (f : K → V) {ws : List (K × V)} {k : K} {v : V}
    (hmem : ∃ w ∈ ws, w.1 = k) (hall : ∀ w ∈ ws, w.1 = k → w.2 = v) : storeAll f ws k = v := by
  induction ws generalizing f with
  | nil => simp at hmem
  | cons w ws ih =>
      have htail : ∀ o ∈ ws, o.1 = k → o.2 = v := fun o ho => hall o (List.mem_cons_of_mem _ ho)
      rw [storeAll_cons]
      by_cases hlater : ∃ o ∈ ws, o.1 = k
      · exact ih _ hlater htail
      · have hhead : w.1 = k := by simpa [hlater] using hmem
        have hnot : ∀ o ∈ ws, o.1 ≠ k := fun o ho h => hlater ⟨o, ho, h⟩
        rw [storeAll_of_notMem _ hnot, ← hhead, Function.update_self]
        exact hall w List.mem_cons_self hhead

theorem storeAll_of_nodup (f : K → V) {ws : List (K × V)} (hnodup : (ws.map Prod.fst).Nodup)
    {k : K} {v : V} (hmem : (k, v) ∈ ws) : storeAll f ws k = v := by
  refine storeAll_of_forall f ⟨_, hmem, rfl⟩ fun w hw hk => ?_
  have hsame : w = (k, v) := List.inj_on_of_nodup_map hnodup hw hmem hk
  rw [hsame]

end Stores
