import Mathlib.Algebra.Order.Group.Multiset
import Mathlib.Data.Multiset.Filter
import Mathlib.Data.Multiset.Range
import Mathlib.Logic.Function.Basic

/-!
# Arrays of slots

An array whose slots are occupied or not, as far as their values tell. Its contents are the
multiset of the values in occupied slots: storing to a slot exchanges what the slot contributed
for what it contributes now (`contents_update`), so filling a free slot adds the value and
emptying an occupied one removes it.
-/

namespace Slots

variable {V : Type*} (occupied : V → Bool)

def part (v : V) : Multiset V := if occupied v then {v} else 0

/-- The values in the occupied ones of the first `n` slots. -/
def contents (n : ℕ) (f : ℕ → V) : Multiset V :=
  ((Multiset.range n).map f).filter fun v => occupied v = true

variable {occupied} {n : ℕ} {f g : ℕ → V}

theorem contents_congr (h : ∀ i < n, f i = g i) :
    contents occupied n f = contents occupied n g := by
  have hmap : (Multiset.range n).map f = (Multiset.range n).map g :=
    Multiset.map_congr rfl fun i hi => h i (Multiset.mem_range.mp hi)
  rw [contents, contents, hmap]

theorem contents_succ (n : ℕ) (f : ℕ → V) :
    contents occupied (n + 1) f = part occupied (f n) + contents occupied n f := by
  rw [contents, Multiset.range_succ, Multiset.map_cons, Multiset.filter_cons, part, contents]

theorem contents_update {i : ℕ} (hi : i < n) (v : V) :
    contents occupied n (Function.update f i v) + part occupied (f i) =
      contents occupied n f + part occupied v := by
  induction n with
  | zero => omega
  | succ n ih =>
      rw [contents_succ, contents_succ]
      by_cases hlast : i = n
      · subst hlast
        have hbelow : contents occupied i (Function.update f i v) = contents occupied i f :=
          contents_congr fun j hj => Function.update_of_ne (by omega) _ _
        rw [hbelow, Function.update_self, add_right_comm, add_comm (part occupied v), add_comm,
          add_left_comm, add_assoc]
      · have hne : n ≠ i := Ne.symm hlast
        rw [Function.update_of_ne hne, add_assoc, ih (by omega), add_assoc]

theorem contents_fill {i : ℕ} (hi : i < n) (hfree : occupied (f i) = false) {v : V}
    (hv : occupied v = true) :
    contents occupied n (Function.update f i v) = contents occupied n f + {v} := by
  have h : contents occupied n (Function.update f i v) + part occupied (f i) =
      contents occupied n f + part occupied v := contents_update hi v
  rwa [part, part, if_pos hv, hfree, if_neg Bool.false_ne_true, add_zero] at h

theorem contents_clear {i : ℕ} (hi : i < n) (hused : occupied (f i) = true) {v : V}
    (hv : occupied v = false) :
    contents occupied n (Function.update f i v) + {f i} = contents occupied n f := by
  have h : contents occupied n (Function.update f i v) + part occupied (f i) =
      contents occupied n f + part occupied v := contents_update hi v
  rwa [part, part, if_pos hused, hv, if_neg Bool.false_ne_true, add_zero] at h

theorem contents_eq_map (n : ℕ) (f : ℕ → V) :
    contents occupied n f = ((Multiset.range n).filter fun i => occupied (f i) = true).map f := by
  rw [contents, Multiset.filter_map]
  rfl

theorem mem_contents {v : V} :
    v ∈ contents occupied n f ↔ ∃ i < n, occupied (f i) = true ∧ f i = v := by
  simp only [contents_eq_map, Multiset.mem_map, Multiset.mem_filter, Multiset.mem_range, and_assoc]

/-- The contents have distinct keys if and only if no two occupied slots have the same key. -/
theorem nodup_map_contents {K : Type*} (k : V → K) :
    ((contents occupied n f).map k).Nodup ↔
      ∀ i < n, ∀ j < n, occupied (f i) = true → occupied (f j) = true → k (f i) = k (f j) →
        i = j := by
  have hnodup : ((Multiset.range n).filter fun i => occupied (f i) = true).Nodup :=
    (Multiset.nodup_range n).filter _
  rw [contents_eq_map, Multiset.map_map, Multiset.nodup_map_iff_inj_on hnodup]
  simp only [Multiset.mem_filter, Multiset.mem_range, Function.comp_apply]
  exact ⟨fun h i hi j hj hoi hoj => h i ⟨hi, hoi⟩ j ⟨hj, hoj⟩,
    fun h i hi j hj => h i hi.1 j hj.1 hi.2 hj.2⟩

theorem card_contents_le (n : ℕ) (f : ℕ → V) : (contents occupied n f).card ≤ n := by
  rw [contents_eq_map, Multiset.card_map]
  exact (Multiset.card_le_card (Multiset.filter_le _ _)).trans (Multiset.card_range n).le

theorem card_contents_of_full (hfull : ∀ i < n, occupied (f i) = true) :
    (contents occupied n f).card = n := by
  rw [contents_eq_map, Multiset.card_map, Multiset.filter_eq_self.mpr, Multiset.card_range]
  exact fun i hi => hfull i (Multiset.mem_range.mp hi)

theorem contents_empty (hfree : ∀ i < n, occupied (f i) = false) :
    contents occupied n f = 0 := by
  rw [contents_eq_map, Multiset.filter_eq_nil.mpr, Multiset.map_zero]
  intro i hi
  rw [hfree i (Multiset.mem_range.mp hi)]
  exact Bool.false_ne_true

end Slots
