import KHypervisor.Lib.While
import KHypervisor.Paging.Table
import Mathlib.Algebra.Order.Floor.Div
import Mathlib.GroupTheory.GroupAction.Ring

/-!
# How often the mapping loops turn

The loops of `paging_add_mapping` and `paging_add_ipa_mapping` as loops over their variables: the
counter `i`, an `int` that wraps around and is converted for the comparison with the size, the two
addresses that go along with it, and the memory. A page for every step of the counter, they end
after the pages of the size, unless no value of the counter reaches the size.
-/

namespace KHypervisor

open While

inductive MappingCall
  | addMapping (httbr : U64) (va pa : U32) (memAttr : U8) (size : U32)
  | addIpaMapping (base ipa pa : U32) (memAttr af : U8) (size : U32)

/-- The variables of a mapping loop; `va` is `ipa` in `paging_add_ipa_mapping`. -/
structure MappingVars where
  i : U32
  va : U32
  pa : U32
  mem : PhysMem

namespace MappingCall

def size : MappingCall → U32
  | addMapping _ _ _ _ size => size
  | addIpaMapping _ _ _ _ _ size => size

/-- The call of `write_pgentry` in the loop. -/
def writePage : MappingCall → U32 → U32 → PhysMem → PhysMem
  | addMapping httbr _ _ memAttr _, va, pa =>
      writePgentry (httbr.setWidth 32) (va >>> pageShift) pa memAttr 0 1
  | addIpaMapping base _ _ memAttr af _, ipa, pa =>
      writePgentry base (ipa >>> pageShift) pa memAttr 3 af

def entry : MappingCall → PhysMem → MappingVars
  | addMapping _ va pa _ _, m => ⟨0, va, pa, m⟩
  | addIpaMapping _ ipa pa _ _ _, m => ⟨0, ipa, pa, m⟩

/-- `i < size`. -/
def Guard (c : MappingCall) (s : MappingVars) : Prop := s.i < c.size

instance (c : MappingCall) : DecidablePred c.Guard :=
  fun s => inferInstanceAs (Decidable (s.i < c.size))

def turn (c : MappingCall) (s : MappingVars) : MappingVars :=
  ⟨s.i + 0x1000, s.va + 0x1000, s.pa + 0x1000, c.writePage s.va s.pa s.mem⟩

def run : MappingCall → PhysMem → Option PhysMem
  | addMapping httbr va pa memAttr size => pagingAddMapping httbr va pa memAttr size
  | addIpaMapping base ipa pa memAttr af size => pagingAddIpaMapping base ipa pa memAttr af size

theorem mapLoop_eq_loop (c : MappingCall) (fuel : ℕ) (s : MappingVars) :
    mapLoop c.writePage c.size fuel s.i s.va s.pa s.mem =
      (loop c.Guard c.turn fuel s).map MappingVars.mem := by
  induction fuel generalizing s with
  | zero => rfl
  | succ fuel ih =>
      by_cases hgo : s.i < c.size
      · have hguard : c.Guard s := hgo
        rw [mapLoop, if_pos hgo, loop, if_pos hguard, ← ih]
        rfl
      · have hguard : ¬ c.Guard s := hgo
        rw [mapLoop, if_neg hgo, loop, if_neg hguard, Option.map_some]

theorem run_eq_loop (c : MappingCall) (m : PhysMem) :
    c.run m = (loop c.Guard c.turn loopFuel (c.entry m)).map MappingVars.mem := by
  rw [← mapLoop_eq_loop]
  cases c <;> rfl

/-! ## The counter -/

theorem turn_iterate_i (c : MappingCall) (s : MappingVars) (k : ℕ) :
    (c.turn^[k] s).i = s.i + BitVec.ofNat 32 (k * 0x1000) := by
  induction k with
  | zero => rw [Function.iterate_zero_apply, Nat.zero_mul, BitVec.add_zero]
  | succ k ih =>
      have hturn : (c.turn (c.turn^[k] s)).i = (c.turn^[k] s).i + 0x1000 := rfl
      rw [Function.iterate_succ_apply', hturn, ih, Nat.succ_mul, BitVec.ofNat_add,
        BitVec.add_assoc]
      rfl

theorem entry_i (c : MappingCall) (m : PhysMem) : (c.entry m).i = 0 := by
  cases c <;> rfl

/-- The counter is below the size at the `k`-th test of the guard. -/
theorem guard_iterate_iff (c : MappingCall) (m : PhysMem) (k : ℕ) :
    c.Guard (c.turn^[k] (c.entry m)) ↔ k * 0x1000 % 2 ^ 32 < c.size.toNat := by
  have hi : 0 + BitVec.ofNat 32 (k * 0x1000) = BitVec.ofNat 32 (k * 0x1000) := BitVec.zero_add _
  rw [Guard, turn_iterate_i, entry_i, hi, BitVec.lt_def, BitVec.toNat_ofNat]

/-! ## Termination -/

theorem haltsAfter_ceilDiv (c : MappingCall) (m : PhysMem) (hsize : c.size.toNat ≤ 0xFFFFF000) :
    HaltsAfter c.Guard c.turn (c.size.toNat ⌈/⌉ 0x1000) (c.entry m) := by
  rw [Nat.ceilDiv_eq_add_pred_div]
  constructor
  · intro k hk
    rw [guard_iterate_iff, Nat.mod_eq_of_lt]
    · omega
    · omega
  · rw [guard_iterate_iff, Nat.mod_eq_of_lt]
    · omega
    · omega

theorem not_haltsAfter_of_lt (c : MappingCall) (m : PhysMem) (hsize : 0xFFFFF000 < c.size.toNat)
    (n : ℕ) : ¬ HaltsAfter c.Guard c.turn n (c.entry m) := by
  intro h
  apply h.2
  rw [guard_iterate_iff]
  omega

/-- The loops end, after a turn for each page of the size, if and only if the size is at most the
last page boundary below `2 ^ 32`; for a larger size they never end. -/
theorem haltsAfter_pages_iff (c : MappingCall) (m : PhysMem) :
    (HaltsAfter c.Guard c.turn (c.size.toNat ⌈/⌉ 0x1000) (c.entry m) ↔
        c.size.toNat ≤ 0xFFFFF000) ∧
      (0xFFFFF000 < c.size.toNat → ∀ n, ¬ HaltsAfter c.Guard c.turn n (c.entry m)) := by
  refine ⟨⟨?_, c.haltsAfter_ceilDiv m⟩, c.not_haltsAfter_of_lt m⟩
  intro h
  by_contra hlt
  exact c.not_haltsAfter_of_lt m (not_le.mp hlt) _ h

/-- A region one byte larger than the last page boundary is mapped over and over. -/
theorem addIpaMapping_hangs :
    ¬ ∀ (c : MappingCall) (m : PhysMem),
      HaltsAfter c.Guard c.turn (c.size.toNat ⌈/⌉ 0x1000) (c.entry m) := by
  intro h
  apply not_haltsAfter_of_lt (addIpaMapping 0 0 0 0 1 0xFFFFF001) ⟨fun _ => 0, []⟩
  · decide
  · exact h _ _

/-- Where a mapping loop ends its function returns, and nowhere else. -/
theorem run_isSome_iff (c : MappingCall) (m : PhysMem) :
    (c.run m).isSome ↔ c.size.toNat ≤ 0xFFFFF000 := by
  rw [run_eq_loop, Option.isSome_map]
  constructor
  · intro h
    obtain ⟨s, hs⟩ := Option.isSome_iff_exists.mp h
    obtain ⟨n, -, hn, -⟩ := loop_eq_some_iff.mp hs
    by_contra hlt
    exact c.not_haltsAfter_of_lt m (not_le.mp hlt) n hn
  · intro hsize
    rw [(c.haltsAfter_ceilDiv m hsize).loop_eq_some, Option.isSome_some]
    rw [loopFuel, Nat.ceilDiv_eq_add_pred_div]
    omega

end MappingCall

end KHypervisor
