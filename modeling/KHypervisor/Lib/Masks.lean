import Mathlib.Data.BitVec
import Mathlib.Algebra.Group.Nat.Defs

/-!
# Rounding with masks

Where the size is a power of two, the bits below it are a mask: to clear them rounds an address
down, and to add the mask before rounds it up.
-/

namespace Masks

variable {w k : ℕ}

theorem toNat_and_not_mask (x : BitVec w) (k : ℕ) :
    (x &&& ~~~BitVec.ofNat w (2 ^ k - 1)).toNat = x.toNat / 2 ^ k * 2 ^ k := by
  rw [← Nat.shiftRight_eq_div_pow, ← Nat.shiftLeft_eq]
  apply Nat.eq_of_testBit_eq
  intro i
  rw [BitVec.testBit_toNat, BitVec.getLsbD_and, BitVec.getLsbD_not, BitVec.getLsbD_ofNat,
    Nat.testBit_two_pow_sub_one, Nat.testBit_shiftLeft, Nat.testBit_shiftRight,
    BitVec.testBit_toNat]
  by_cases hi : i < w
  · by_cases hk : i < k
    · simp [hi, hk]
    · simp [hi, hk, Nat.add_sub_cancel' (not_lt.mp hk), not_lt.mp hk]
  · rw [BitVec.getLsbD_of_ge x i (not_lt.mp hi)]
    by_cases hk : i < k
    · simp [hi, hk]
    · simp [hi, Nat.add_sub_cancel' (not_lt.mp hk), BitVec.getLsbD_of_ge x i (not_lt.mp hi)]

theorem toNat_round_up (x : BitVec w) (h : x.toNat + (2 ^ k - 1) < 2 ^ w) :
    ((x + BitVec.ofNat w (2 ^ k - 1)) &&& ~~~BitVec.ofNat w (2 ^ k - 1)).toNat =
      (x.toNat + (2 ^ k - 1)) / 2 ^ k * 2 ^ k := by
  rw [toNat_and_not_mask, BitVec.toNat_add, BitVec.toNat_ofNat,
    Nat.mod_eq_of_lt (Nat.lt_of_le_of_lt (Nat.le_add_left _ _) h), Nat.mod_eq_of_lt h]

/-! ## Powers of two -/

theorem toNat_sub_one {x : BitVec w} (hx : x ≠ 0) : (x - 1).toNat = x.toNat - 1 := by
  have hpos : 1 ≤ x.toNat := Nat.one_le_iff_ne_zero.mpr fun hzero =>
    hx (BitVec.eq_of_toNat_eq (by simpa using hzero))
  have hlt : 1 < 2 ^ w := lt_of_le_of_lt hpos x.isLt
  have hone : (1 : BitVec w).toNat = 1 := by
    simp [BitVec.toNat_ofNat, Nat.mod_eq_of_lt hlt]
  rw [BitVec.toNat_sub_of_le (by rw [BitVec.le_def, hone]; exact hpos), hone]

/-- A number that has no bit in common with the one before it is a power of two. -/
theorem toNat_eq_two_pow_ctz {x : BitVec w} (hx : x ≠ 0) (h : x &&& (x - 1) = 0) :
    x.toNat = 2 ^ x.ctz.toNat := by
  have hne : x.toNat ≠ 0 := fun hzero => hx (BitVec.eq_of_toNat_eq (by simpa using hzero))
  have hand := congrArg BitVec.toNat h
  rw [BitVec.toNat_and, toNat_sub_one hx] at hand
  obtain ⟨k, hk⟩ := (Nat.and_sub_one_eq_zero_iff_isPowerOfTwo hne).mp (by simpa using hand)
  have hbit := BitVec.getLsbD_true_ctz_of_ne_zero hx
  rw [← BitVec.testBit_toNat, hk, Nat.testBit_two_pow, decide_eq_true_iff] at hbit
  rw [hk, hbit]

theorem toNat_and_sub_one {d : BitVec w} (hd : d.toNat = 2 ^ k) (x : BitVec w) :
    (x &&& (d - 1)).toNat = x.toNat % 2 ^ k := by
  have hne : d ≠ 0 := by
    rintro rfl
    exact absurd hd.symm (by simp)
  rw [BitVec.toNat_and, toNat_sub_one hne, hd, Nat.and_two_pow_sub_one_eq_mod]

end Masks
