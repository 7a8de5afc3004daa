import Mathlib.Data.BitVec
import Mathlib.Algebra.Order.Ring.Nat
import Mathlib.Tactic.Ring

/-!
# Division digit by digit

The quotient of a number is made of the quotient of its upper bits: with the next bit the remainder
is doubled, and the next digit of the quotient is one if the divisor goes into it. The upper bits of
a word can be moved to another word in two shifts, and a difference of words shows in its sign
which one of them is the larger if they are not far apart.
-/

namespace LongDivision

/-! ## Digits -/

section Digits

variable {a b d k : ℕ}

def digit (r b d : ℕ) : ℕ := if d ≤ 2 * r + b then 1 else 0

theorem div_double_add (hd : 0 < d) (hb : b < 2) :
    (2 * a + b) / d = 2 * (a / d) + digit (a % d) b d ∧
      (2 * a + b) % d = 2 * (a % d) + b - d * digit (a % d) b d := by
  have hdiv := Nat.div_add_mod a d
  have hlt := Nat.mod_lt a hd
  rw [Nat.div_mod_unique hd, Nat.mul_add, Nat.mul_left_comm]
  generalize d * (a / d) = q at *
  rw [digit]
  split
  · rw [Nat.mul_one]
    omega
  · rw [Nat.mul_zero]
    omega

/-- The bits of a number from `k` on are those from the next one on, and one more. -/
theorem div_two_pow (a k : ℕ) : a / 2 ^ k = 2 * (a / 2 ^ (k + 1)) + a / 2 ^ k % 2 := by
  rw [Nat.pow_succ, ← Nat.div_div_eq_div_mul]
  omega

/-- The bits of a number below the next one are those below `k`, and one more. -/
theorem mod_two_pow_succ (a k : ℕ) : a % 2 ^ (k + 1) = 2 ^ k * (a / 2 ^ k % 2) + a % 2 ^ k := by
  rw [Nat.pow_succ, Nat.mod_mul]
  omega

/-- Of a word with the bits below the next one on top and `q` at the bottom, the highest bit is the
next one. -/
theorem register_split {n q : ℕ} (hk : k ≤ n) (hq : q < 2 ^ (n - k)) :
    a % 2 ^ (k + 1) * 2 ^ (n - k) + q =
        a / 2 ^ k % 2 * 2 ^ n + (a % 2 ^ k * 2 ^ (n - k) + q) ∧
      a % 2 ^ k * 2 ^ (n - k) + q < 2 ^ n := by
  have hpow : 2 ^ n = 2 ^ k * 2 ^ (n - k) := by
    rw [← Nat.pow_add, Nat.add_sub_cancel' hk]
  have hlt : a % 2 ^ k + 1 ≤ 2 ^ k := Nat.mod_lt a (Nat.two_pow_pos k)
  constructor
  · rw [mod_two_pow_succ, hpow]
    ring
  · calc a % 2 ^ k * 2 ^ (n - k) + q < a % 2 ^ k * 2 ^ (n - k) + 2 ^ (n - k) := by omega
      _ = (a % 2 ^ k + 1) * 2 ^ (n - k) := by ring
      _ ≤ 2 ^ n := by
          rw [hpow]
          exact Nat.mul_le_mul_right _ hlt

end Digits

/-! ## Words -/

section Words

variable {w : ℕ}

/-- The bits of two words, the upper ones of the second below the lower ones of the first. -/
theorem toNat_shiftLeft_or {i j : ℕ} (x y : BitVec w) (hij : i + j = w) :
    (x <<< i ||| y >>> j).toNat = x.toNat * 2 ^ i % 2 ^ w + y.toNat / 2 ^ j := by
  have hpow : 2 ^ w = 2 ^ j * 2 ^ i := by
    rw [← Nat.pow_add, Nat.add_comm, hij]
  have hhigh : x.toNat * 2 ^ i % 2 ^ w = x.toNat % 2 ^ j * 2 ^ i := by
    rw [hpow, Nat.mul_mod_mul_right]
  have hlow : y.toNat / 2 ^ j < 2 ^ i := by
    rw [Nat.div_lt_iff_lt_mul (Nat.two_pow_pos j), ← Nat.pow_add, hij]
    exact y.isLt
  rw [BitVec.toNat_or, BitVec.toNat_shiftLeft, BitVec.toNat_ushiftRight, Nat.shiftLeft_eq,
    Nat.shiftRight_eq_div_pow, hhigh, Nat.mul_comm, Nat.two_pow_add_eq_or_of_lt hlow]

theorem toNat_shiftLeft_one_or (x c : BitVec w) (hc : c.toNat < 2) :
    (x <<< 1 ||| c).toNat = x.toNat * 2 % 2 ^ w + c.toNat := by
  cases w with
  | zero => simp [BitVec.of_length_zero]
  | succ w =>
      have hhigh : x.toNat * 2 % 2 ^ (w + 1) = 2 ^ 1 * (x.toNat % 2 ^ w) := by
        rw [Nat.pow_one, Nat.pow_succ, Nat.mul_mod_mul_right, Nat.mul_comm]
      rw [BitVec.toNat_or, BitVec.toNat_shiftLeft, Nat.shiftLeft_eq, Nat.pow_one, hhigh,
        Nat.two_pow_add_eq_or_of_lt hc]

theorem sshiftRight_of_msb (hw : 0 < w) (x : BitVec w) :
    x.sshiftRight (w - 1) = if x.msb then BitVec.allOnes w else 0 := by
  apply BitVec.eq_of_getLsbD_eq
  intro i hi
  rw [BitVec.getLsbD_sshiftRight]
  by_cases hzero : i = 0
  · subst hzero
    rw [Nat.add_zero, if_pos (Nat.sub_lt hw Nat.one_pos), ← BitVec.msb_eq_getLsbD_last]
    cases x.msb <;> simp [hw, hw.ne']
  · cases hmsb : x.msb <;> simp [hi, show ¬ w - 1 + i < w by omega]

theorem sshiftRight_sub (hw : 0 < w) (d r : BitVec w) (hlt : d.toNat - r.toNat ≤ 2 ^ (w - 1))
    (hge : r.toNat - d.toNat < 2 ^ (w - 1)) :
    (d - r - 1).sshiftRight (w - 1) = if d ≤ r then BitVec.allOnes w else 0 := by
  have hmsb : (d - r - 1).msb = decide (d ≤ r) := by
    have hd := d.isLt
    have hr := r.isLt
    have hhalf : 2 ^ w = 2 * 2 ^ (w - 1) := by
      rw [← Nat.pow_succ', Nat.succ_eq_add_one, Nat.sub_add_cancel hw]
    have hone : (1 : BitVec w).toNat = 1 := by
      simp [BitVec.toNat_ofNat, Nat.mod_eq_of_lt (Nat.one_lt_two_pow hw.ne')]
    rw [BitVec.msb_eq_decide, decide_eq_decide, BitVec.le_def, BitVec.toNat_sub, BitVec.toNat_sub,
      hone]
    generalize 2 ^ (w - 1) = half at *
    rw [hhalf] at hd hr ⊢
    rcases Nat.lt_or_ge r.toNat d.toNat with h | h
    · rw [show 2 * half - r.toNat + d.toNat = d.toNat - r.toNat + 2 * half by omega,
        Nat.add_mod_right, Nat.mod_eq_of_lt (a := d.toNat - r.toNat) (by omega),
        show 2 * half - 1 + (d.toNat - r.toNat) = d.toNat - r.toNat - 1 + 2 * half by omega,
        Nat.add_mod_right, Nat.mod_eq_of_lt (by omega)]
      omega
    · obtain ⟨k, hk⟩ := Nat.exists_eq_add_of_le h
      rw [hk, Nat.add_sub_cancel_left] at hge
      rcases Nat.eq_zero_or_pos k with rfl | hpos
      · rw [hk, Nat.add_zero, Nat.sub_add_cancel hd.le, Nat.mod_self, Nat.add_zero,
          Nat.mod_eq_of_lt (by omega)]
        omega
      · rw [Nat.mod_eq_of_lt (a := 2 * half - r.toNat + d.toNat) (by omega),
          show 2 * half - 1 + (2 * half - r.toNat + d.toNat) = 2 * half - k - 1 + 2 * half by omega,
          Nat.add_mod_right, Nat.mod_eq_of_lt (by omega)]
        omega
  rw [sshiftRight_of_msb hw, hmsb]
  simp

end Words

end LongDivision
