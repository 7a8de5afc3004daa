import KHypervisor.Lib.ByteStrings
import Mathlib.Tactic.Abel

/-!
# Copies and fills of memory

Bytes are copied one after the other, from the first one up or from the last one down. Both do what
a copy should as long as no byte is overwritten before it is read, which depends on the distance of
the two addresses around the address space: `copyUp_apply` and `copyDown_apply`. Between aligned
addresses words can be copied as well: `copyWords_eq`.
-/

namespace ByteMemory

variable {w : ℕ}

/-- Copy `n` bytes from `s` to `d`, the first one first. -/
def copyUp (m : Memory w) (d s : BitVec w) : ℕ → Memory w
  | 0 => m
  | n + 1 => copyUp (Function.update m d (m s)) (d + 1) (s + 1) n

/-- Copy `n` bytes from `s` to `d`, the last one first. -/
def copyDown (m : Memory w) (d s : BitVec w) : ℕ → Memory w
  | 0 => m
  | n + 1 =>
      copyDown (Function.update m (d + BitVec.ofNat w n) (m (s + BitVec.ofNat w n))) d s n

/-- Copy `n` words from `s` to `d`, the first one first. -/
def copyWords (m : Memory w) (d s : BitVec w) : ℕ → Memory w
  | 0 => m
  | n + 1 => copyWords (write32 m d (read32 m s)) (d + 4) (s + 4) n

/-- Store `x` to `n` bytes from `a` on. -/
def fill (m : Memory w) (a : BitVec w) (x : BitVec 8) : ℕ → Memory w
  | 0 => m
  | n + 1 => fill (Function.update m a x) (a + 1) x n

section Distance

variable {a d s : BitVec w} {n : ℕ}

theorem toNat_sub_succ (hw : 3 ≤ w) (h : a ≠ d) : (a - d).toNat = (a - (d + 1)).toNat + 1 := by
  have hpow : 2 ^ 3 ≤ 2 ^ w := Nat.pow_le_pow_right (by decide) hw
  have hone : (1 : BitVec w).toNat = 1 := toNat_ofNat_small hw (k := 1) (by decide)
  have hne : (a - d).toNat ≠ 0 := by
    intro hzero
    exact h (sub_eq_zero.mp (BitVec.eq_of_toNat_eq (by simpa using hzero)))
  have hlt := (a - d).isLt
  rw [show a - (d + 1) = a - d - 1 by rw [sub_sub], BitVec.toNat_sub (a - d), hone,
    show 2 ^ w - 1 + (a - d).toNat = (a - d).toNat - 1 + 2 ^ w by omega, Nat.add_mod_right,
    Nat.mod_eq_of_lt (by omega)]
  omega

theorem toNat_sub_succ_self (hw : 3 ≤ w) (d : BitVec w) : (d - (d + 1)).toNat = 2 ^ w - 1 := by
  have hneg : d - (d + 1) = -1 := sub_add_cancel_left d 1
  have hone : (1 : BitVec w).toNat = 1 := toNat_ofNat_small hw (k := 1) (by decide)
  have hpow := Nat.two_pow_pos w
  rw [hneg, BitVec.toNat_neg, hone, Nat.mod_eq_of_lt (by omega)]

theorem toNat_sub_lt_iff (h : d.toNat + n ≤ 2 ^ w) :
    (a - d).toNat < n ↔ d.toNat ≤ a.toNat ∧ a.toNat < d.toNat + n := by
  have ha := a.isLt
  rw [BitVec.toNat_sub]
  rcases Nat.lt_or_ge a.toNat d.toNat with hlt | hge
  · rw [Nat.mod_eq_of_lt (by omega)]
    omega
  · rw [show 2 ^ w - d.toNat + a.toNat = a.toNat - d.toNat + 2 ^ w by omega, Nat.add_mod_right,
      Nat.mod_eq_of_lt (by omega)]
    omega

/-- A block that does not overlap another one does not begin in it. -/
theorem le_toNat_sub (hs : s.toNat + n ≤ 2 ^ w)
    (h : d.toNat + n ≤ s.toNat ∨ s.toNat + n ≤ d.toNat) : n ≤ (d - s).toNat := by
  rw [← not_lt, toNat_sub_lt_iff hs]
  omega

end Distance

variable {n : ℕ}

/-- A copy from the first byte up, where the destination is the source or not before it is
over. -/
theorem copyUp_apply (hw : 3 ≤ w) (m : Memory w) {d s : BitVec w} (hn : n ≤ 2 ^ w)
    (hdist : d = s ∨ n ≤ (d - s).toNat) (a : BitVec w) :
    copyUp m d s n a = if (a - d).toNat < n then m (s + (a - d)) else m a := by
  induction n generalizing m d s with
  | zero => rfl
  | succ n ih =>
      have hnext : d + 1 = s + 1 ∨ n ≤ (d + 1 - (s + 1)).toNat := by
        rw [add_sub_add_right_eq_sub]
        exact hdist.imp (fun h => by rw [h]) (fun h => by omega)
      rw [copyUp, ih (Function.update m d (m s)) (by omega) hnext]
      by_cases had : a = d
      · subst had
        rw [toNat_sub_succ_self hw, if_neg (by omega), Function.update_self, sub_self,
          if_pos (by simp), add_zero]
      · have hsucc := toNat_sub_succ hw had
        have hshift : s + 1 + (a - (d + 1)) = s + (a - d) := by abel
        simp only [Function.update_of_ne had, hsucc, Nat.add_lt_add_iff_right, hshift]
        split
        · rename_i hlt
          refine Function.update_of_ne (fun heq => ?_) _ _
          have hback : a - d = d - s := eq_sub_of_add_eq' heq
          rw [hback] at hsucc
          rcases hdist with rfl | hdist
          · rw [sub_self] at hback
            exact had (sub_eq_zero.mp hback)
          · omega
        · rfl

/-- A copy from the last byte down, where the source is the destination or not before it is
over. -/
theorem copyDown_apply (m : Memory w) {d s : BitVec w} (hn : n ≤ 2 ^ w)
    (hdist : d = s ∨ n ≤ (s - d).toNat) (a : BitVec w) :
    copyDown m d s n a = if (a - d).toNat < n then m (s + (a - d)) else m a := by
  induction n generalizing m with
  | zero => rfl
  | succ n ih =>
      have hlast : (BitVec.ofNat w n).toNat = n := by
        rw [BitVec.toNat_ofNat, Nat.mod_eq_of_lt (by omega)]
      have heq_iff : a = d + BitVec.ofNat w n ↔ (a - d).toNat = n := by
        rw [← sub_eq_iff_eq_add', ← BitVec.toNat_inj, hlast]
      rw [copyDown, ih _ (by omega) (hdist.imp_right fun h => by omega)]
      rcases lt_trichotomy (a - d).toNat n with hlt | heq | hgt
      · rw [if_pos hlt, if_pos (by omega)]
        refine Function.update_of_ne (fun heq => ?_) _ _
        have hsum : s - d + (a - d) = BitVec.ofNat w n := by
          rw [← sub_eq_iff_eq_add'] at heq
          rw [← heq]
          abel
        have htoNat := congrArg BitVec.toNat hsum
        rw [BitVec.toNat_add, hlast] at htoNat
        have hlow := (s - d).isLt
        rcases hdist with rfl | hdist
        · rw [sub_self, zero_add] at hsum
          rw [hsum, hlast] at hlt
          exact absurd hlt (lt_irrefl n)
        · rcases Nat.lt_or_ge ((s - d).toNat + (a - d).toNat) (2 ^ w) with h | h
          · rw [Nat.mod_eq_of_lt h] at htoNat
            omega
          · rw [Nat.mod_eq_sub_mod h, Nat.mod_eq_of_lt (by omega)] at htoNat
            omega
      · rw [if_neg (by omega), if_pos (by omega), heq_iff.mpr heq, Function.update_self,
          add_sub_cancel_left]
      · rw [if_neg (by omega), if_neg (by omega)]
        exact Function.update_of_ne (fun h => by rw [heq_iff] at h; omega) _ _

theorem fill_apply (hw : 3 ≤ w) (m : Memory w) (a : BitVec w) (x : BitVec 8) (hn : n ≤ 2 ^ w)
    (b : BitVec w) : fill m a x n b = if (b - a).toNat < n then x else m b := by
  induction n generalizing m a with
  | zero => rfl
  | succ n ih =>
      rw [fill, ih _ _ (by omega)]
      by_cases hba : b = a
      · subst hba
        rw [toNat_sub_succ_self hw, if_neg (by omega), Function.update_self, sub_self,
          if_pos (by simp)]
      · simp only [Function.update_of_ne hba, toNat_sub_succ hw hba, Nat.add_lt_add_iff_right]

/-! ## Words -/

theorem copyUp_add (m : Memory w) (d s : BitVec w) (i j : ℕ) :
    copyUp m d s (i + j) =
      copyUp (copyUp m d s i) (d + BitVec.ofNat w i) (s + BitVec.ofNat w i) j := by
  induction i generalizing m d s with
  | zero => simp [copyUp]
  | succ i ih =>
      rw [Nat.succ_add, copyUp, copyUp, ih, add_assoc, add_assoc]
      simp [BitVec.ofNat_add, add_comm]

theorem fill_add (m : Memory w) (a : BitVec w) (x : BitVec 8) (i j : ℕ) :
    fill m a x (i + j) = fill (fill m a x i) (a + BitVec.ofNat w i) x j := by
  induction i generalizing m a with
  | zero => simp [fill]
  | succ i ih =>
      rw [Nat.succ_add, fill, fill, ih, add_assoc]
      simp [BitVec.ofNat_add, add_comm]

theorem extract_read32 (m : Memory w) (a : BitVec w) {k : ℕ} (hk : k < 4) :
    (read32 m a).extractLsb' (8 * k) 8 = m (a + BitVec.ofNat w k) := by
  apply BitVec.eq_of_getLsbD_eq
  intro i hi
  rw [BitVec.getLsbD_extractLsb', getLsbD_read32 m a (by omega),
    show (8 * k + i) / 8 = k by omega, show (8 * k + i) % 8 = i by omega]
  simp [hi]

theorem dvd_toNat_sub (hw : 3 ≤ w) {d s : BitVec w} (hd : 4 ∣ d.toNat) (hs : 4 ∣ s.toNat) :
    4 ∣ (d - s).toNat := by
  have hpow : 4 ∣ 2 ^ w := Nat.pow_dvd_pow 2 (show 2 ≤ w by omega)
  have hlt := s.isLt
  rw [BitVec.toNat_sub, Nat.dvd_mod_iff hpow]
  omega

theorem dvd_toNat_add_four (hw : 3 ≤ w) {d : BitVec w} (hd : 4 ∣ d.toNat) :
    4 ∣ (d + 4).toNat := by
  have hpow : 4 ∣ 2 ^ w := Nat.pow_dvd_pow 2 (show 2 ≤ w by omega)
  have hfour : (4 : BitVec w).toNat = 4 := toNat_ofNat_small hw (k := 4) (by decide)
  rw [BitVec.toNat_add, Nat.dvd_mod_iff hpow, hfour]
  omega

/-- Between aligned addresses four bytes are a word, even if they are the same word. -/
theorem copyUp_four (hw : 3 ≤ w) (m : Memory w) {d s : BitVec w} (hd : 4 ∣ d.toNat)
    (hs : 4 ∣ s.toNat) : copyUp m d s 4 = write32 m d (read32 m s) := by
  have hpow : 2 ^ 3 ≤ 2 ^ w := Nat.pow_le_pow_right (by decide) hw
  have hdvd := dvd_toNat_sub hw hd hs
  have hdist : d = s ∨ 4 ≤ (d - s).toNat := by
    by_cases hzero : (d - s).toNat = 0
    · exact .inl (sub_eq_zero.mp (BitVec.eq_of_toNat_eq (by simpa using hzero)))
    · omega
  funext a
  rw [copyUp_apply hw m (by omega) hdist, write32]
  split
  · rename_i hlt
    rw [extract_read32 m s hlt, BitVec.ofNat_toNat, BitVec.setWidth_eq]
  · rfl

theorem copyWords_eq (hw : 3 ≤ w) (m : Memory w) {d s : BitVec w} (hd : 4 ∣ d.toNat)
    (hs : 4 ∣ s.toNat) (n : ℕ) : copyWords m d s n = copyUp m d s (4 * n) := by
  induction n generalizing m d s with
  | zero => rfl
  | succ n ih =>
      rw [copyWords, ih _ (dvd_toNat_add_four hw hd) (dvd_toNat_add_four hw hs),
        ← copyUp_four hw m hd hs, Nat.mul_succ, Nat.add_comm, copyUp_add]
      rfl

theorem fill_four (hw : 3 ≤ w) (m : Memory w) (a : BitVec w) {x : BitVec 8} {v : BitVec 32}
    (hv : ∀ k < 4, v.extractLsb' (8 * k) 8 = x) : fill m a x 4 = write32 m a v := by
  have hpow : 2 ^ 3 ≤ 2 ^ w := Nat.pow_le_pow_right (by decide) hw
  funext b
  rw [fill_apply hw m a x (by omega), write32]
  split
  · rename_i hlt
    rw [hv _ hlt]
  · rfl

end ByteMemory
