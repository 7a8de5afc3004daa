import Mathlib.Data.BitVec
import Mathlib.Tactic.IntervalCases

/-!
# Byte-addressed memory with word and doubleword accesses

A memory gives the byte stored at every address of a `w`-bit address space. A doubleword access
reads or writes the eight bytes from its address on, least significant byte first, and wraps at
the end of the address space as the address arithmetic does. A word access does so with four bytes.

Two aligned doublewords are either the same or disjoint, so that on aligned addresses the memory
behaves as a map from addresses to 64-bit words: `read64_write64`.
-/

namespace ByteMemory

variable {w : ℕ}

/-- The byte at every address of a `w`-bit address space. -/
abbrev Memory (w : ℕ) := BitVec w → BitVec 8

def Aligned (a : BitVec w) : Prop := 8 ∣ a.toNat

instance (a : BitVec w) : Decidable (Aligned a) := inferInstanceAs (Decidable (8 ∣ a.toNat))

/-- The doubleword at `a`, little endian. -/
def read64 (m : Memory w) (a : BitVec w) : BitVec 64 :=
  m (a + 7) ++ m (a + 6) ++ m (a + 5) ++ m (a + 4) ++ m (a + 3) ++ m (a + 2) ++ m (a + 1) ++ m a

/-- The memory after storing the doubleword `v` at `a`. -/
def write64 (m : Memory w) (a : BitVec w) (v : BitVec 64) : Memory w := fun b =>
  if (b - a).toNat < 8 then v.extractLsb' (8 * (b - a).toNat) 8 else m b

theorem getLsbD_read64 (m : Memory w) (a : BitVec w) {i : ℕ} (hi : i < 64) :
    (read64 m a).getLsbD i = (m (a + BitVec.ofNat w (i / 8))).getLsbD (i % 8) := by
  obtain ⟨k, hk⟩ : ∃ k, i / 8 = k := ⟨_, rfl⟩
  have hbyte : k < 8 := by omega
  rw [hk]
  simp only [read64, BitVec.getLsbD_append]
  interval_cases k <;> grind

theorem write64_of_far (m : Memory w) {a b : BitVec w} (v : BitVec 64)
    (h : 8 ≤ (b - a).toNat) : write64 m a v b = m b := by
  rw [write64, if_neg (by omega)]

theorem read64_congr {m m' : Memory w} {a : BitVec w}
    (h : ∀ k < 8, m (a + BitVec.ofNat w k) = m' (a + BitVec.ofNat w k)) :
    read64 m a = read64 m' a := by
  apply BitVec.eq_of_getLsbD_eq
  intro i hi
  rw [getLsbD_read64 m a hi, getLsbD_read64 m' a hi, h (i / 8) (by omega)]

theorem toNat_ofNat_small (hw : 3 ≤ w) {k : ℕ} (hk : k < 8) :
    (BitVec.ofNat w k).toNat = k := by
  have hpow : 2 ^ 3 ≤ 2 ^ w := Nat.pow_le_pow_right (by omega) hw
  rw [BitVec.toNat_ofNat, Nat.mod_eq_of_lt (by omega)]

theorem read64_write64_same (hw : 3 ≤ w) (m : Memory w) (a : BitVec w) (v : BitVec 64) :
    read64 (write64 m a v) a = v := by
  apply BitVec.eq_of_getLsbD_eq
  intro i hi
  have hk : i / 8 < 8 := by omega
  have hoff : (a + BitVec.ofNat w (i / 8) - a).toNat = i / 8 := by
    rw [add_sub_cancel_left, toNat_ofNat_small hw hk]
  rw [getLsbD_read64 _ _ hi, write64, hoff, if_pos hk, BitVec.getLsbD_extractLsb']
  have hlow : i % 8 < 8 := Nat.mod_lt _ (by omega)
  rw [Nat.div_add_mod]
  simp [hlow]

/-- The eight bytes of one aligned doubleword keep away from every other aligned doubleword. -/
theorem far_of_aligned (hw : 3 ≤ w) {a b : BitVec w} (ha : Aligned a) (hb : Aligned b)
    (hne : a ≠ b) {k : ℕ} (hk : k < 8) : 8 ≤ (b + BitVec.ofNat w k - a).toNat := by
  have hpow : (8 : ℕ) ∣ 2 ^ w := Nat.pow_dvd_pow 2 hw
  have hdiv : (8 : ℕ) ∣ (b - a).toNat := by
    rw [BitVec.toNat_sub]
    have hsum : (8 : ℕ) ∣ 2 ^ w - a.toNat + b.toNat := Nat.dvd_add (Nat.dvd_sub hpow ha) hb
    exact (Nat.dvd_mod_iff hpow).mpr hsum
  have hpos : (b - a).toNat ≠ 0 := by
    intro h
    have hzero : b - a = 0 := BitVec.eq_of_toNat_eq (by simpa using h)
    exact hne (sub_eq_zero.mp hzero).symm
  have hlt := (b - a).isLt
  have hswap : b + BitVec.ofNat w k - a = b - a + BitVec.ofNat w k :=
    add_sub_right_comm b _ a
  rw [hswap, BitVec.toNat_add, toNat_ofNat_small hw hk]
  obtain ⟨c, hc⟩ := hdiv
  obtain ⟨d, hd⟩ := hpow
  rw [Nat.mod_eq_of_lt (by omega)]
  omega

theorem read64_write64_of_ne (hw : 3 ≤ w) (m : Memory w) {a b : BitVec w} (v : BitVec 64)
    (ha : Aligned a) (hb : Aligned b) (hne : a ≠ b) :
    read64 (write64 m a v) b = read64 m b := by
  apply read64_congr
  intro k hk
  exact write64_of_far m v (far_of_aligned hw ha hb hne hk)

/-- On aligned addresses a memory is a map from addresses to doublewords. -/
theorem read64_write64 (hw : 3 ≤ w) (m : Memory w) {a b : BitVec w} (v : BitVec 64)
    (ha : Aligned a) (hb : Aligned b) :
    read64 (write64 m a v) b = if a = b then v else read64 m b := by
  by_cases h : a = b
  · subst h
    rw [if_pos rfl, read64_write64_same hw]
  · rw [if_neg h, read64_write64_of_ne hw m v ha hb h]

/-! ## Words of 32 bits -/

/-- The word at `a`, little endian. -/
def read32 (m : Memory w) (a : BitVec w) : BitVec 32 := m (a + 3) ++ m (a + 2) ++ m (a + 1) ++ m a

/-- The memory after storing the word `v` at `a`. -/
def write32 (m : Memory w) (a : BitVec w) (v : BitVec 32) : Memory w := fun b =>
  if (b - a).toNat < 4 then v.extractLsb' (8 * (b - a).toNat) 8 else m b

theorem getLsbD_read32 (m : Memory w) (a : BitVec w) {i : ℕ} (hi : i < 32) :
    (read32 m a).getLsbD i = (m (a + BitVec.ofNat w (i / 8))).getLsbD (i % 8) := by
  obtain ⟨k, hk⟩ : ∃ k, i / 8 = k := ⟨_, rfl⟩
  have hbyte : k < 4 := by omega
  rw [hk]
  simp only [read32, BitVec.getLsbD_append]
  interval_cases k <;> grind

theorem read32_write32_same (hw : 3 ≤ w) (m : Memory w) (a : BitVec w) (v : BitVec 32) :
    read32 (write32 m a v) a = v := by
  apply BitVec.eq_of_getLsbD_eq
  intro i hi
  have hk : i / 8 < 4 := by omega
  have hoff : (a + BitVec.ofNat w (i / 8) - a).toNat = i / 8 := by
    rw [add_sub_cancel_left, toNat_ofNat_small hw (by omega)]
  rw [getLsbD_read32 _ _ hi, write32, hoff, if_pos hk, BitVec.getLsbD_extractLsb']
  have hlow : i % 8 < 8 := Nat.mod_lt _ (by omega)
  rw [Nat.div_add_mod]
  simp [hlow]

end ByteMemory
