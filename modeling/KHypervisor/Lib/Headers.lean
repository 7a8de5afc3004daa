import KHypervisor.Lib.ByteStrings

/-!
# Headers of two words

A header is a doubleword at an aligned address, of which either word can be read and written. The
headers at different addresses do not overlap, so that each word of each header is a cell of its
own, and an assignment to a header changes no byte outside its doubleword: `SameOff`.
-/

namespace ByteMemory

variable {w : ℕ}

/-- The bytes of the doublewords that are not in `U` are the same. -/
def SameOff (U : Set ℕ) (m m' : Memory w) : Prop := ∀ a : BitVec w, a.toNat / 8 ∉ U → m' a = m a

theorem SameOff.refl (U : Set ℕ) (m : Memory w) : SameOff U m m := fun _ _ => rfl

theorem SameOff.trans {U : Set ℕ} {m m' m'' : Memory w} (h : SameOff U m m')
    (h' : SameOff U m' m'') : SameOff U m m'' :=
  fun a ha => (h' a ha).trans (h a ha)

theorem SameOff.mono {U V : Set ℕ} {m m' : Memory w} (h : SameOff U m m') (hsub : U ⊆ V) :
    SameOff V m m' :=
  fun a ha => h a fun hU => ha (hsub hU)

/-! ## Aligned words -/

theorem add_four_le (hw : 3 ≤ w) {a : BitVec w} (ha : 4 ∣ a.toNat) : a.toNat + 4 ≤ 2 ^ w := by
  have hpow : 4 ∣ 2 ^ w := Nat.pow_dvd_pow 2 (show 2 ≤ w by omega)
  have hlt := a.isLt
  omega

theorem read32_write32_of_ne (hw : 3 ≤ w) (m : Memory w) {a b : BitVec w} (v : BitVec 32)
    (ha : 4 ∣ a.toNat) (hb : 4 ∣ b.toNat) (hne : b ≠ a) :
    read32 (write32 m a v) b = read32 m b := by
  have hfita := add_four_le hw ha
  have hfitb := add_four_le hw hb
  have htoNat : b.toNat ≠ a.toNat := fun heq => hne (BitVec.eq_of_toNat_eq heq)
  apply read32_congr
  intro k hk
  have hbyte := toNat_add_ofNat (show b.toNat + k < 2 ^ w by omega)
  exact write32_of_far m v hfita (by omega)

/-! ## The words of a header -/

def first (m : Memory w) (a : BitVec w) : BitVec 32 := read32 m a

def second (m : Memory w) (a : BitVec w) : BitVec 32 := read32 m (a + 4)

def setFirst (m : Memory w) (a : BitVec w) (v : BitVec 32) : Memory w := write32 m a v

def setSecond (m : Memory w) (a : BitVec w) (v : BitVec 32) : Memory w := write32 m (a + 4) v

section Aligned

variable {a b : BitVec w} (m : Memory w) (v : BitVec 32)

theorem Aligned.four_dvd (ha : Aligned a) : 4 ∣ a.toNat := Dvd.dvd.trans ⟨2, rfl⟩ ha

theorem Aligned.toNat_add_four (hw : 3 ≤ w) (ha : Aligned a) : (a + 4).toNat = a.toNat + 4 := by
  have hpow : (8 : ℕ) ∣ 2 ^ w := Nat.pow_dvd_pow 2 hw
  have hlt := a.isLt
  have ha : 8 ∣ a.toNat := ha
  exact toNat_add_ofNat (k := 4) (by omega)

theorem Aligned.four_dvd_add (hw : 3 ≤ w) (ha : Aligned a) : 4 ∣ (a + 4).toNat := by
  rw [ha.toNat_add_four hw]
  exact (Nat.dvd_add_right ha.four_dvd).mpr ⟨1, rfl⟩

theorem Aligned.add_four_ne (hw : 3 ≤ w) (ha : Aligned a) (hb : Aligned b) : a + 4 ≠ b := by
  intro heq
  have haddr := ha.toNat_add_four hw
  have ha : 8 ∣ a.toNat := ha
  have hb : 8 ∣ b.toNat := hb
  rw [heq] at haddr
  omega

theorem first_setFirst (hw : 3 ≤ w) (ha : Aligned a) (hb : Aligned b) :
    first (setFirst m a v) b = if b = a then v else first m b := by
  split
  · rename_i heq
    rw [heq]
    exact read32_write32_same hw m a v
  · rename_i hne
    exact read32_write32_of_ne hw m v ha.four_dvd hb.four_dvd hne

theorem second_setSecond (hw : 3 ≤ w) (ha : Aligned a) (hb : Aligned b) :
    second (setSecond m a v) b = if b = a then v else second m b := by
  split
  · rename_i heq
    rw [heq]
    exact read32_write32_same hw m _ v
  · rename_i hne
    exact read32_write32_of_ne hw m v (ha.four_dvd_add hw) (hb.four_dvd_add hw)
      fun heq => hne (add_right_cancel heq)

theorem first_setSecond (hw : 3 ≤ w) (ha : Aligned a) (hb : Aligned b) :
    first (setSecond m a v) b = first m b :=
  read32_write32_of_ne hw m v (ha.four_dvd_add hw) hb.four_dvd (ha.add_four_ne hw hb).symm

theorem second_setFirst (hw : 3 ≤ w) (ha : Aligned a) (hb : Aligned b) :
    second (setFirst m a v) b = second m b :=
  read32_write32_of_ne hw m v ha.four_dvd (hb.four_dvd_add hw) (hb.add_four_ne hw ha)

theorem sameOff_setFirst (hw : 3 ≤ w) (ha : Aligned a) :
    SameOff {a.toNat / 8} m (setFirst m a v) := by
  intro b hb
  have hfit := add_four_le hw ha.four_dvd
  have ha : 8 ∣ a.toNat := ha
  rw [Set.mem_singleton_iff] at hb
  exact write32_of_far m v hfit (by omega)

theorem sameOff_setSecond (hw : 3 ≤ w) (ha : Aligned a) :
    SameOff {a.toNat / 8} m (setSecond m a v) := by
  intro b hb
  have haddr := ha.toNat_add_four hw
  have hfit := add_four_le hw (ha.four_dvd_add hw)
  have ha : 8 ∣ a.toNat := ha
  rw [Set.mem_singleton_iff] at hb
  exact write32_of_far m v hfit (by omega)

theorem SameOff.first_eq {U : Set ℕ} {m m' : Memory w} (h : SameOff U m m') (hw : 3 ≤ w)
    (ha : Aligned a) (hU : a.toNat / 8 ∉ U) : first m' a = first m a := by
  have hfit := add_four_le hw ha.four_dvd
  have ha : 8 ∣ a.toNat := ha
  apply read32_congr
  intro k hk
  refine h _ ?_
  rw [toNat_add_ofNat (by omega), show (a.toNat + k) / 8 = a.toNat / 8 by omega]
  exact hU

theorem SameOff.second_eq {U : Set ℕ} {m m' : Memory w} (h : SameOff U m m') (hw : 3 ≤ w)
    (ha : Aligned a) (hU : a.toNat / 8 ∉ U) : second m' a = second m a := by
  have haddr := ha.toNat_add_four hw
  have hfit := add_four_le hw (ha.four_dvd_add hw)
  have ha : 8 ∣ a.toNat := ha
  apply read32_congr
  intro k hk
  refine h _ ?_
  rw [toNat_add_ofNat (by omega), show ((a + 4).toNat + k) / 8 = a.toNat / 8 by omega]
  exact hU

end Aligned

end ByteMemory
