import KHypervisor.Lib.Copying
import KHypervisor.Lib.Masks
import KHypervisor.Types

/-!
# Functions on blocks of memory

`memcpy`, `memmove` and `memset` of `lib/c/src`, which return their first argument. Where addresses
and sizes are aligned they work on words, and `memset` on four words at a time.
-/

namespace KHypervisor.Libc

open ByteMemory

/-- `sizeof(uintptr_t) - 1`. -/
def wordAlign : U32 := 3

def memcpy (d s n : U32) (m : Memory 32) : U32 × Memory 32 :=
  if d &&& wordAlign ≠ 0 ∨ s &&& wordAlign ≠ 0 ∨ n &&& wordAlign ≠ 0 then
    (d, copyUp m d s n.toNat)
  else (d, copyWords m d s (n / 4).toNat)

def memmove (d s n : U32) (m : Memory 32) : U32 × Memory 32 :=
  -- "memcpy is ascending"
  if d ≤ s ∨ s + n ≤ d then memcpy d s n m else (d, copyDown m d s n.toNat)

/-- The loop of `memset` over words, four of them at a time where their number is a multiple of
four, with the pointer after it. -/
def fillWords (pattern : U32) : ℕ → U32 → Memory 32 → U32 × Memory 32
  | 0, p, m => (p, m)
  | num + 4, p, m =>
      if (num + 4) % 4 = 0 then
        fillWords pattern num (p + 4 + 4 + 4 + 4) <|
          write32 (write32 (write32 (write32 m p pattern) (p + 4) pattern) (p + 4 + 4) pattern)
            (p + 4 + 4 + 4) pattern
      else fillWords pattern (num + 3) (p + 4) (write32 m p pattern)
  | num + 1, p, m => fillWords pattern num (p + 4) (write32 m p pattern)

def memset (s c n : U32) (m : Memory 32) : U32 × Memory 32 :=
  let x := c.setWidth 8
  let num :=
    if s &&& wordAlign ≠ 0 then
      if wordAlign < n then 4 - (s &&& wordAlign) else n
    else 0
  let m := fill m s x num.toNat
  let n := n - num
  let w := x.setWidth 32
  let r := fillWords (w ||| w <<< 8 ||| w <<< 16 ||| w <<< 24) (n / 4).toNat (s + num) m
  (s, fill r.2 r.1 x (n &&& wordAlign).toNat)

section Memcpy

variable {d s n : U32}

theorem toNat_and_wordAlign (x : U32) : (x &&& wordAlign).toNat = x.toNat % 4 := by
  rw [BitVec.toNat_and]
  exact Nat.and_two_pow_sub_one_eq_mod x.toNat 2

theorem and_wordAlign_eq_zero_iff (x : U32) : x &&& wordAlign = 0 ↔ 4 ∣ x.toNat := by
  rw [← BitVec.toNat_inj, toNat_and_wordAlign, Nat.dvd_iff_mod_eq_zero]
  rfl

/-- Word by word or byte by byte, `memcpy` copies the bytes one after the other, whatever the
addresses. -/
theorem memcpy_eq_copyUp (d s n : U32) (m : Memory 32) :
    memcpy d s n m = (d, copyUp m d s n.toNat) := by
  rw [memcpy]
  split
  · rfl
  · rename_i haligned
    simp only [not_or, not_not, and_wordAlign_eq_zero_iff] at haligned
    obtain ⟨hd, hs, hn⟩ := haligned
    have hwords : 4 * (n / 4).toNat = n.toNat := by
      rw [BitVec.toNat_udiv]
      exact Nat.mul_div_cancel' hn
    rw [copyWords_eq (by decide) m hd hs, hwords]

/-- `memmove` copies a block to any place, also over itself. -/
theorem memmove_apply (d s n : U32) (m : Memory 32) (hd : d.toNat + n.toNat ≤ 2 ^ 32)
    (hs : s.toNat + n.toNat ≤ 2 ^ 32) :
    (memmove d s n m).1 = d ∧ ∀ a,
      (memmove d s n m).2 a = if (a - d).toNat < n.toNat then m (s + (a - d)) else m a := by
  have hn : n.toNat ≤ 2 ^ 32 := n.isLt.le
  rw [memmove]
  split
  · rename_i hup
    rw [memcpy_eq_copyUp]
    refine ⟨rfl, copyUp_apply (by decide) m hn ?_⟩
    by_cases heq : d = s
    · exact .inl heq
    · have hne : d.toNat ≠ s.toNat := fun h => heq (BitVec.eq_of_toNat_eq h)
      rw [BitVec.le_def, BitVec.le_def, BitVec.toNat_add] at hup
      rw [BitVec.toNat_sub]
      omega
  · rename_i hdown
    refine ⟨rfl, copyDown_apply m hn (.inr ?_)⟩
    rw [not_or, BitVec.le_def, BitVec.le_def, BitVec.toNat_add] at hdown
    rw [BitVec.toNat_sub]
    omega

/-- A block is moved up by one byte, over itself. -/
theorem memmove_apply_overlap :
    (memmove 0x101 0x100 8 fun a => a.setWidth 8).1 = 0x101 ∧ ∀ a : U32,
      (memmove 0x101 0x100 8 fun a => a.setWidth 8).2 a =
        if (a - 0x101).toNat < (8 : U32).toNat then (0x100 + (a - 0x101)).setWidth 8
        else a.setWidth 8 :=
  memmove_apply 0x101 0x100 8 (fun a => a.setWidth 8) (by decide) (by decide)

end Memcpy

/-! ## `memset` -/

section Memset

variable {x : U8} {pattern : U32}

theorem fill_word (hx : ∀ k < 4, pattern.extractLsb' (8 * k) 8 = x) (p : U32) (m : Memory 32)
    (k : ℕ) : fill m p x (4 * (k + 1)) = fill (write32 m p pattern) (p + 4) x (4 * k) := by
  rw [Nat.mul_succ, Nat.add_comm, fill_add, fill_four (by decide) m p hx]
  rfl

theorem add_four_ofNat (p : U32) (k : ℕ) :
    p + 4 + BitVec.ofNat 32 (4 * k) = p + BitVec.ofNat 32 (4 * (k + 1)) := by
  rw [Nat.mul_succ, Nat.add_comm, BitVec.ofNat_add, add_assoc]
  rfl

theorem fillWords_eq (hx : ∀ k < 4, pattern.extractLsb' (8 * k) 8 = x) (num : ℕ) (p : U32)
    (m : Memory 32) :
    fillWords pattern num p m = (p + BitVec.ofNat 32 (4 * num), fill m p x (4 * num)) := by
  induction num, p, m using fillWords.induct pattern with
  | case1 p m => simp [fillWords, fill]
  | case2 num p m hmod ih =>
      have hword := fill_word hx
      rw [fillWords, if_pos hmod, ih]
      simp only [add_four_ofNat, hword]
  | case3 num p m hmod ih =>
      have hword := fill_word hx p m (num + 3)
      simp only [fillWords, if_neg hmod, ih, add_four_ofNat, hword]
  | case4 num p m hnum ih =>
      have hword := fill_word hx p m num
      simp only [fillWords, ih, add_four_ofNat, hword]

theorem extract_pattern (x : U8) :
    ∀ k < 4, (x.setWidth 32 ||| x.setWidth 32 <<< 8 ||| x.setWidth 32 <<< 16 |||
      x.setWidth 32 <<< 24 : U32).extractLsb' (8 * k) 8 = x := by
  intro k hk
  ext i hi
  interval_cases k <;> interval_cases i <;> simp

/-- No more bytes are stored up to an aligned address than there are. -/
theorem memset_head_le (s n : U32) :
    (if s &&& wordAlign ≠ 0 then
      if wordAlign < n then 4 - (s &&& wordAlign) else n
    else 0).toNat ≤ n.toNat := by
  have hlow := toNat_and_wordAlign s
  split
  · split
    · rename_i hlt
      have hthree : 3 < n.toNat := hlt
      rw [BitVec.toNat_sub, hlow, show (4 : U32).toNat = 4 from rfl]
      omega
    · exact le_rfl
  · exact Nat.zero_le _

/-- `memset` stores the byte to all bytes of the block and to no other ones, whatever the alignment
of the block. -/
theorem memset_apply (s c n : U32) (m : Memory 32) :
    (memset s c n m).1 = s ∧ ∀ a,
      (memset s c n m).2 a = if (a - s).toNat < n.toNat then c.setWidth 8 else m a := by
  have hhead := memset_head_le s n
  rw [memset]
  generalize (if s &&& wordAlign ≠ 0 then
      if wordAlign < n then 4 - (s &&& wordAlign) else n
    else 0) = num at hhead
  have hrest : (n - num).toNat = n.toNat - num.toNat := BitVec.toNat_sub_of_le hhead
  have hsum : num.toNat + 4 * ((n - num) / 4).toNat + ((n - num) &&& wordAlign).toNat =
      n.toNat := by
    rw [BitVec.toNat_udiv, toNat_and_wordAlign, hrest, show (4 : U32).toNat = 4 from rfl]
    omega
  refine ⟨rfl, fun a => ?_⟩
  rw [← fill_apply (by decide) m s (c.setWidth 8) n.isLt.le a, ← hsum, fill_add, fill_add]
  simp only [fillWords_eq (extract_pattern (c.setWidth 8)), BitVec.ofNat_add, BitVec.ofNat_toNat,
    BitVec.setWidth_eq, add_assoc]

end Memset

end KHypervisor.Libc
