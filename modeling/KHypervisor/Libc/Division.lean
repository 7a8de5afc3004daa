import KHypervisor.Lib.BitScan
import KHypervisor.Lib.LongDivision
import KHypervisor.Lib.Masks
import KHypervisor.Types

/-!
# Division of doublewords

`__udivmoddi4` of `lib/c/src/arch-arm`, which the compiler calls for the division of two numbers of
64 bits, on their halves: a shift-subtract loop, with cases before it in which one half of a number
is zero or the divisor is a power of two.
-/

namespace KHypervisor.Libc

open LongDivision

/-- `udwords`. -/
structure Udwords where
  high : U32
  low : U32

namespace Udwords

/-- `all`. -/
def all (x : Udwords) : U64 := x.high ++ x.low

def ofAll (x : U64) : Udwords := ⟨x.extractLsb' 32 32, x.setWidth 32⟩

end Udwords

/-- The loop of `__udivmoddi4`, with `q`, `r` and `carry` after `sr` turns. -/
def udivmodLoop (d : U64) : ℕ → Udwords → Udwords → U32 → Udwords × Udwords × U32
  | 0, q, r, carry => (q, r, carry)
  | sr + 1, q, r, carry =>
      let r : Udwords := ⟨r.high <<< 1 ||| r.low >>> 31, r.low <<< 1 ||| q.high >>> 31⟩
      let q : Udwords := ⟨q.high <<< 1 ||| q.low >>> 31, q.low <<< 1 ||| carry⟩
      -- all ones if `r.all >= d.all`
      let s := (d - r.all - 1).sshiftRight 63
      udivmodLoop d sr q (.ofAll (r.all - (d &&& s))) ((s &&& 1).setWidth 32)

/-- The end of `__udivmoddi4`: the quotient and the remainder. -/
def udivmodEnd (d : U64) (sr : U32) (q r : Udwords) : U64 × U64 :=
  let t := udivmodLoop d sr.toNat q r 0
  (t.1.all <<< 1 ||| t.2.2.setWidth 64, t.2.1.all)

/-- `__udivmoddi4`: the quotient and the remainder. -/
def udivmoddi4 (a b : U64) : U64 × U64 :=
  let n := Udwords.ofAll a
  let d := Udwords.ofAll b
  if n.high = 0 then
    if d.high = 0 then ((n.low / d.low).setWidth 64, (n.low % d.low).setWidth 64)
    else (0, n.low.setWidth 64)
  else if d.low = 0 then
    if d.high = 0 then ((n.high / d.low).setWidth 64, (n.high % d.low).setWidth 64)
    else if n.low = 0 then
      ((n.high / d.high).setWidth 64, (⟨n.high % d.high, 0⟩ : Udwords).all)
    else if d.high &&& (d.high - 1) = 0 then
      ((n.high >>> d.high.ctz).setWidth 64, (⟨n.high &&& (d.high - 1), n.low⟩ : Udwords).all)
    else
      let sr := d.high.clz - n.high.clz
      if 30 < sr then (0, a)
      else
        let sr := sr + 1
        udivmodEnd b sr ⟨n.low <<< (32 - sr), 0⟩
          ⟨n.high >>> sr, n.high <<< (32 - sr) ||| n.low >>> sr⟩
  else if d.high = 0 then
    if d.low &&& (d.low - 1) = 0 then
      if d.low = 1 then (a, (n.low &&& (d.low - 1)).setWidth 64)
      else
        let sr := d.low.ctz
        ((⟨n.high >>> sr, n.high <<< (32 - sr) ||| n.low >>> sr⟩ : Udwords).all,
          (n.low &&& (d.low - 1)).setWidth 64)
    else
      let sr := 1 + 32 + d.low.clz - n.high.clz
      if sr = 32 then udivmodEnd b sr ⟨n.low, 0⟩ ⟨0, n.high⟩
      else if sr < 32 then
        udivmodEnd b sr ⟨n.low <<< (32 - sr), 0⟩
          ⟨n.high >>> sr, n.high <<< (32 - sr) ||| n.low >>> sr⟩
      else
        udivmodEnd b sr ⟨n.high <<< (64 - sr) ||| n.low >>> (sr - 32), n.low <<< (64 - sr)⟩
          ⟨0, n.high >>> (sr - 32)⟩
  else
    let sr := d.high.clz - n.high.clz
    if 31 < sr then (0, a)
    else
      let sr := sr + 1
      if sr = 32 then udivmodEnd b sr ⟨n.low, 0⟩ ⟨0, n.high⟩
      else
        udivmodEnd b sr ⟨n.low <<< (32 - sr), 0⟩
          ⟨n.high >>> sr, n.high <<< (32 - sr) ||| n.low >>> sr⟩

section Halves

variable {x y : Udwords}

theorem toNat_all (x : Udwords) : x.all.toNat = x.high.toNat * 2 ^ 32 + x.low.toNat := by
  rw [Udwords.all, BitVec.toNat_append, ← Nat.shiftLeft_add_eq_or_of_lt x.low.isLt,
    Nat.shiftLeft_eq]

theorem toNat_ofAll (x : U64) :
    (Udwords.ofAll x).high.toNat = x.toNat / 2 ^ 32 ∧
      (Udwords.ofAll x).low.toNat = x.toNat % 2 ^ 32 := by
  refine ⟨?_, BitVec.toNat_setWidth ..⟩
  have hlt := x.isLt
  rw [Udwords.ofAll, BitVec.extractLsb'_toNat, Nat.shiftRight_eq_div_pow,
    Nat.mod_eq_of_lt (by omega)]

@[simp]
theorem all_ofAll (x : U64) : (Udwords.ofAll x).all = x := by
  apply BitVec.eq_of_toNat_eq
  rw [toNat_all, (toNat_ofAll x).1, (toNat_ofAll x).2]
  omega

/-- A doubleword is shifted up by one bit, the highest one of another below it. -/
theorem toNat_double (x y : Udwords) :
    (⟨x.high <<< 1 ||| x.low >>> 31, x.low <<< 1 ||| y.high >>> 31⟩ : Udwords).all.toNat =
      x.all.toNat * 2 % 2 ^ 64 + y.all.toNat / 2 ^ 63 := by
  have hxlow := x.low.isLt
  have hylow := y.low.isLt
  rw [toNat_all, toNat_all x, toNat_all y, toNat_shiftLeft_or _ _ (by decide),
    toNat_shiftLeft_or _ _ (by decide)]
  omega

theorem toNat_double_carry (x : Udwords) {c : U32} (hc : c.toNat < 2) :
    (⟨x.high <<< 1 ||| x.low >>> 31, x.low <<< 1 ||| c⟩ : Udwords).all.toNat =
      x.all.toNat * 2 % 2 ^ 64 + c.toNat := by
  have hlow := x.low.isLt
  rw [toNat_all, toNat_all x, toNat_shiftLeft_or _ _ (by decide), toNat_shiftLeft_one_or _ _ hc]
  omega

end Halves

/-! ## The loop -/

section Loop

variable {a b : U64} {k : ℕ} {q r : Udwords} {carry : U32}

/-- With `k` turns to go: the division of the bits from `k` on is done, of its quotient the last
digit is `carry`, and the bits below `k` stand above the others in `q`. -/
structure Dividing (a b : U64) (k : ℕ) (q r : Udwords) (carry : U32) : Prop where
  r : r.all.toNat = a.toNat / 2 ^ k % b.toNat
  q : q.all.toNat = a.toNat % 2 ^ k * 2 ^ (64 - k) + a.toNat / 2 ^ k / b.toNat / 2
  carry : carry.toNat = a.toNat / 2 ^ k / b.toNat % 2

theorem Dividing.next (h : Dividing a b (k + 1) q r carry) (hk : k < 63) :
    q.all.toNat / 2 ^ 63 = a.toNat / 2 ^ k % 2 ∧
      q.all.toNat * 2 % 2 ^ 64 + carry.toNat =
        a.toNat % 2 ^ k * 2 ^ (64 - k) + a.toNat / 2 ^ (k + 1) / b.toNat := by
  have hlt : a.toNat / 2 ^ (k + 1) / b.toNat / 2 < 2 ^ (63 - k) := by
    refine ((Nat.div_le_self _ 2).trans (Nat.div_le_self _ _)).trans_lt ?_
    rw [Nat.div_lt_iff_lt_mul (Nat.two_pow_pos _), ← Nat.pow_add,
      show 63 - k + (k + 1) = 64 by omega]
    exact a.isLt
  obtain ⟨hsplit, hlow⟩ := register_split (a := a.toNat) (n := 63) hk.le hlt
  have hq := h.q
  rw [show 64 - (k + 1) = 63 - k by omega, hsplit] at hq
  have hpow : 2 ^ (64 - k) = 2 * 2 ^ (63 - k) := by
    rw [← Nat.pow_succ']
    congr 1
    omega
  rw [h.carry, hq, hpow, Nat.mul_left_comm]
  have hbit := Nat.mod_lt (a.toNat / 2 ^ k) Nat.two_pos
  generalize a.toNat % 2 ^ k * 2 ^ (63 - k) = low at *
  generalize a.toNat / 2 ^ k % 2 = bit at *
  generalize a.toNat / 2 ^ (k + 1) / b.toNat = quotient at *
  omega

theorem sub_and_mask (d x : U64) (p : Prop) [Decidable p] :
    x - (d &&& if p then BitVec.allOnes 64 else 0) = if p then x - d else x := by
  split
  · rw [BitVec.and_allOnes]
  · simp

theorem toNat_mask_and_one (p : Prop) [Decidable p] :
    (((if p then BitVec.allOnes 64 else 0) &&& 1).setWidth 32 : U32).toNat =
      if p then 1 else 0 := by
  split <;> simp

theorem toNat_subtract {d x : U64} (hlt : d.toNat - x.toNat ≤ 2 ^ 63)
    (hge : x.toNat - d.toNat < 2 ^ 63) :
    (Udwords.ofAll (x - (d &&& (d - x - 1).sshiftRight 63))).all.toNat =
        x.toNat - d.toNat * (if d.toNat ≤ x.toNat then 1 else 0) ∧
      (((d - x - 1).sshiftRight 63 &&& 1).setWidth 32 : U32).toNat =
        if d.toNat ≤ x.toNat then 1 else 0 := by
  rw [all_ofAll, sshiftRight_sub (by decide) d x hlt hge, sub_and_mask, toNat_mask_and_one]
  by_cases hle : d ≤ x
  · have hleNat : d.toNat ≤ x.toNat := hle
    rw [if_pos hle, if_pos hle, if_pos hleNat, BitVec.toNat_sub_of_le hle, Nat.mul_one]
    exact ⟨rfl, rfl⟩
  · have hleNat : ¬ d.toNat ≤ x.toNat := hle
    rw [if_neg hle, if_neg hle, if_neg hleNat, Nat.mul_zero, Nat.sub_zero]
    exact ⟨rfl, rfl⟩

theorem Dividing.turn (h : Dividing a b (k + 1) q r carry) (hk : k < 63) (hb : b ≠ 0)
    (hsign : b.toNat ≤ 2 ^ 63 ∨ k = 0 ∧ 2 ^ 63 ≤ a.toNat) :
    ∃ q' r' carry', Dividing a b k q' r' carry' ∧
      udivmodLoop b (k + 1) q r carry = udivmodLoop b k q' r' carry' := by
  have hpos : 0 < b.toNat := by
    rw [Nat.pos_iff_ne_zero]
    exact fun hzero => hb (BitVec.eq_of_toNat_eq hzero)
  have hcarry : carry.toNat < 2 := by
    rw [h.carry]
    exact Nat.mod_lt _ Nat.two_pos
  have hbitlt := Nat.mod_lt (a.toNat / 2 ^ k) Nat.two_pos
  have hrlt : r.all.toNat < b.toNat := by
    rw [h.r]
    exact Nat.mod_lt _ hpos
  have hblt := b.isLt
  obtain ⟨hbit, hq⟩ := h.next hk
  obtain ⟨hdiv, hmod⟩ := div_double_add (a := a.toNat / 2 ^ (k + 1)) hpos hbitlt
  rw [← div_two_pow, ← h.r] at hdiv hmod
  obtain ⟨x, hx⟩ : ∃ x : Udwords, (⟨r.high <<< 1 ||| r.low >>> 31,
      r.low <<< 1 ||| q.high >>> 31⟩ : Udwords) = x := ⟨_, rfl⟩
  have hxNat : x.all.toNat = 2 * r.all.toNat + a.toNat / 2 ^ k % 2 := by
    have hle : 2 * r.all.toNat + a.toNat / 2 ^ k % 2 ≤ a.toNat := by
      have htwo := div_two_pow a.toNat k
      have hself := Nat.div_le_self a.toNat (2 ^ k)
      have hrle := Nat.mod_le (a.toNat / 2 ^ (k + 1)) b.toNat
      rw [← h.r] at hrle
      omega
    have halt := a.isLt
    rw [← hx, toNat_double, hbit]
    omega
  have hfar : b.toNat - x.all.toNat ≤ 2 ^ 63 ∧ x.all.toNat - b.toNat < 2 ^ 63 := by
    rcases Nat.lt_or_ge (2 ^ 63) b.toNat with hbig | hsmall
    · obtain ⟨rfl, hge⟩ := hsign.resolve_left (by omega)
      have hr := h.r
      have halt := a.isLt
      rw [Nat.mod_eq_of_lt (by omega)] at hr
      omega
    · omega
  obtain ⟨hsub, hdigit⟩ := toNat_subtract hfar.1 hfar.2
  refine ⟨_, _, _, ⟨?_, ?_, ?_⟩, rfl⟩
  · rw [hx, hsub, hmod, hxNat, digit]
  · rw [toNat_double_carry _ hcarry, hq, hdiv, digit]
    split <;> omega
  · rw [hx, hdigit, hdiv, hxNat, digit]
    split <;> omega

theorem Dividing.loop (h : Dividing a b k q r carry) (hk : k < 64) (hb : b ≠ 0)
    (hsign : b.toNat ≤ 2 ^ 63 ∨ k ≤ 1 ∧ 2 ^ 63 ≤ a.toNat) :
    ∃ q' r' carry', Dividing a b 0 q' r' carry' ∧
      udivmodLoop b k q r carry = (q', r', carry') := by
  induction k generalizing q r carry with
  | zero => exact ⟨q, r, carry, h, rfl⟩
  | succ k ih =>
      obtain ⟨q', r', carry', hturn, heq⟩ := h.turn (by omega) hb
        (hsign.imp_right fun hone => by omega)
      obtain ⟨q'', r'', carry'', hend, heq'⟩ := ih hturn (by omega)
        (hsign.imp_right fun hone => by omega)
      exact ⟨q'', r'', carry'', hend, heq.trans heq'⟩

/-- The end of `__udivmoddi4`, if `q` and `r` are the parts of the dividend below and from `sr`
on. -/
theorem udivmodEnd_eq {sr : U32} (hlt : sr.toNat < 64) (hb : b ≠ 0)
    (hq : q.all.toNat = a.toNat % 2 ^ sr.toNat * 2 ^ (64 - sr.toNat))
    (hr : r.all.toNat = a.toNat / 2 ^ sr.toNat) (hrlt : a.toNat / 2 ^ sr.toNat < b.toNat)
    (hsign : b.toNat ≤ 2 ^ 63 ∨ sr.toNat ≤ 1 ∧ 2 ^ 63 ≤ a.toNat) :
    udivmodEnd b sr q r = (a / b, a % b) := by
  have hstart : Dividing a b sr.toNat q r 0 := by
    refine ⟨?_, ?_, ?_⟩
    · rw [hr, Nat.mod_eq_of_lt hrlt]
    · rw [hq, Nat.div_eq_of_lt hrlt, Nat.zero_div, Nat.add_zero]
    · rw [Nat.div_eq_of_lt hrlt]
      rfl
  obtain ⟨q', r', carry', hend, heq⟩ := hstart.loop hlt hb hsign
  have hr' := hend.r
  have hq' := hend.q
  have hcarry' := hend.carry
  rw [Nat.pow_zero, Nat.div_one] at hr' hq' hcarry'
  rw [Nat.mod_one, Nat.zero_mul, Nat.zero_add] at hq'
  have hbit : (carry'.setWidth 64 : U64).toNat = carry'.toNat :=
    BitVec.toNat_setWidth_of_le (by decide)
  rw [udivmodEnd, heq]
  refine Prod.ext (BitVec.eq_of_toNat_eq ?_) (BitVec.eq_of_toNat_eq ?_)
  · have hquot := (a / b).isLt
    rw [BitVec.toNat_udiv] at hquot
    rw [toNat_shiftLeft_one_or _ _ (by rw [hbit, hcarry']; omega), hbit, hq', hcarry',
      BitVec.toNat_udiv]
    omega
  · rw [hr', BitVec.toNat_umod]

end Loop

/-! ## The parts of the dividend -/

section Parts

variable {a b : U64} {sr : U32} {s : ℕ}

theorem toNat_halves (a : U64) :
    a.toNat = (Udwords.ofAll a).high.toNat * 2 ^ 32 + (Udwords.ofAll a).low.toNat := by
  rw [← toNat_all, all_ofAll]

theorem two_pow_split (hs : s ≤ 32) : 2 ^ 32 = 2 ^ s * 2 ^ (32 - s) := by
  rw [← Nat.pow_add, Nat.add_sub_cancel' hs]

theorem mul_mod_half (h : ℕ) (hs : s ≤ 32) :
    h * 2 ^ (32 - s) % 2 ^ 32 = h % 2 ^ s * 2 ^ (32 - s) := by
  rw [two_pow_split hs, Nat.mul_mod_mul_right]

theorem div_halves (h l : ℕ) (hs : s ≤ 32) :
    (h * 2 ^ 32 + l) / 2 ^ s =
      h / 2 ^ s * 2 ^ 32 + (h * 2 ^ (32 - s) % 2 ^ 32 + l / 2 ^ s) := by
  rw [mul_mod_half h hs, two_pow_split hs, Nat.mul_left_comm, Nat.mul_add_div (Nat.two_pow_pos s),
    ← Nat.add_assoc, ← Nat.mul_assoc, ← Nat.add_mul, Nat.mul_comm (h / 2 ^ s), Nat.div_add_mod]

theorem mod_halves (h l : ℕ) (hs : s ≤ 32) : (h * 2 ^ 32 + l) % 2 ^ s = l % 2 ^ s := by
  rw [two_pow_split hs, Nat.mul_left_comm, Nat.mul_add_mod]

/-- The lower bits of a number, of which some are in the upper half, in halves. -/
theorem mod_halves_far (h : ℕ) {l : ℕ} (hl : l < 2 ^ 32) (hs : s ≤ 32) :
    (h * 2 ^ 32 + l) % 2 ^ (32 + s) * 2 ^ (32 - s) =
      (h * 2 ^ (32 - s) % 2 ^ 32 + l / 2 ^ s) * 2 ^ 32 + l * 2 ^ (32 - s) % 2 ^ 32 := by
  have hmod : (h * 2 ^ 32 + l) % 2 ^ (32 + s) = h % 2 ^ s * 2 ^ 32 + l := by
    rw [Nat.pow_add, Nat.mod_mul, Nat.mul_add_mod', Nat.mod_eq_of_lt hl, Nat.mul_comm h,
      Nat.mul_add_div (Nat.two_pow_pos 32), Nat.div_eq_of_lt hl, Nat.add_zero]
    ring
  have hl' := Nat.div_add_mod l (2 ^ s)
  calc (h * 2 ^ 32 + l) % 2 ^ (32 + s) * 2 ^ (32 - s)
      = (h % 2 ^ s * 2 ^ 32 + (2 ^ s * (l / 2 ^ s) + l % 2 ^ s)) * 2 ^ (32 - s) := by
        rw [hmod, hl']
    _ = (h % 2 ^ s * 2 ^ (32 - s)) * 2 ^ 32 + l / 2 ^ s * (2 ^ s * 2 ^ (32 - s)) +
          l % 2 ^ s * 2 ^ (32 - s) := by ring
    _ = _ := by
        rw [← two_pow_split hs, mul_mod_half h hs, mul_mod_half l hs]
        ring

/-- All bits from `sr` on. -/
theorem toNat_upper (a : U64) (hpos : 0 < sr.toNat) (hlt : sr.toNat < 32) :
    (⟨(Udwords.ofAll a).high >>> sr, (Udwords.ofAll a).high <<< (32 - sr) |||
      (Udwords.ofAll a).low >>> sr⟩ : Udwords).all.toNat = a.toNat / 2 ^ sr.toNat := by
  have hsub : (32 - sr).toNat = 32 - sr.toNat :=
    BitVec.toNat_sub_of_le (show sr.toNat ≤ (32 : U32).toNat from hlt.le)
  rw [toNat_halves a, div_halves _ _ hlt.le, toNat_all, BitVec.shiftLeft_eq', hsub,
    BitVec.ushiftRight_eq', BitVec.ushiftRight_eq', toNat_shiftLeft_or _ _ (by omega),
    BitVec.toNat_ushiftRight, Nat.shiftRight_eq_div_pow]

/-- All bits below `sr`, moved up. -/
theorem toNat_lower (a : U64) (hpos : 0 < sr.toNat) (hlt : sr.toNat < 32) :
    (⟨(Udwords.ofAll a).low <<< (32 - sr), 0⟩ : Udwords).all.toNat =
      a.toNat % 2 ^ sr.toNat * 2 ^ (64 - sr.toNat) := by
  have hsub : (32 - sr).toNat = 32 - sr.toNat :=
    BitVec.toNat_sub_of_le (show sr.toNat ≤ (32 : U32).toNat from hlt.le)
  have hzero : (0 : U32).toNat = 0 := rfl
  rw [toNat_halves a, mod_halves _ _ hlt.le, toNat_all, BitVec.shiftLeft_eq', hsub,
    BitVec.toNat_shiftLeft, Nat.shiftLeft_eq, mul_mod_half _ hlt.le, hzero, Nat.add_zero,
    Nat.mul_assoc, ← Nat.pow_add, show 32 - sr.toNat + 32 = 64 - sr.toNat by omega]

/-- The halves, for `sr` of 32. -/
theorem toNat_upper_half (a : U64) :
    (⟨0, (Udwords.ofAll a).high⟩ : Udwords).all.toNat = a.toNat / 2 ^ 32 := by
  rw [toNat_all, (toNat_ofAll a).1]
  simp

theorem toNat_lower_half (a : U64) :
    (⟨(Udwords.ofAll a).low, 0⟩ : Udwords).all.toNat = a.toNat % 2 ^ 32 * 2 ^ 32 := by
  rw [toNat_all, (toNat_ofAll a).2]
  simp

/-- All bits from `sr` on, which are in the upper half. -/
theorem toNat_upper_far (a : U64) (hlow : 32 < sr.toNat) :
    (⟨0, (Udwords.ofAll a).high >>> (sr - 32)⟩ : Udwords).all.toNat = a.toNat / 2 ^ sr.toNat := by
  have hsub : (sr - 32).toNat = sr.toNat - 32 :=
    BitVec.toNat_sub_of_le (show (32 : U32).toNat ≤ sr.toNat from hlow.le)
  have hzero : (0 : U32).toNat = 0 := rfl
  have hpow : 2 ^ sr.toNat = 2 ^ 32 * 2 ^ (sr.toNat - 32) := by
    rw [← Nat.pow_add, Nat.add_sub_cancel' hlow.le]
  rw [toNat_all, hzero, Nat.zero_mul, Nat.zero_add, BitVec.ushiftRight_eq', hsub,
    BitVec.toNat_ushiftRight, Nat.shiftRight_eq_div_pow, (toNat_ofAll a).1, hpow,
    Nat.div_div_eq_div_mul]

/-- All bits below `sr`, moved up, of which some are in the upper half. -/
theorem toNat_lower_far (a : U64) (hlow : 32 < sr.toNat) (hlt : sr.toNat < 64) :
    (⟨(Udwords.ofAll a).high <<< (64 - sr) ||| (Udwords.ofAll a).low >>> (sr - 32),
      (Udwords.ofAll a).low <<< (64 - sr)⟩ : Udwords).all.toNat =
      a.toNat % 2 ^ sr.toNat * 2 ^ (64 - sr.toNat) := by
  have hsub : (sr - 32).toNat = sr.toNat - 32 :=
    BitVec.toNat_sub_of_le (show (32 : U32).toNat ≤ sr.toNat from hlow.le)
  have hsub' : (64 - sr).toNat = 64 - sr.toNat :=
    BitVec.toNat_sub_of_le (show sr.toNat ≤ (64 : U32).toNat from hlt.le)
  obtain ⟨s, hs⟩ := Nat.exists_eq_add_of_le hlow.le
  have hle : s ≤ 32 := by omega
  rw [hs, Nat.add_sub_cancel_left] at hsub
  rw [hs, show 64 - (32 + s) = 32 - s by omega] at hsub'
  rw [toNat_all, BitVec.shiftLeft_eq', BitVec.shiftLeft_eq', BitVec.ushiftRight_eq', hsub, hsub',
    toNat_shiftLeft_or _ _ (by omega), BitVec.toNat_shiftLeft, Nat.shiftLeft_eq, hs,
    show 64 - (32 + s) = 32 - s by omega, toNat_halves a]
  exact (mod_halves_far _ (Udwords.ofAll a).low.isLt hle).symm

theorem toNat_lt_two_pow_clz (a : U64) :
    a.toNat < 2 ^ (64 - (Udwords.ofAll a).high.clz.toNat) := by
  have hhigh := BitVec.toNat_lt_two_pow_sub_clz (x := (Udwords.ofAll a).high)
  have hlow := (Udwords.ofAll a).low.isLt
  have hclz : (Udwords.ofAll a).high.clz.toNat ≤ 32 := BitVec.clz_le
  rw [toNat_halves a, show 64 - (Udwords.ofAll a).high.clz.toNat =
    32 - (Udwords.ofAll a).high.clz.toNat + 32 by omega, Nat.pow_add]
  generalize 2 ^ (32 - (Udwords.ofAll a).high.clz.toNat) = bound at *
  omega

theorem two_pow_clz_le (ha : (Udwords.ofAll a).high ≠ 0) :
    2 ^ (63 - (Udwords.ofAll a).high.clz.toNat) ≤ a.toNat := by
  have hhigh := BitVec.two_pow_sub_clz_le_toNat_of_ne_zero (by decide) ha
  have hclz := BitScan.toNat_clz_lt ha
  rw [toNat_halves a, show 63 - (Udwords.ofAll a).high.clz.toNat =
    32 - 1 - (Udwords.ofAll a).high.clz.toNat + 32 by omega, Nat.pow_add]
  generalize 2 ^ (32 - 1 - (Udwords.ofAll a).high.clz.toNat) = bound at *
  omega

/-- After a shift that makes it shorter, the dividend is below the divisor. -/
theorem div_two_pow_lt {d e : ℕ} (hb : 2 ^ e ≤ d)
    (hs : 64 - (Udwords.ofAll a).high.clz.toNat ≤ s + e) : a.toNat / 2 ^ s < d := by
  refine Nat.div_lt_of_lt_mul ((toNat_lt_two_pow_clz a).trans_le ?_)
  calc 2 ^ (64 - (Udwords.ofAll a).high.clz.toNat) ≤ 2 ^ (s + e) :=
        Nat.pow_le_pow_right Nat.two_pos hs
    _ = 2 ^ s * 2 ^ e := Nat.pow_add ..
    _ ≤ 2 ^ s * d := Nat.mul_le_mul_left _ hb

theorem toNat_clz_sub {x y : U32} (h : y.clz.toNat ≤ x.clz.toNat) :
    (x.clz - y.clz).toNat = x.clz.toNat - y.clz.toNat := BitVec.toNat_sub_of_le h

theorem lt_clz_sub {x y : U32} (h : x.clz.toNat < y.clz.toNat) : 31 < (x.clz - y.clz).toNat := by
  have hx : x.clz.toNat ≤ 32 := BitVec.clz_le
  have hy : y.clz.toNat ≤ 32 := BitVec.clz_le
  rw [BitVec.toNat_sub]
  omega

theorem divmod_of_lt (h : a.toNat < b.toNat) : ((0, a) : U64 × U64) = (a / b, a % b) := by
  refine Prod.ext (BitVec.eq_of_toNat_eq ?_) (BitVec.eq_of_toNat_eq ?_)
  · rw [BitVec.toNat_udiv, Nat.div_eq_of_lt h]
    rfl
  · rw [BitVec.toNat_umod, Nat.mod_eq_of_lt h]

/-- A divisor with fewer leading zeros than the dividend is above it. -/
theorem lt_of_clz (hb : (Udwords.ofAll b).high ≠ 0)
    (h : (Udwords.ofAll b).high.clz.toNat < (Udwords.ofAll a).high.clz.toNat) :
    a.toNat < b.toNat :=
  calc a.toNat < 2 ^ (64 - (Udwords.ofAll a).high.clz.toNat) := toNat_lt_two_pow_clz a
    _ ≤ 2 ^ (63 - (Udwords.ofAll b).high.clz.toNat) :=
        Nat.pow_le_pow_right Nat.two_pos (by omega)
    _ ≤ b.toNat := two_pow_clz_le hb

/-- A number whose lower half is zero, and one whose upper half is. -/
theorem toNat_of_low_eq_zero {x : U64} (h : (Udwords.ofAll x).low = 0) :
    x.toNat = (Udwords.ofAll x).high.toNat * 2 ^ 32 := by
  rw [toNat_halves x, h]
  simp

theorem toNat_of_high_eq_zero {x : U64} (h : (Udwords.ofAll x).high = 0) :
    x.toNat = (Udwords.ofAll x).low.toNat := by
  rw [toNat_halves x, h]
  simp

/-- A number that is no power of two has another bit below its highest one. -/
theorem toNat_clz_le {x : U32} (hx : x ≠ 0) (h : x &&& (x - 1) ≠ 0) : x.clz.toNat ≤ 30 := by
  have hclz := BitScan.toNat_clz_lt hx
  have hlt := BitVec.toNat_lt_two_pow_sub_clz (x := x)
  by_contra hgt
  have hone : x = 1 := by
    rw [show 32 - x.clz.toNat = 1 by omega] at hlt
    have hpos : x.toNat ≠ 0 := fun hzero => hx (BitVec.eq_of_toNat_eq hzero)
    apply BitVec.eq_of_toNat_eq
    show x.toNat = 1
    omega
  subst hone
  exact h rfl

end Parts

/-! ## The cases -/

section Cases

variable {a b : U64} {sr : U32}

theorem divmod_eq {q r : U64} (hq : q.toNat = a.toNat / b.toNat)
    (hr : r.toNat = a.toNat % b.toNat) : (q, r) = (a / b, a % b) := by
  refine Prod.ext (BitVec.eq_of_toNat_eq ?_) (BitVec.eq_of_toNat_eq ?_)
  · rw [hq, BitVec.toNat_udiv]
  · rw [hr, BitVec.toNat_umod]

theorem udivmodEnd_near (hpos : 0 < sr.toNat) (hlt : sr.toNat < 32) (hb : b ≠ 0)
    (hrlt : a.toNat / 2 ^ sr.toNat < b.toNat)
    (hsign : b.toNat ≤ 2 ^ 63 ∨ sr.toNat ≤ 1 ∧ 2 ^ 63 ≤ a.toNat) :
    udivmodEnd b sr ⟨(Udwords.ofAll a).low <<< (32 - sr), 0⟩
      ⟨(Udwords.ofAll a).high >>> sr, (Udwords.ofAll a).high <<< (32 - sr) |||
        (Udwords.ofAll a).low >>> sr⟩ = (a / b, a % b) :=
  udivmodEnd_eq (hlt.trans (by decide)) hb (toNat_lower a hpos hlt) (toNat_upper a hpos hlt) hrlt
    hsign

theorem udivmodEnd_half (hsr : sr = 32) (hb : b ≠ 0) (hrlt : a.toNat / 2 ^ sr.toNat < b.toNat)
    (hsign : b.toNat ≤ 2 ^ 63 ∨ sr.toNat ≤ 1 ∧ 2 ^ 63 ≤ a.toNat) :
    udivmodEnd b sr ⟨(Udwords.ofAll a).low, 0⟩ ⟨0, (Udwords.ofAll a).high⟩ = (a / b, a % b) := by
  subst hsr
  exact udivmodEnd_eq (by decide) hb (toNat_lower_half a) (toNat_upper_half a) hrlt hsign

theorem udivmodEnd_far (hlow : 32 < sr.toNat) (hlt : sr.toNat < 64) (hb : b ≠ 0)
    (hrlt : a.toNat / 2 ^ sr.toNat < b.toNat)
    (hsign : b.toNat ≤ 2 ^ 63 ∨ sr.toNat ≤ 1 ∧ 2 ^ 63 ≤ a.toNat) :
    udivmodEnd b sr
      ⟨(Udwords.ofAll a).high <<< (64 - sr) ||| (Udwords.ofAll a).low >>> (sr - 32),
        (Udwords.ofAll a).low <<< (64 - sr)⟩
      ⟨0, (Udwords.ofAll a).high >>> (sr - 32)⟩ = (a / b, a % b) :=
  udivmodEnd_eq hlt hb (toNat_lower_far a hlow hlt) (toNat_upper_far a hlow) hrlt hsign

theorem shift_of_high (ha : (Udwords.ofAll a).high ≠ 0) (hb : (Udwords.ofAll b).high ≠ 0)
    (hsr : ((Udwords.ofAll b).high.clz - (Udwords.ofAll a).high.clz).toNat ≤ 31) :
    ∃ k, (Udwords.ofAll b).high.clz.toNat = (Udwords.ofAll a).high.clz.toNat + k ∧
      ((Udwords.ofAll b).high.clz - (Udwords.ofAll a).high.clz + 1).toNat = k + 1 ∧
      a.toNat / 2 ^ (k + 1) < b.toNat ∧
      (b.toNat ≤ 2 ^ 63 ∨ k + 1 ≤ 1 ∧ 2 ^ 63 ≤ a.toNat) := by
  have hle : (Udwords.ofAll a).high.clz.toNat ≤ (Udwords.ofAll b).high.clz.toNat := by
    by_contra hgt
    have hfar := lt_clz_sub (not_le.mp hgt)
    omega
  obtain ⟨k, hk⟩ := Nat.exists_eq_add_of_le hle
  have hclz := BitScan.toNat_clz_lt hb
  have hsub := toNat_clz_sub hle
  refine ⟨k, hk, ?_, div_two_pow_lt (two_pow_clz_le hb) (by omega), ?_⟩
  · rw [BitVec.toNat_add, hsub]
    show (_ + 1) % 2 ^ 32 = _
    omega
  · rcases Nat.eq_zero_or_pos (Udwords.ofAll b).high.clz.toNat with hzero | hpos
    · have hlarge := two_pow_clz_le ha
      rw [show (Udwords.ofAll a).high.clz.toNat = 0 by omega] at hlarge
      exact .inr ⟨by omega, hlarge⟩
    · have hsmall := toNat_lt_two_pow_clz b
      exact .inl (hsmall.le.trans (Nat.pow_le_pow_right Nat.two_pos (by omega)))

theorem divmod_of_shift (hb : (Udwords.ofAll b).high ≠ 0) {n : ℕ}
    (hn : (Udwords.ofAll b).high.clz.toNat ≤ n)
    (hsr : n < ((Udwords.ofAll b).high.clz - (Udwords.ofAll a).high.clz).toNat) :
    ((0, a) : U64 × U64) = (a / b, a % b) := by
  refine divmod_of_lt (lt_of_clz hb ?_)
  by_contra hle
  rw [toNat_clz_sub (not_lt.mp hle)] at hsr
  omega

theorem divmod_short (ha : (Udwords.ofAll a).high = 0) :
    (if (Udwords.ofAll b).high = 0 then
      ((((Udwords.ofAll a).low / (Udwords.ofAll b).low).setWidth 64 : U64),
        ((Udwords.ofAll a).low % (Udwords.ofAll b).low).setWidth 64)
    else (0, (Udwords.ofAll a).low.setWidth 64)) = (a / b, a % b) := by
  have haNat := toNat_of_high_eq_zero ha
  split_ifs with hb
  · have hbNat := toNat_of_high_eq_zero hb
    apply divmod_eq
    · rw [BitVec.toNat_setWidth_of_le (by decide), BitVec.toNat_udiv, haNat, hbNat]
    · rw [BitVec.toNat_setWidth_of_le (by decide), BitVec.toNat_umod, haNat, hbNat]
  · have hlt : a.toNat < b.toNat := by
      have hbig := two_pow_clz_le hb
      have hclz := BitScan.toNat_clz_lt hb
      have hpow : 2 ^ 32 ≤ 2 ^ (63 - (Udwords.ofAll b).high.clz.toNat) :=
        Nat.pow_le_pow_right Nat.two_pos (by omega)
      have hlow := (Udwords.ofAll a).low.isLt
      omega
    have hlow : ((Udwords.ofAll a).low.setWidth 64 : U64) = a :=
      BitVec.eq_of_toNat_eq (by rw [BitVec.toNat_setWidth_of_le (by decide), haNat])
    rw [hlow]
    exact divmod_of_lt hlt

theorem divmod_upper (ha : (Udwords.ofAll a).low = 0) (hb : (Udwords.ofAll b).low = 0) :
    ((((Udwords.ofAll a).high / (Udwords.ofAll b).high).setWidth 64 : U64),
      (⟨(Udwords.ofAll a).high % (Udwords.ofAll b).high, 0⟩ : Udwords).all) = (a / b, a % b) := by
  have hzero : (0 : U32).toNat = 0 := rfl
  apply divmod_eq
  · rw [BitVec.toNat_setWidth_of_le (by decide), BitVec.toNat_udiv, toNat_of_low_eq_zero ha,
      toNat_of_low_eq_zero hb, Nat.mul_div_mul_right _ _ (Nat.two_pow_pos 32)]
  · rw [toNat_all, BitVec.toNat_umod, toNat_of_low_eq_zero ha, toNat_of_low_eq_zero hb,
      Nat.mul_mod_mul_right, hzero, Nat.add_zero]

theorem divmod_pow_high (hb : (Udwords.ofAll b).low = 0) (hne : (Udwords.ofAll b).high ≠ 0)
    (hpow : (Udwords.ofAll b).high &&& ((Udwords.ofAll b).high - 1) = 0) :
    ((((Udwords.ofAll a).high >>> (Udwords.ofAll b).high.ctz).setWidth 64 : U64),
      (⟨(Udwords.ofAll a).high &&& ((Udwords.ofAll b).high - 1), (Udwords.ofAll a).low⟩ :
        Udwords).all) = (a / b, a % b) := by
  have hd := Masks.toNat_eq_two_pow_ctz hne hpow
  have hbNat : b.toNat = 2 ^ 32 * 2 ^ (Udwords.ofAll b).high.ctz.toNat := by
    rw [toNat_of_low_eq_zero hb, hd, Nat.mul_comm]
  apply divmod_eq
  · rw [BitVec.toNat_setWidth_of_le (by decide), BitVec.ushiftRight_eq', BitVec.toNat_ushiftRight,
      Nat.shiftRight_eq_div_pow, hbNat, ← Nat.div_div_eq_div_mul, (toNat_ofAll a).1]
  · rw [toNat_all, Masks.toNat_and_sub_one hd, hbNat, Nat.mod_mul, (toNat_ofAll a).1,
      (toNat_ofAll a).2, Nat.add_comm, Nat.mul_comm]

theorem divmod_pow_low (hb : (Udwords.ofAll b).high = 0) (hne : (Udwords.ofAll b).low ≠ 0)
    (hpow : (Udwords.ofAll b).low &&& ((Udwords.ofAll b).low - 1) = 0) :
    (if (Udwords.ofAll b).low = 1 then
      (a, (((Udwords.ofAll a).low &&& ((Udwords.ofAll b).low - 1)).setWidth 64 : U64))
    else
      ((⟨(Udwords.ofAll a).high >>> (Udwords.ofAll b).low.ctz,
        (Udwords.ofAll a).high <<< (32 - (Udwords.ofAll b).low.ctz) |||
          (Udwords.ofAll a).low >>> (Udwords.ofAll b).low.ctz⟩ : Udwords).all,
        ((Udwords.ofAll a).low &&& ((Udwords.ofAll b).low - 1)).setWidth 64)) =
      (a / b, a % b) := by
  have hd := Masks.toNat_eq_two_pow_ctz hne hpow
  have hbNat := (toNat_of_high_eq_zero hb).trans hd
  have hctz : (Udwords.ofAll b).low.ctz.toNat < 32 :=
    (Nat.pow_lt_pow_iff_right Nat.one_lt_two).mp (hd ▸ (Udwords.ofAll b).low.isLt)
  have hrem : (((Udwords.ofAll a).low &&& ((Udwords.ofAll b).low - 1)).setWidth 64 : U64).toNat =
      a.toNat % b.toNat := by
    rw [BitVec.toNat_setWidth_of_le (by decide), Masks.toNat_and_sub_one hd, hbNat,
      toNat_halves a, mod_halves _ _ hctz.le]
  split_ifs with hone
  · refine divmod_eq ?_ hrem
    rw [toNat_of_high_eq_zero hb, hone]
    exact (Nat.div_one _).symm
  · refine divmod_eq ?_ hrem
    have hpos : 0 < (Udwords.ofAll b).low.ctz.toNat := by
      rw [Nat.pos_iff_ne_zero]
      intro hzero
      rw [hzero] at hd
      exact hone (BitVec.eq_of_toNat_eq hd)
    rw [toNat_upper a hpos hctz, hbNat]

theorem shift_of_low (ha : (Udwords.ofAll a).high ≠ 0) (hb : (Udwords.ofAll b).high = 0)
    (hne : (Udwords.ofAll b).low ≠ 0)
    (hpow : (Udwords.ofAll b).low &&& ((Udwords.ofAll b).low - 1) ≠ 0) :
    ∃ k, (1 + 32 + (Udwords.ofAll b).low.clz - (Udwords.ofAll a).high.clz).toNat = k ∧ 0 < k ∧
      k < 64 ∧ a.toNat / 2 ^ k < b.toNat ∧ b.toNat ≤ 2 ^ 63 := by
  have hcb := toNat_clz_le hne hpow
  have hca := BitScan.toNat_clz_lt ha
  have hsum : (1 + 32 + (Udwords.ofAll b).low.clz).toNat =
      33 + (Udwords.ofAll b).low.clz.toNat := by
    rw [BitVec.toNat_add]
    show (33 + _) % 2 ^ 32 = _
    omega
  have hsr : (1 + 32 + (Udwords.ofAll b).low.clz - (Udwords.ofAll a).high.clz).toNat =
      33 + (Udwords.ofAll b).low.clz.toNat - (Udwords.ofAll a).high.clz.toNat := by
    rw [BitVec.toNat_sub_of_le (by rw [BitVec.le_def, hsum]; omega), hsum]
  have hlarge : 2 ^ (31 - (Udwords.ofAll b).low.clz.toNat) ≤ b.toNat := by
    rw [toNat_of_high_eq_zero hb]
    exact BitVec.two_pow_sub_clz_le_toNat_of_ne_zero (by decide) hne
  refine ⟨_, hsr, by omega, by omega, div_two_pow_lt hlarge (by omega), ?_⟩
  have hlt := (Udwords.ofAll b).low.isLt
  rw [toNat_of_high_eq_zero hb]
  omega

theorem divmod_low_eq_zero (hb : b ≠ 0) (hnh : (Udwords.ofAll a).high ≠ 0)
    (hdl : (Udwords.ofAll b).low = 0) : udivmoddi4 a b = (a / b, a % b) := by
  have hdh : (Udwords.ofAll b).high ≠ 0 := by
    intro hzero
    refine hb (BitVec.eq_of_toNat_eq ?_)
    rw [toNat_of_high_eq_zero hzero, hdl]
    rfl
  simp only [udivmoddi4, if_neg hnh, if_pos hdl, if_neg hdh]
  split_ifs with hnl hpow hsr
  · exact divmod_upper hnl hdl
  · exact divmod_pow_high hdl hdh hpow
  · exact divmod_of_shift hdh (toNat_clz_le hdh hpow) hsr
  · have hle : ((Udwords.ofAll b).high.clz - (Udwords.ofAll a).high.clz).toNat ≤ 30 := not_lt.mp hsr
    obtain ⟨k, hk, hshift, hlt, hsign⟩ := shift_of_high hnh hdh (by omega)
    have hclz := toNat_clz_le hdh hpow
    rw [← hshift] at hlt hsign
    exact udivmodEnd_near (by omega) (by omega) hb hlt hsign

theorem divmod_high_eq_zero (hb : b ≠ 0) (hnh : (Udwords.ofAll a).high ≠ 0)
    (hdl : (Udwords.ofAll b).low ≠ 0) (hdh : (Udwords.ofAll b).high = 0) :
    udivmoddi4 a b = (a / b, a % b) := by
  simp only [udivmoddi4, if_neg hnh, if_neg hdl, if_pos hdh]
  by_cases hpow : (Udwords.ofAll b).low &&& ((Udwords.ofAll b).low - 1) = 0
  · exact (if_pos hpow).trans (divmod_pow_low hdh hdl hpow)
  · obtain ⟨k, hk, hpos, hlt, hrlt, hsign⟩ := shift_of_low hnh hdh hdl hpow
    rw [← hk] at hpos hlt hrlt
    rw [if_neg hpow]
    split_ifs with hhalf hnear
    · exact udivmodEnd_half hhalf hb hrlt (.inl hsign)
    · exact udivmodEnd_near hpos hnear hb hrlt (.inl hsign)
    · refine udivmodEnd_far (Nat.lt_of_le_of_ne (not_lt.mp hnear) ?_) hlt hb hrlt (.inl hsign)
      exact fun heq => hhalf (BitVec.eq_of_toNat_eq heq.symm)

theorem divmod_ne_zero (hb : b ≠ 0) (hnh : (Udwords.ofAll a).high ≠ 0)
    (hdl : (Udwords.ofAll b).low ≠ 0) (hdh : (Udwords.ofAll b).high ≠ 0) :
    udivmoddi4 a b = (a / b, a % b) := by
  have hclz := BitScan.toNat_clz_lt hdh
  simp only [udivmoddi4, if_neg hnh, if_neg hdl, if_neg hdh]
  split_ifs with hsr hhalf
  · exact divmod_of_shift (n := 31) hdh (by omega) hsr
  all_goals
    obtain ⟨k, hk, hshift, hrlt, hsign⟩ := shift_of_high hnh hdh (not_lt.mp hsr)
    rw [← hshift] at hrlt hsign
  · exact udivmodEnd_half hhalf hb hrlt hsign
  · refine udivmodEnd_near (by omega) (Nat.lt_of_le_of_ne (by omega) ?_) hb hrlt hsign
    exact fun heq => hhalf (BitVec.eq_of_toNat_eq heq)

end Cases

/-- The division gives the quotient and the remainder, for every divisor but zero. -/
theorem udivmoddi4_eq (a b : U64) (hb : b ≠ 0) : udivmoddi4 a b = (a / b, a % b) := by
  by_cases hnh : (Udwords.ofAll a).high = 0
  · simp only [udivmoddi4, if_pos hnh]
    exact divmod_short hnh
  · by_cases hdl : (Udwords.ofAll b).low = 0
    · exact divmod_low_eq_zero hb hnh hdl
    · by_cases hdh : (Udwords.ofAll b).high = 0
      · exact divmod_high_eq_zero hb hnh hdl hdh
      · exact divmod_ne_zero hb hnh hdl hdh

/-- A division that takes one turn of the loop, on a divisor from `2 ^ 63` on. -/
theorem udivmoddi4_eq_one_turn :
    (0x8000000000000001 : U64) ≠ 0 ∧
      udivmoddi4 0xffffffffffffffff 0x8000000000000001 = (1, 0x7ffffffffffffffe) :=
  ⟨by decide, (udivmoddi4_eq 0xffffffffffffffff 0x8000000000000001 (by decide)).trans (by decide)⟩

end KHypervisor.Libc
