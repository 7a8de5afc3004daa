import Mathlib.Tactic.LinearCombination
import Mathlib.Tactic.Ring
import KHypervisor.Vdev.Vtimer

/-!
# What a guest sees of its virtual timer

A guest reads the counter, and it reads and writes the compare value and the distance to it. The
source adds the offset of the counter where the counter is read and where the software timer is
set, and subtracts it where the distance is read or written; the distance is not sign-extended.

The accesses fit together for next to no offset but zero: `coherentView_iff`.
-/

namespace KHypervisor

def ofPair (rt : U32 × U32) : U64 := rt.2.setWidth 64 <<< 32 ||| rt.1.setWidth 64

/-- What a guest reads from `CNTPCT` while the counter is `c`. -/
def guestCntpct (conf : TimerConf) (c : U64) (v : VdevTimer) : U64 :=
  ofPair (vdevTimerAccess64 conf c true Cp64.cntpct.code (0, 0) v).rt

inductive ViewAccess
  | readTval
  | writeTval (x : U32)
  | writeCval (rt : U32 × U32)

/-- The software timer is set to the time at which a guest would first read a count from `CNTPCT`
that is not below the compare value. -/
def SetsSwtimer {R : Type} (conf : TimerConf) (r : VdevTimerAccess R) : Prop :=
  ∃ e k, r.expiration = some e ∧ IsLeast {k : U64 | r.v.pCval ≤ guestCntpct conf k r.v} k ∧
    e.toNat = k.toNat * conf.resolutionNs.toNat

/-- An access while the counter is `c` agrees with what the guest reads from `CNTPCT`. -/
def CoherentView (conf : TimerConf) (v : VdevTimer) (c : U64) : ViewAccess → Prop
  | .readTval =>
      (vdevTimerAccess32 conf c true Cp32.cntpTval.code 0 v).rt =
        (v.pCval - guestCntpct conf c v).setWidth 32
  | .writeTval x =>
      let r := vdevTimerAccess32 conf c false Cp32.cntpTval.code x v
      r.v.pCval = guestCntpct conf c v + x.signExtend 64 ∧ SetsSwtimer conf r
  | .writeCval rt => SetsSwtimer conf (vdevTimerAccess64 conf c false Cp64.cntpCval.code rt v)

/-- The conversion of the count to nanoseconds does not overflow. -/
def NoOverflow (conf : TimerConf) (v : VdevTimer) (c : U64) : ViewAccess → Prop
  | .readTval => True
  | .writeTval x => (c + x.setWidth 64).toNat * conf.resolutionNs.toNat < 2 ^ 64
  | .writeCval rt => (ofPair rt + v.pCtOffset).toNat * conf.resolutionNs.toNat < 2 ^ 64

/-- The offsets with which adding and subtracting come to the same. -/
def FitsOffset (v : VdevTimer) (c : U64) : ViewAccess → Prop
  | .readTval => (2 * v.pCtOffset).setWidth 32 = (0 : U32)
  | .writeTval x =>
      if x.msb then v.pCtOffset = 0x8000000080000000 ∧ c + x.setWidth 64 = 0
      else v.pCtOffset = 0 ∨
        v.pCtOffset = 0x8000000000000000 ∧ c + x.setWidth 64 < 0x8000000000000000
  | .writeCval rt =>
      (2 * v.pCtOffset = 0 ∧ v.pCtOffset ≤ ofPair rt) ∨
        (ofPair rt < v.pCtOffset ∧ ofPair rt + v.pCtOffset = 0)

instance decidableNoOverflow (conf : TimerConf) (v : VdevTimer) (c : U64) :
    (a : ViewAccess) → Decidable (NoOverflow conf v c a)
  | .readTval => isTrue trivial
  | .writeTval _ => inferInstanceAs (Decidable (_ < _))
  | .writeCval _ => inferInstanceAs (Decidable (_ < _))

instance decidableFitsOffset (v : VdevTimer) (c : U64) :
    (a : ViewAccess) → Decidable (FitsOffset v c a)
  | .readTval => inferInstanceAs (Decidable (_ = _))
  | .writeTval _ => inferInstanceAs (Decidable (ite ..))
  | .writeCval _ => inferInstanceAs (Decidable (_ ∨ _))

/-! ## The accesses -/

theorem ofPair_split (x : U64) :
    ofPair ((x &&& 0xFFFFFFFF).setWidth 32, (x >>> 32).setWidth 32) = x := by
  have hlow : (x &&& 0xFFFFFFFF).setWidth 32 = x.setWidth 32 := by
    rw [BitVec.setWidth_and,
      show BitVec.setWidth 32 (0xFFFFFFFF : U64) = BitVec.allOnes 32 from rfl,
      BitVec.and_allOnes]
  rw [hlow, ofPair]
  refine BitVec.eq_of_getLsbD_eq fun i hi => ?_
  by_cases hlt : i < 32
  · simp [hlt, hi]
  · have hsub : 32 + (i - 32) = i := by omega
    have hrest : i - 32 < 32 := by omega
    simp [hlt, hsub, hi, hrest]

theorem guestCntpct_eq (conf : TimerConf) (c : U64) (v : VdevTimer) :
    guestCntpct conf c v = c + v.pCtOffset := ofPair_split _

theorem readTval_eq (conf : TimerConf) (c : U64) (rt : U32) (v : VdevTimer) :
    (vdevTimerAccess32 conf c true Cp32.cntpTval.code rt v).rt =
      (v.pCval - (c - v.pCtOffset)).setWidth 32 := rfl

theorem writeCval_eq (conf : TimerConf) (c : U64) (rt : U32 × U32) (v : VdevTimer) :
    let r := vdevTimerAccess64 conf c false Cp64.cntpCval.code rt v
    r.v.pCval = ofPair rt ∧ r.v.pCtOffset = v.pCtOffset ∧
      r.expiration = some (timerCountToTimeNs conf (r.v.pCval + r.v.pCtOffset)) :=
  ⟨rfl, rfl, rfl⟩

/-! ## The time to wait for -/

/-- The first count of the counter with which, the offset added, the compare value is reached. -/
def firstCount (off w : U64) : U64 := if off ≤ w then w - off else 0

theorem isLeast_firstCount (off w : U64) : IsLeast {k : U64 | w ≤ k + off} (firstCount off w) := by
  rw [firstCount]
  constructor
  · change w ≤ (if off ≤ w then w - off else 0) + off
    split <;> bv_omega
  · intro k hk
    change w ≤ k + off at hk
    split <;> bv_omega

theorem add_eq_firstCount_iff (off w : U64) :
    w + off = firstCount off w ↔ (2 * off = 0 ∧ off ≤ w) ∨ (w < off ∧ w + off = 0) := by
  rw [firstCount]
  split <;> bv_omega

/-- The software timer is set to the sum of the compare value and the offset. -/
theorem setsSwtimer_iff {R : Type} {conf : TimerConf} (hres : 0 < conf.resolutionNs.toNat)
    {r : VdevTimerAccess R}
    (hexp : r.expiration = some (timerCountToTimeNs conf (r.v.pCval + r.v.pCtOffset)))
    (hover : (r.v.pCval + r.v.pCtOffset).toNat * conf.resolutionNs.toNat < 2 ^ 64) :
    SetsSwtimer conf r ↔ r.v.pCval + r.v.pCtOffset = firstCount r.v.pCtOffset r.v.pCval := by
  have htime : (timerCountToTimeNs conf (r.v.pCval + r.v.pCtOffset)).toNat =
      (r.v.pCval + r.v.pCtOffset).toNat * conf.resolutionNs.toNat := by
    rw [timerCountToTimeNs, BitVec.toNat_mul, Nat.mod_eq_of_lt hover]
  have hleast := isLeast_firstCount r.v.pCtOffset r.v.pCval
  simp only [SetsSwtimer, guestCntpct_eq]
  constructor
  · rintro ⟨e, k, he, hk, hek⟩
    obtain rfl := Option.some.inj (hexp.symm.trans he)
    rw [htime, BitVec.le_antisymm (hk.2 hleast.1) (hleast.2 hk.1)] at hek
    exact BitVec.eq_of_toNat_eq (Nat.eq_of_mul_eq_mul_right hres hek)
  · intro heq
    exact ⟨_, _, hexp, hleast, by rw [htime, heq]⟩

/-! ## The view -/

theorem two_mul_eq_zero_iff (off : U64) : 2 * off = 0 ↔ off = 0 ∨ off = 0x8000000000000000 := by
  bv_omega

theorem two_mul_eq_bit_iff (off : U64) :
    2 * off = 0x100000000 ↔ off = 0x80000000 ∨ off = 0x8000000080000000 := by
  bv_omega

theorem setWidth_sub_signExtend (x : U32) :
    x.setWidth 64 - x.signExtend 64 = if x.msb then (0x100000000 : U64) else 0 := by
  split
  · rename_i hmsb
    rw [BitVec.signExtend_eq_not_setWidth_not_of_msb_true hmsb]
    bv_omega
  · rename_i hmsb
    rw [BitVec.signExtend_eq_setWidth_of_msb_false (by simpa using hmsb), sub_self]

theorem coherent_readTval (conf : TimerConf) (v : VdevTimer) (c : U64) :
    CoherentView conf v c .readTval ↔ FitsOffset v c .readTval := by
  have hdiff : v.pCval - (c - v.pCtOffset) = v.pCval - (c + v.pCtOffset) + 2 * v.pCtOffset := by
    ring
  rw [CoherentView, FitsOffset, readTval_eq, guestCntpct_eq, hdiff,
    BitVec.setWidth_add _ _ (by decide)]
  exact add_eq_left

theorem fits_of_nonneg {off y : U64} (hoff : 2 * off = 0) :
    (2 * off = 0 ∧ off ≤ y - off ∨ y - off < off ∧ y = 0) ↔
      off = 0 ∨ off = 0x8000000000000000 ∧ y < 0x8000000000000000 := by
  rcases (two_mul_eq_zero_iff off).mp hoff with rfl | rfl
  · exact iff_of_true (.inl ⟨hoff, by bv_omega⟩) (.inl rfl)
  · have hne : (0x8000000000000000 : U64) ≠ 0 := by decide
    simp only [hoff, true_and, hne, false_or]
    bv_omega

theorem fits_of_neg {off y : U64} (hoff : 2 * off = 0x100000000) :
    (2 * off = 0 ∧ off ≤ y - off ∨ y - off < off ∧ y = 0) ↔ off = 0x8000000080000000 ∧ y = 0 := by
  have hne : (0x100000000 : U64) ≠ 0 := by decide
  rw [hoff]
  simp only [hne, false_and, false_or]
  refine and_congr_left fun hy => ?_
  rcases (two_mul_eq_bit_iff off).mp hoff with rfl | rfl
  · rw [hy]
    decide
  · rw [hy]
    decide

theorem coherent_writeTval {conf : TimerConf} (hres : 0 < conf.resolutionNs.toNat) (v : VdevTimer)
    (c : U64) (x : U32) (hover : NoOverflow conf v c (.writeTval x)) :
    CoherentView conf v c (.writeTval x) ↔ FitsOffset v c (.writeTval x) := by
  obtain ⟨hcval, hoff, -, hexp⟩ := writeTval_eq conf c x v
  have hsum : c - v.pCtOffset + x.setWidth 64 + v.pCtOffset = c + x.setWidth 64 := by ring
  have hset := setsSwtimer_iff hres hexp (by rw [hcval, hoff, hsum]; exact hover)
  have hcompare : c - v.pCtOffset + x.setWidth 64 = c + x.setWidth 64 - v.pCtOffset := by ring
  rw [hcval, hoff, add_eq_firstCount_iff, hsum, hcompare] at hset
  have hvalue : c - v.pCtOffset + x.setWidth 64 = c + v.pCtOffset + x.signExtend 64 ↔
      2 * v.pCtOffset = x.setWidth 64 - x.signExtend 64 :=
    ⟨fun h => by linear_combination -h, fun h => by linear_combination -h⟩
  refine (and_congr (by rw [hcval, guestCntpct_eq, hvalue]) hset).trans ?_
  rw [FitsOffset, setWidth_sub_signExtend]
  split
  · exact ⟨fun h => (fits_of_neg h.1).mp h.2, fun h =>
      have hbit := (two_mul_eq_bit_iff _).mpr (.inr h.1)
      ⟨hbit, (fits_of_neg hbit).mpr h⟩⟩
  · refine ⟨fun h => (fits_of_nonneg h.1).mp h.2, fun h => ?_⟩
    have hzero := (two_mul_eq_zero_iff _).mpr (h.imp_right And.left)
    exact ⟨hzero, (fits_of_nonneg hzero).mpr h⟩

theorem coherent_writeCval {conf : TimerConf} (hres : 0 < conf.resolutionNs.toNat) (v : VdevTimer)
    (c : U64) (rt : U32 × U32) (hover : NoOverflow conf v c (.writeCval rt)) :
    CoherentView conf v c (.writeCval rt) ↔ FitsOffset v c (.writeCval rt) := by
  obtain ⟨hcval, hoff, hexp⟩ := writeCval_eq conf c rt v
  rw [CoherentView, setsSwtimer_iff hres hexp (by rw [hcval, hoff]; exact hover), hcval, hoff,
    add_eq_firstCount_iff, FitsOffset]

/-- An access agrees with what the guest reads from `CNTPCT` exactly if the offset fits it. -/
theorem coherentView_iff {conf : TimerConf} (hres : 0 < conf.resolutionNs.toNat) (v : VdevTimer)
    (c : U64) (a : ViewAccess) (hover : NoOverflow conf v c a) :
    CoherentView conf v c a ↔ FitsOffset v c a := by
  cases a with
  | readTval => exact coherent_readTval conf v c
  | writeTval x => exact coherent_writeTval hres v c x hover
  | writeCval rt => exact coherent_writeCval hres v c rt hover

/-- A guest whose counter started when the hardware's was at zero. -/
theorem coherentView_iff_noOffset :
    CoherentView ⟨10, false⟩ default 1000 (.writeTval 50) ↔
      FitsOffset default 1000 (.writeTval 50) :=
  coherentView_iff (by decide) default 1000 (.writeTval 50) (by decide)

/-- A guest that was created at count 1000 reads 3000 from the counter when it is at 2000. A timer
of 50 counts gets the compare value 1050, the distance to which it reads as 50, and fires when the
counter is at 2050. -/
theorem offset_not_coherent :
    guestCntpct ⟨10, false⟩ 2000 { (default : VdevTimer) with pCtOffset := 1000 } = 3000 ∧
    (vdevTimerAccess32 ⟨10, false⟩ 2000 false Cp32.cntpTval.code 50
      { (default : VdevTimer) with pCtOffset := 1000 }).v.pCval = 1050 ∧
    (vdevTimerAccess32 ⟨10, false⟩ 2000 true Cp32.cntpTval.code 0
      { (default : VdevTimer) with pCtOffset := 1000, pCval := 1050 }).rt = 50 ∧
    ¬ CoherentView ⟨10, false⟩ { (default : VdevTimer) with pCtOffset := 1000 } 2000 .readTval ∧
    ¬ CoherentView ⟨10, false⟩ { (default : VdevTimer) with pCtOffset := 1000 } 2000
      (.writeTval 50) ∧
    ¬ CoherentView ⟨10, false⟩ { (default : VdevTimer) with pCtOffset := 1000 } 2000
      (.writeCval (3050, 0)) := by
  refine ⟨rfl, rfl, rfl, ?_, ?_, ?_⟩
  · rw [coherent_readTval]
    decide
  · rw [coherent_writeTval (by decide) _ _ _ (by decide)]
    decide
  · rw [coherent_writeCval (by decide) _ _ _ (by decide)]
    decide

end KHypervisor
