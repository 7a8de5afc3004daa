import Mathlib

/-!
# Searching for set bits

The index of the highest set bit of a word, as counting leading zeros gives it, and of the lowest,
which is the highest one of `x &&& -x`. A loop that takes the highest bit, acts on its index and
clears it, until the word is zero, visits the set bits from the top down (`scanFuel_eq`).
-/

namespace BitScan

variable {w : ℕ}

/-- The word whose bit `i` is `f i`. -/
def ofBits (w : ℕ) (f : ℕ → Bool) : BitVec w := BitVec.ofFnLE fun i : Fin w => f i

theorem getLsbD_ofBits (f : ℕ → Bool) {i : ℕ} (hi : i < w) : (ofBits w f).getLsbD i = f i := by
  rw [ofBits, BitVec.getLsbD_ofFnLE, dif_pos hi]

theorem ofBits_eq_zero_iff (f : ℕ → Bool) : ofBits w f = 0 ↔ ∀ i < w, f i = false := by
  constructor
  · intro h i hi
    rw [← getLsbD_ofBits f hi, h]
    exact BitVec.getLsbD_zero
  · intro h
    apply BitVec.eq_of_getLsbD_eq
    intro i hi
    rw [getLsbD_ofBits f hi, h i hi]
    exact BitVec.getLsbD_zero.symm

/-! ## The highest set bit -/

def highest (x : BitVec w) : BitVec w := BitVec.ofNat w (w - 1) - x.clz

theorem exists_getLsbD_of_ne_zero {x : BitVec w} (hx : x ≠ 0) : ∃ i < w, x.getLsbD i = true := by
  by_contra hnone
  refine hx (BitVec.eq_of_getLsbD_eq fun i hi => ?_)
  have hclear : x.getLsbD i = false := by
    by_contra hset
    exact hnone ⟨i, hi, by simpa using hset⟩
  exact hclear.trans BitVec.getLsbD_zero.symm

theorem toNat_clz_lt {x : BitVec w} (hx : x ≠ 0) : x.clz.toNat < w := by
  have hlt : w < 2 ^ w := Nat.lt_two_pow_self
  have hclz := BitVec.clz_lt_iff_ne_zero.mpr hx
  rw [BitVec.lt_def, BitVec.natCast_eq_ofNat, BitVec.toNat_ofNat, Nat.mod_eq_of_lt hlt] at hclz
  exact hclz

theorem toNat_highest {x : BitVec w} (hx : x ≠ 0) : (highest x).toNat = w - 1 - x.clz.toNat := by
  have hlt : w < 2 ^ w := Nat.lt_two_pow_self
  have hclz := toNat_clz_lt hx
  have htop : (BitVec.ofNat w (w - 1)).toNat = w - 1 := by
    rw [BitVec.toNat_ofNat, Nat.mod_eq_of_lt (by omega)]
  have hle : x.clz ≤ BitVec.ofNat w (w - 1) := by
    rw [BitVec.le_def, htop]
    omega
  rw [highest, BitVec.toNat_sub_of_le hle, htop]

theorem highest_lt {x : BitVec w} (hx : x ≠ 0) : (highest x).toNat < w := by
  have hclz := toNat_clz_lt hx
  rw [toNat_highest hx]
  omega

theorem getLsbD_highest {x : BitVec w} (hx : x ≠ 0) : x.getLsbD (highest x).toNat = true := by
  have hclz := toNat_clz_lt hx
  rw [toNat_highest hx]
  exact BitVec.getLsbD_true_clz_of_ne_zero (by omega) hx

theorem getLsbD_of_highest_lt {x : BitVec w} (hx : x ≠ 0) {i : ℕ} (hi : (highest x).toNat < i) :
    x.getLsbD i = false := by
  have hclz := toNat_clz_lt hx
  rw [toNat_highest hx] at hi
  obtain ⟨j, rfl⟩ := Nat.exists_eq_add_of_le (show w - x.clz.toNat ≤ i by omega)
  rw [BitVec.clz]
  exact BitVec.getLsbD_false_of_clzAuxRec (fun k hk => BitVec.getLsbD_of_ge x k (by omega)) j

/-! ## A loop over the set bits -/

variable {α : Type*}

/-- At most `fuel` turns of a loop that acts on the highest set bit and clears it, until none is
set. -/
def scanFuel (f : ℕ → α → α) : ℕ → BitVec w → α → α
  | 0, _, a => a
  | fuel + 1, x, a =>
      if x = 0 then a
      else scanFuel f fuel (x &&& ~~~(1#w <<< (highest x).toNat)) (f (highest x).toNat a)

/-- The loop until no bit is set, for which as many turns as the word has bits are enough. -/
def scan (f : ℕ → α → α) (x : BitVec w) (a : α) : α := scanFuel f w x a

/-- The set bits of a word below `n`, from the top down. -/
def bitsBelow (x : BitVec w) : ℕ → List ℕ
  | 0 => []
  | n + 1 => if x.getLsbD n then n :: bitsBelow x n else bitsBelow x n

theorem mem_bitsBelow {x : BitVec w} {n i : ℕ} :
    i ∈ bitsBelow x n ↔ i < n ∧ x.getLsbD i = true := by
  induction n with
  | zero => simp [bitsBelow]
  | succ n ih =>
      rw [bitsBelow]
      by_cases hn : x.getLsbD n = true
      · rw [if_pos hn, List.mem_cons, ih]
        constructor
        · rintro (rfl | ⟨hi, hset⟩)
          · exact ⟨Nat.lt_succ_self _, hn⟩
          · exact ⟨Nat.lt_succ_of_lt hi, hset⟩
        · rintro ⟨hi, hset⟩
          rcases Nat.lt_succ_iff_lt_or_eq.mp hi with hi | rfl
          · exact .inr ⟨hi, hset⟩
          · exact .inl rfl
      · rw [if_neg hn, ih]
        refine ⟨fun h => ⟨Nat.lt_succ_of_lt h.1, h.2⟩, fun ⟨hi, hset⟩ => ⟨?_, hset⟩⟩
        rcases Nat.lt_succ_iff_lt_or_eq.mp hi with hi | rfl
        · exact hi
        · exact absurd hset hn

theorem pairwise_bitsBelow (x : BitVec w) (n : ℕ) : (bitsBelow x n).Pairwise (· > ·) := by
  induction n with
  | zero => exact .nil
  | succ n ih =>
      rw [bitsBelow]
      split
      · exact .cons (fun i hi => (mem_bitsBelow.mp hi).1) ih
      · exact ih

theorem bitsBelow_congr {x y : BitVec w} {n : ℕ} (h : ∀ i < n, x.getLsbD i = y.getLsbD i) :
    bitsBelow x n = bitsBelow y n := by
  induction n with
  | zero => rfl
  | succ n ih =>
      rw [bitsBelow, bitsBelow, h n (Nat.lt_succ_self n), ih fun i hi => h i (Nat.lt_succ_of_lt hi)]

theorem getLsbD_clear (x : BitVec w) (k i : ℕ) :
    (x &&& ~~~(1#w <<< k)).getLsbD i = (x.getLsbD i && decide (i ≠ k)) := by
  by_cases hi : i < w
  · have hone : (1#w <<< k).getLsbD i = decide (i = k) := by
      rw [← BitVec.twoPow_eq, BitVec.getLsbD_twoPow]
      by_cases hik : i = k
      · simp [← hik, hi]
      · simp [hik, Ne.symm hik]
    rw [BitVec.getLsbD_and, BitVec.getLsbD_not, hone]
    simp [hi]
  · simp [BitVec.getLsbD_of_ge x i (by omega)]

/-- A loop with enough turns visits the set bits from the top down. -/
theorem scanFuel_eq (f : ℕ → α → α) {n fuel : ℕ} (hfuel : n ≤ fuel) {x : BitVec w}
    (hx : ∀ i, n ≤ i → x.getLsbD i = false) (a : α) :
    scanFuel f fuel x a = (bitsBelow x n).foldl (fun a i => f i a) a := by
  induction n generalizing x fuel a with
  | zero =>
      have hzero : x = 0 := BitVec.eq_of_getLsbD_eq fun i _ => by simp [hx i (Nat.zero_le i)]
      cases fuel with
      | zero => rfl
      | succ fuel => rw [scanFuel, if_pos hzero, bitsBelow, List.foldl_nil]
  | succ n ih =>
      by_cases hn : x.getLsbD n = true
      · obtain ⟨fuel, rfl⟩ : ∃ m, fuel = m + 1 := ⟨fuel - 1, by omega⟩
        have hne : x ≠ 0 := fun hzero => by simp [hzero] at hn
        have htop : (highest x).toNat = n := by
          have hset := getLsbD_highest hne
          refine le_antisymm (Nat.le_of_not_lt fun hlt => ?_) (Nat.le_of_not_lt fun hlt => ?_)
          · rw [hx _ hlt] at hset
            exact absurd hset (by decide)
          · rw [getLsbD_of_highest_lt hne hlt] at hn
            exact absurd hn (by decide)
        rw [scanFuel, if_neg hne, htop, bitsBelow, if_pos hn, List.foldl_cons,
          ih (by omega) fun i hi => ?_]
        · refine congrArg (List.foldl _ _) (bitsBelow_congr fun i hi => ?_)
          rw [getLsbD_clear, decide_eq_true (Nat.ne_of_lt hi), Bool.and_true]
        · rw [getLsbD_clear]
          rcases Nat.eq_or_lt_of_le hi with rfl | hlt
          · simp
          · simp [hx i hlt]
      · rw [bitsBelow, if_neg hn]
        refine ih (by omega) (fun i hi => ?_) a
        rcases Nat.eq_or_lt_of_le hi with rfl | hlt
        · simpa using hn
        · exact hx i hlt

theorem scan_eq (f : ℕ → α → α) (x : BitVec w) (a : α) :
    scan f x a = (bitsBelow x w).foldl (fun a i => f i a) a :=
  scanFuel_eq f (le_refl w) (fun i hi => BitVec.getLsbD_of_ge x i hi) a

def clearHighest (x : BitVec w) : BitVec w := x &&& ~~~(1#w <<< (highest x).toNat)

/-- The loop ends: after as many turns as a word has bits, none is set. -/
theorem iterate_clearHighest {n : ℕ} {x : BitVec w} (hx : ∀ i, n ≤ i → x.getLsbD i = false) :
    clearHighest^[n] x = 0 := by
  induction n generalizing x with
  | zero => exact BitVec.eq_of_getLsbD_eq fun i _ => by simp [hx i (Nat.zero_le i)]
  | succ n ih =>
      rw [Function.iterate_succ_apply]
      refine ih fun i hi => ?_
      rw [clearHighest, getLsbD_clear]
      by_cases hzero : x = 0
      · simp [hzero]
      · by_cases htop : i = (highest x).toNat
        · simp [htop]
        · rcases Nat.lt_or_gt_of_ne htop with hlt | hgt
          · have hset := getLsbD_highest hzero
            rw [hx _ (Nat.succ_le_of_lt (hi.trans_lt hlt))] at hset
            exact absurd hset (by decide)
          · rw [getLsbD_of_highest_lt hzero hgt, Bool.false_and]

/-! ## The lowest set bit -/

theorem getLsbD_and_neg (x : BitVec w) (i : ℕ) :
    (x &&& -x).getLsbD i = true ↔ x.getLsbD i = true ∧ ∀ j < i, x.getLsbD j = false := by
  rw [BitVec.getLsbD_and, BitVec.getLsbD_neg]
  by_cases hi : i < w
  · cases x.getLsbD i <;> simp [hi]
  · simp [BitVec.getLsbD_of_ge x i (by omega)]

def lowest (x : BitVec w) : BitVec w := highest (x &&& -x)

theorem and_neg_ne_zero {x : BitVec w} (hx : x ≠ 0) : x &&& -x ≠ 0 := by
  obtain ⟨i, -, hi⟩ := exists_getLsbD_of_ne_zero hx
  intro hzero
  have hex : ∃ i, x.getLsbD i = true := ⟨i, hi⟩
  have hleast : (x &&& -x).getLsbD (Nat.find hex) = true := by
    rw [getLsbD_and_neg]
    exact ⟨Nat.find_spec hex, fun j hj => by simpa using Nat.find_min hex hj⟩
  rw [hzero] at hleast
  simp at hleast

theorem lowest_lt {x : BitVec w} (hx : x ≠ 0) : (lowest x).toNat < w :=
  highest_lt (and_neg_ne_zero hx)

theorem getLsbD_lowest {x : BitVec w} (hx : x ≠ 0) : x.getLsbD (lowest x).toNat = true :=
  ((getLsbD_and_neg x _).mp (getLsbD_highest (and_neg_ne_zero hx))).1

end BitScan
