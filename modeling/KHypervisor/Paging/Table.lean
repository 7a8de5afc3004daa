import KHypervisor.Lib.ByteMemory
import KHypervisor.Paging.Descriptor

/-!
# Writing page tables

`write_pgentry`, `paging_create` and the two mapping loops, over a physical memory. The
hypervisor computes addresses in 32 bits and stores through `write64`; the memory keeps, next to
its bytes, the list of addresses that `write64` was handed, so that what an operation stores to
can be spoken about even where it stores the value that was there before.

The mapping loops count in an `int` that is compared with a `uint32_t`. Their fuel bounds the
number of tests of the loop condition: the counter takes at most `2 ^ 20` values before it is
zero again, so a loop that is still running then never ends (`mapLoop_diverges`).
-/

namespace KHypervisor

structure PhysMem where
  bytes : ByteMemory.Memory 40
  stores : List U32

def physAddr (a : U32) : BitVec 40 := a.setWidth 40

/-- `read64`. -/
def read64 (addr : U32) (m : PhysMem) : U64 := ByteMemory.read64 m.bytes (physAddr addr)

/-- `write64`. -/
def write64 (value : U64) (addr : U32) (m : PhysMem) : PhysMem where
  bytes := ByteMemory.write64 m.bytes (physAddr addr) value
  stores := addr :: m.stores

/-- `GET_OFFSET`, the size of an entry times the index. -/
def getOffset (i : U32) : U32 := i <<< 3

/-- `GET_L2_INDEX`. -/
def getL2Index (i : U32) : U32 := getOffset (i <<< 9)

/-- `GET_L3_INDEX`. -/
def getL3Index (i : U32) : U32 := getOffset (i <<< 18)

/-! The index computations that open `write_pgentry` and `read_pgentry`, `va` a page number. -/

def l1Index (va : U32) : U32 := (va &&& 0xC0000) >>> entryShift >>> entryShift

def l2Index (va : U32) : U32 := (va &&& 0x3FE00) >>> entryShift

def l3Index (va : U32) : U32 := va &&& 0x001FF

def l1EntryAddr (base l1 : U32) : U32 := base + getOffset l1

def l2EntryAddr (base l1 l2 : U32) : U32 := base + 0x1000 + getL2Index l1 + getOffset l2

def l3EntryAddr (base l1 l2 l3 : U32) : U32 :=
  base + 0x5000 + getL3Index l1 + getL2Index l2 + getOffset l3

/-- `write_pgentry`. -/
def writePgentry (base va pa : U32) (memAttr ap af : U8) (m : PhysMem) : PhysMem :=
  let l1 := l1EntryAddr base (l1Index va)
  let l2 := l2EntryAddr base (l1Index va) (l2Index va)
  let l3 := l3EntryAddr base (l1Index va) (l2Index va) (l3Index va)
  let m := write64 (read64 l1 m ||| setValid) l1 m
  let m := write64 (read64 l2 m ||| setValid) l2 m
  write64 (setEntry pa memAttr ap af).raw l3 m

/-- `paging_create`. -/
def pagingCreate (base : U32) (m : PhysMem) : PhysMem :=
  let secondBase := base + 0x1000
  let thirdBase := secondBase + 0x4000
  let m := (List.range l1Entry).foldl (fun m i =>
    let i := BitVec.ofNat 32 i
    write64 (setTable (secondBase + getL2Index i)).raw (base + getOffset i) m) m
  (List.range (l1Entry * l2Entry)).foldl (fun m i =>
    let i := BitVec.ofNat 32 i
    write64 (setTable (thirdBase + getL2Index i)).raw (secondBase + getOffset i) m) m

/-- The loop of `paging_add_mapping` and `paging_add_ipa_mapping`; `step va pa` is its body. -/
def mapLoop (step : U32 → U32 → PhysMem → PhysMem) (size : U32) :
    ℕ → U32 → U32 → U32 → PhysMem → Option PhysMem
  | 0, _, _, _, _ => none
  | fuel + 1, i, va, pa, m =>
      if i < size then
        mapLoop step size fuel (i + 0x1000) (va + 0x1000) (pa + 0x1000) (step va pa m)
      else some m

/-- One test of the loop condition for every value of the counter, and one more. -/
def loopFuel : ℕ := 2 ^ 20 + 1

/-- `paging_add_mapping`, for the value `httbr` of the register it reads. `none` is a loop that
never ends. -/
def pagingAddMapping (httbr : U64) (va pa : U32) (memAttr : U8) (size : U32) (m : PhysMem) :
    Option PhysMem :=
  mapLoop (fun va pa => writePgentry (httbr.setWidth 32) (va >>> pageShift) pa memAttr 0 1)
    size loopFuel 0 va pa m

/-- `paging_add_ipa_mapping`. `none` is a loop that never ends. -/
def pagingAddIpaMapping (base ipa pa : U32) (memAttr af : U8) (size : U32) (m : PhysMem) :
    Option PhysMem :=
  mapLoop (fun ipa pa => writePgentry base (ipa >>> pageShift) pa memAttr 3 af)
    size loopFuel 0 ipa pa m

/-! ## Index arithmetic -/

theorem getOffset_eq (i : U32) : getOffset i = BitVec.ofNat 32 (8 * i.toNat) := by
  apply BitVec.eq_of_toNat_eq
  rw [getOffset, BitVec.toNat_shiftLeft, Nat.shiftLeft_eq, BitVec.toNat_ofNat, Nat.mul_comm]

theorem getL2Index_eq (i : U32) : getL2Index i = BitVec.ofNat 32 (0x1000 * i.toNat) := by
  apply BitVec.eq_of_toNat_eq
  rw [getL2Index, getOffset_eq, BitVec.toNat_shiftLeft, Nat.shiftLeft_eq, BitVec.toNat_ofNat,
    BitVec.toNat_ofNat]
  omega

theorem getL3Index_eq (i : U32) : getL3Index i = BitVec.ofNat 32 (0x200000 * i.toNat) := by
  apply BitVec.eq_of_toNat_eq
  rw [getL3Index, getOffset_eq, BitVec.toNat_shiftLeft, Nat.shiftLeft_eq, BitVec.toNat_ofNat,
    BitVec.toNat_ofNat]
  omega

theorem toNat_l1Index (va : U32) : (l1Index va).toNat = va.toNat / 2 ^ 18 % 2 ^ 2 := by
  have hmask : (0xC0000 : U32) >>> (9 + 9) = 3 := rfl
  rw [l1Index, entryShift, ← BitVec.shiftRight_add, BitVec.ushiftRight_and_distrib, hmask,
    BitVec.toNat_and, BitVec.toNat_ushiftRight, Nat.shiftRight_eq_div_pow]
  exact Nat.and_two_pow_sub_one_eq_mod _ 2

theorem toNat_l2Index (va : U32) : (l2Index va).toNat = va.toNat / 2 ^ 9 % 2 ^ 9 := by
  have hmask : (0x3FE00 : U32) >>> 9 = 0x1FF := rfl
  rw [l2Index, entryShift, BitVec.ushiftRight_and_distrib, hmask, BitVec.toNat_and,
    BitVec.toNat_ushiftRight, Nat.shiftRight_eq_div_pow]
  exact Nat.and_two_pow_sub_one_eq_mod _ 9

theorem toNat_l3Index (va : U32) : (l3Index va).toNat = va.toNat % 2 ^ 9 := by
  rw [l3Index, BitVec.toNat_and]
  exact Nat.and_two_pow_sub_one_eq_mod _ 9

/-! ## The mapping loops -/

section Loop

variable (step : U32 → U32 → PhysMem → PhysMem)

/-- `n` rounds of a mapping loop. -/
def mapRounds : ℕ → U32 → U32 → PhysMem → PhysMem
  | 0, _, _, m => m
  | n + 1, va, pa, m => mapRounds n (va + 0x1000) (pa + 0x1000) (step va pa m)

/-- The number of pages that `size` bytes take up. -/
def pagesOf (size : U32) : ℕ := (size.toNat + 0xFFF) / 0x1000

theorem mapLoop_eq_mapRounds {size : U32} {n fuel : ℕ} {i : U32} (va pa : U32) (m : PhysMem)
    (hfuel : n < fuel) (hlast : size.toNat ≤ i.toNat + n * 0x1000)
    (hbelow : n ≠ 0 → i.toNat + (n - 1) * 0x1000 < size.toNat)
    (hwrap : i.toNat + n * 0x1000 < 2 ^ 32) :
    mapLoop step size fuel i va pa m = some (mapRounds step n va pa m) := by
  induction n generalizing fuel i va pa m with
  | zero =>
      obtain ⟨f, rfl⟩ := Nat.exists_eq_succ_of_ne_zero (by omega : fuel ≠ 0)
      have hstop : ¬ i < size := by
        rw [BitVec.lt_def]
        omega
      rw [mapLoop, if_neg hstop, mapRounds]
  | succ n ih =>
      obtain ⟨f, rfl⟩ := Nat.exists_eq_succ_of_ne_zero (by omega : fuel ≠ 0)
      have hnext := hbelow (by omega)
      have hpage : i.toNat + 0x1000 < 2 ^ 32 := by omega
      have hgo : i < size := by
        rw [BitVec.lt_def]
        omega
      have hi : (i + 0x1000 : U32).toNat = i.toNat + 0x1000 := by
        rw [BitVec.toNat_add]
        exact Nat.mod_eq_of_lt hpage
      rw [mapLoop, if_pos hgo, mapRounds]
      apply ih
      · omega
      · omega
      · intro hn
        omega
      · omega

/-- A mapping loop maps every page of its range, provided the counter can pass the size. -/
theorem mapLoop_total {size : U32} (va pa : U32) (m : PhysMem) (hsize : size.toNat ≤ 0xFFFFF000) :
    mapLoop step size loopFuel 0 va pa m = some (mapRounds step (pagesOf size) va pa m) := by
  have hzero : (0 : U32).toNat = 0 := rfl
  apply mapLoop_eq_mapRounds
  · rw [loopFuel, pagesOf]
    omega
  · rw [hzero, pagesOf]
    omega
  · rw [hzero, pagesOf]
    omega
  · rw [hzero, pagesOf]
    omega

/-- For a larger size every value of the counter is below the size, whatever the fuel. -/
theorem mapLoop_diverges {size : U32} (hsize : 0xFFFFF000 < size.toNat) (fuel : ℕ) {i : U32}
    (hi : 0x1000 ∣ i.toNat) (va pa : U32) (m : PhysMem) :
    mapLoop step size fuel i va pa m = none := by
  induction fuel generalizing i va pa m with
  | zero => rfl
  | succ fuel ih =>
      have hgo : i < size := by
        have hlt := i.isLt
        rw [BitVec.lt_def]
        omega
      rw [mapLoop, if_pos hgo]
      apply ih
      have hadd : (i + 0x1000 : U32).toNat = (i.toNat + 0x1000) % 2 ^ 32 := BitVec.toNat_add i _
      omega

end Loop

end KHypervisor
