import KHypervisor.Lib.RadixTable
import KHypervisor.Paging.Table

/-!
# Page tables as a radix table

The three levels of a page table lie one behind the other, and all three address computations of
`write_pgentry` number their doublewords consecutively: four at the first level, 2048 from word
`0x200` on at the second, one for each of the `2 ^ 20` pages from word `0xA00` on at the third.
Read this way the memory of a table is a radix table whose keys are page numbers and whose nodes
are the entries of the first two levels. `paging_create` makes it a blank one over whatever
third-level words the memory held, and `write_pgentry` maps a page in it.
-/

namespace KHypervisor

/-! ## Words of a table -/

/-- The address of word `k` of the table at `base`. -/
def tableWord (base : U32) (k : ℕ) : U32 := base + BitVec.ofNat 32 (8 * k)

abbrev PageNo := BitVec 20

def pageNo (ipa : U32) : PageNo := ipa.extractLsb' 12 20

def PageNo.region (p : PageNo) : BitVec 2 := p.extractLsb' 18 2

def PageNo.block (p : PageNo) : BitVec 11 := p.extractLsb' 9 11

inductive TableNode
  | first (i : BitVec 2)
  | second (j : BitVec 11)
deriving DecidableEq

def nodePath (p : PageNo) : List TableNode := [.first p.region, .second p.block]

namespace TableNode

def word : TableNode → ℕ
  | first i => i.toNat
  | second j => 0x200 + j.toNat

/-- The table of the next level that `paging_create` lets an entry point to. -/
def next (base : U32) : TableNode → U32
  | first i => base + 0x1000 + BitVec.ofNat 32 (0x1000 * i.toNat)
  | second j => base + 0x5000 + BitVec.ofNat 32 (0x1000 * j.toNat)

theorem word_lt (n : TableNode) : n.word < 0xA00 := by
  cases n with
  | first i =>
      have hi := i.isLt
      rw [word]
      omega
  | second j =>
      have hj := j.isLt
      rw [word]
      omega

theorem word_injective : Function.Injective word := by
  intro n n' h
  cases n with
  | first i =>
      have hi := i.isLt
      cases n' with
      | first i' =>
          exact congrArg first (BitVec.eq_of_toNat_eq h)
      | second j' =>
          simp only [word] at h
          omega
  | second j =>
      cases n' with
      | first i' =>
          have hi := i'.isLt
          simp only [word] at h
          omega
      | second j' =>
          simp only [word, Nat.add_left_cancel_iff] at h
          exact congrArg second (BitVec.eq_of_toNat_eq h)

end TableNode

def leafWord (p : PageNo) : ℕ := 0xA00 + p.toNat

theorem leafWord_injective : Function.Injective leafWord := by
  intro p p' h
  simp only [leafWord, Nat.add_left_cancel_iff] at h
  exact BitVec.eq_of_toNat_eq h

def tableWords : ℕ := 0x100A00

theorem leafWord_lt (p : PageNo) : leafWord p < tableWords := by
  have hp := p.isLt
  rw [leafWord, tableWords]
  omega

theorem TableNode.word_lt_tableWords (n : TableNode) : n.word < tableWords := by
  have hn := n.word_lt
  rw [tableWords]
  omega

theorem nodePath_lastNode :
    RadixTable.LastNode nodePath fun p => TableNode.second p.block where
  mem_path p := by simp [nodePath]
  path_eq p p' h := by
    have hblock : p'.block = p.block := by simpa [nodePath, eq_comm] using h
    have hregion : ∀ q : PageNo, q.region = q.block.extractLsb' 9 2 := by
      intro q
      apply BitVec.eq_of_getLsbD_eq
      intro i hi
      simp only [PageNo.region, PageNo.block, BitVec.getLsbD_extractLsb']
      grind
    rw [nodePath, nodePath, hregion, hregion p, hblock]

/-- Page-aligned addresses, the only ones that tables are placed at. -/
def PageAligned (a : U32) : Prop := 0x1000 ∣ a.toNat

instance (a : U32) : Decidable (PageAligned a) := inferInstanceAs (Decidable (0x1000 ∣ a.toNat))

theorem toNat_tableWord (base : U32) (k : ℕ) :
    (tableWord base k).toNat = (base.toNat + 8 * k) % 2 ^ 32 := by
  rw [tableWord, BitVec.toNat_add, BitVec.toNat_ofNat]
  omega

theorem tableWord_inj {base : U32} {k k' : ℕ} (hk : k < tableWords) (hk' : k' < tableWords) :
    tableWord base k = tableWord base k' ↔ k = k' := by
  constructor
  · intro h
    have hoff : BitVec.ofNat 32 (8 * k) = BitVec.ofNat 32 (8 * k') := add_left_cancel h
    have hnat := congrArg BitVec.toNat hoff
    rw [tableWords] at hk hk'
    rw [BitVec.toNat_ofNat, BitVec.toNat_ofNat, Nat.mod_eq_of_lt (by omega),
      Nat.mod_eq_of_lt (by omega)] at hnat
    omega
  · rintro rfl
    rfl

def WordAligned (a : U32) : Prop := 8 ∣ a.toNat

instance (a : U32) : Decidable (WordAligned a) := inferInstanceAs (Decidable (8 ∣ a.toNat))

theorem wordAligned_tableWord {base : U32} (hbase : PageAligned base) (k : ℕ) :
    WordAligned (tableWord base k) := by
  obtain ⟨c, hc⟩ := hbase
  rw [WordAligned, toNat_tableWord]
  omega

/-! ## Reading what was written -/

theorem toNat_physAddr (a : U32) : (physAddr a).toNat = a.toNat := by
  rw [physAddr, BitVec.toNat_setWidth]
  exact Nat.mod_eq_of_lt (by omega)

theorem physAddr_injective : Function.Injective physAddr := by
  intro a a' h
  apply BitVec.eq_of_toNat_eq
  rw [← toNat_physAddr, ← toNat_physAddr, h]

theorem read64_write64 {a b : U32} (v : U64) (m : PhysMem) (ha : WordAligned a)
    (hb : WordAligned b) : read64 b (write64 v a m) = if a = b then v else read64 b m := by
  have halign : ∀ {c : U32}, WordAligned c → ByteMemory.Aligned (physAddr c) := by
    intro c hc
    rw [ByteMemory.Aligned, toNat_physAddr]
    exact hc
  rw [read64, write64, ByteMemory.read64_write64 (by omega) _ _ (halign ha) (halign hb)]
  exact if_congr physAddr_injective.eq_iff rfl rfl

theorem read64_write64_word {base : U32} (hbase : PageAligned base) (v : U64) (m : PhysMem)
    {j k : ℕ} (hj : j < tableWords) (hk : k < tableWords) :
    read64 (tableWord base k) (write64 v (tableWord base j) m) =
      if j = k then v else read64 (tableWord base k) m := by
  rw [read64_write64 v m (wordAligned_tableWord hbase j) (wordAligned_tableWord hbase k)]
  exact if_congr (tableWord_inj hj hk) rfl rfl

/-- Storing the words `f 0, …, f (n - 1)` from word `k` of a table on. -/
theorem read64_fill {base : U32} (hbase : PageAligned base) (f : ℕ → U64) {k n j : ℕ}
    (m : PhysMem) (hn : k + n ≤ tableWords) (hj : j < tableWords) :
    read64 (tableWord base j)
        ((List.range n).foldl (fun m i => write64 (f i) (tableWord base (k + i)) m) m) =
      if k ≤ j ∧ j < k + n then f (j - k) else read64 (tableWord base j) m := by
  induction n with
  | zero =>
      rw [List.range_zero, List.foldl_nil, if_neg (by omega)]
  | succ n ih =>
      rw [List.range_succ, List.foldl_append, List.foldl_cons, List.foldl_nil,
        read64_write64_word hbase _ _ (by omega) hj, ih (by omega)]
      by_cases hlast : k + n = j
      · subst hlast
        rw [if_pos rfl, if_pos (by omega), Nat.add_sub_cancel_left]
      · rw [if_neg hlast]
        by_cases hin : k ≤ j ∧ j < k + n
        · rw [if_pos hin, if_pos (by omega)]
        · rw [if_neg hin, if_neg (by omega)]

/-! ## The address computations -/

theorem l1EntryAddr_eq (base va : U32) :
    l1EntryAddr base (l1Index va) =
      tableWord base (TableNode.first (PageNo.region (va.setWidth 20))).word := by
  have hregion : (PageNo.region (va.setWidth 20)).toNat = va.toNat / 2 ^ 18 % 2 ^ 2 := by
    rw [PageNo.region, BitVec.extractLsb'_toNat, BitVec.toNat_setWidth, Nat.shiftRight_eq_div_pow]
    omega
  rw [l1EntryAddr, getOffset_eq, toNat_l1Index, tableWord, TableNode.word, hregion]

theorem l2EntryAddr_eq (base va : U32) :
    l2EntryAddr base (l1Index va) (l2Index va) =
      tableWord base (TableNode.second (PageNo.block (va.setWidth 20))).word := by
  have hblock : (PageNo.block (va.setWidth 20)).toNat = va.toNat / 2 ^ 9 % 2 ^ 11 := by
    rw [PageNo.block, BitVec.extractLsb'_toNat, BitVec.toNat_setWidth, Nat.shiftRight_eq_div_pow]
    omega
  have hconst : (0x1000 : U32) = BitVec.ofNat 32 0x1000 := rfl
  rw [l2EntryAddr, getOffset_eq, getL2Index_eq, toNat_l1Index, toNat_l2Index, tableWord,
    TableNode.word, hblock, hconst]
  simp only [add_assoc, ← BitVec.ofNat_add]
  congr 2
  omega

theorem l3EntryAddr_eq (base va : U32) :
    l3EntryAddr base (l1Index va) (l2Index va) (l3Index va) =
      tableWord base (leafWord (va.setWidth 20)) := by
  have hconst : (0x5000 : U32) = BitVec.ofNat 32 0x5000 := rfl
  rw [l3EntryAddr, getOffset_eq, getL2Index_eq, getL3Index_eq, toNat_l1Index, toNat_l2Index,
    toNat_l3Index, tableWord, leafWord, BitVec.toNat_setWidth, hconst]
  simp only [add_assoc, ← BitVec.ofNat_add]
  congr 2
  omega

theorem pageNo_eq (ipa : U32) : (ipa >>> pageShift).setWidth 20 = pageNo ipa := by
  apply BitVec.eq_of_toNat_eq
  rw [BitVec.toNat_setWidth, BitVec.toNat_ushiftRight, pageNo, BitVec.extractLsb'_toNat, pageShift]

/-! ## The refinement -/

def nodeRaw (base : U32) (n : TableNode) (live : Bool) : U64 :=
  if live then (setTable (n.next base)).raw ||| setValid else (setTable (n.next base)).raw

theorem nodeRaw_setValid (base : U32) (n : TableNode) (live : Bool) :
    nodeRaw base n live ||| setValid = nodeRaw base n true := by
  cases live with
  | false => rfl
  | true => rw [nodeRaw, if_pos rfl, BitVec.or_assoc, BitVec.or_self]

/-- The memory at `base` holds the page table that `s` describes. -/
structure HoldsTable (m : PhysMem) (base : U32) (s : RadixTable TableNode PageNo U64) : Prop where
  node : ∀ n : TableNode, read64 (tableWord base n.word) m = nodeRaw base n (s.live n)
  leaf : ∀ p : PageNo, read64 (tableWord base (leafWord p)) m = s.entry p

/-- The third-level words of the table at `base`. -/
def leafWords (m : PhysMem) (base : U32) (p : PageNo) : U64 :=
  read64 (tableWord base (leafWord p)) m

theorem pagingCreate_eq (base : U32) (m : PhysMem) :
    pagingCreate base m =
      (List.range 2048).foldl (fun m i =>
        write64 (nodeRaw base (.second (BitVec.ofNat 11 i)) false) (tableWord base (0x200 + i)) m)
      ((List.range 4).foldl (fun m i =>
        write64 (nodeRaw base (.first (BitVec.ofNat 2 i)) false)
          (tableWord base (0 + i)) m) m) := by
  rw [pagingCreate]
  have hfirst : ∀ (m : PhysMem), ∀ i ∈ List.range 4,
      write64 (setTable (base + 0x1000 + getL2Index (BitVec.ofNat 32 i))).raw
          (base + getOffset (BitVec.ofNat 32 i)) m =
        write64 (nodeRaw base (.first (BitVec.ofNat 2 i)) false) (tableWord base (0 + i)) m := by
    intro m i hi
    have hlt : i < 4 := List.mem_range.mp hi
    have hnat : (BitVec.ofNat 32 i).toNat = i := Nat.mod_eq_of_lt (by omega)
    have hidx : (BitVec.ofNat 2 i).toNat = i := Nat.mod_eq_of_lt hlt
    rw [getL2Index_eq, getOffset_eq, hnat, nodeRaw, if_neg (by simp), TableNode.next, hidx,
      tableWord, Nat.zero_add]
  have hsecond : ∀ (m : PhysMem), ∀ i ∈ List.range 2048,
      write64 (setTable (base + 0x1000 + 0x4000 + getL2Index (BitVec.ofNat 32 i))).raw
          (base + 0x1000 + getOffset (BitVec.ofNat 32 i)) m =
        write64 (nodeRaw base (.second (BitVec.ofNat 11 i)) false) (tableWord base (0x200 + i))
          m := by
    intro m i hi
    have hlt : i < 2048 := List.mem_range.mp hi
    have hnat : (BitVec.ofNat 32 i).toNat = i := Nat.mod_eq_of_lt (by omega)
    have hidx : (BitVec.ofNat 11 i).toNat = i := Nat.mod_eq_of_lt hlt
    have hword : base + 0x1000 + BitVec.ofNat 32 (8 * i) = tableWord base (0x200 + i) := by
      rw [tableWord, show (0x1000 : U32) = BitVec.ofNat 32 0x1000 from rfl, add_assoc,
        ← BitVec.ofNat_add, Nat.mul_add]
    have hnext : base + 0x1000 + 0x4000 = base + 0x5000 := by
      rw [add_assoc]
      rfl
    rw [getL2Index_eq, getOffset_eq, hnat, nodeRaw, if_neg (by simp), TableNode.next, hidx,
      hword, hnext]
  exact (List.foldl_ext _ _ _ hsecond).trans
    (congrArg (fun m => List.foldl _ m _) (List.foldl_ext _ _ _ hfirst))

/-- A created table is blank over the third-level words that the memory held before. -/
theorem holdsTable_pagingCreate {base : U32} (hbase : PageAligned base) (m : PhysMem) :
    HoldsTable (pagingCreate base m) base (RadixTable.blank (leafWords m base)) := by
  have hread : ∀ j < tableWords, read64 (tableWord base j) (pagingCreate base m) =
      if 0x200 ≤ j ∧ j < 0x200 + 2048 then
        nodeRaw base (.second (BitVec.ofNat 11 (j - 0x200))) false
      else if 0 ≤ j ∧ j < 0 + 4 then nodeRaw base (.first (BitVec.ofNat 2 (j - 0))) false
      else read64 (tableWord base j) m := by
    intro j hj
    rw [pagingCreate_eq, read64_fill hbase
        (fun i => nodeRaw base (.second (BitVec.ofNat 11 i)) false) _
        (by rw [tableWords]; omega) hj,
      read64_fill hbase (fun i => nodeRaw base (.first (BitVec.ofNat 2 i)) false) _
        (by rw [tableWords]; omega) hj]
  constructor
  · intro n
    rw [hread _ n.word_lt_tableWords]
    cases n with
    | first i =>
        have hi := i.isLt
        rw [TableNode.word, if_neg (by omega), if_pos (by omega), Nat.sub_zero,
          BitVec.ofNat_toNat, BitVec.setWidth_eq]
        rfl
    | second j =>
        have hj := j.isLt
        rw [TableNode.word, if_pos (by omega), Nat.add_sub_cancel_left,
          BitVec.ofNat_toNat, BitVec.setWidth_eq]
        rfl
  · intro p
    rw [hread _ (leafWord_lt p)]
    rw [leafWord, if_neg (by omega), if_neg (by omega)]
    rfl

theorem TableNode.word_ne_leafWord (n : TableNode) (p : PageNo) : n.word ≠ leafWord p := by
  have hn := n.word_lt
  rw [leafWord]
  omega

section Write

variable {base : U32} (hbase : PageAligned base) {m : PhysMem}
  {s : RadixTable TableNode PageNo U64} (h : HoldsTable m base s)

include hbase h

theorem HoldsTable.setValid (n : TableNode) :
    HoldsTable
      (write64 (read64 (tableWord base n.word) m ||| setValid) (tableWord base n.word) m) base
      ⟨Function.update s.live n true, s.entry⟩ := by
  constructor
  · intro n'
    rw [read64_write64_word hbase _ _ n.word_lt_tableWords n'.word_lt_tableWords]
    dsimp only
    by_cases hn : n = n'
    · subst hn
      rw [if_pos rfl, h.node, nodeRaw_setValid, Function.update_self]
    · rw [if_neg (TableNode.word_injective.ne hn), h.node, Function.update_of_ne (Ne.symm hn)]
  · intro p
    rw [read64_write64_word hbase _ _ n.word_lt_tableWords (leafWord_lt p),
      if_neg (n.word_ne_leafWord p), h.leaf]

theorem HoldsTable.setLeaf (p : PageNo) (e : U64) :
    HoldsTable (write64 e (tableWord base (leafWord p)) m) base
      ⟨s.live, Function.update s.entry p e⟩ := by
  constructor
  · intro n
    rw [read64_write64_word hbase _ _ (leafWord_lt p) n.word_lt_tableWords,
      if_neg (n.word_ne_leafWord p).symm, h.node]
  · intro q
    rw [read64_write64_word hbase _ _ (leafWord_lt p) (leafWord_lt q)]
    dsimp only
    by_cases hq : p = q
    · subst hq
      rw [if_pos rfl, Function.update_self]
    · rw [if_neg (leafWord_injective.ne hq), h.leaf, Function.update_of_ne (Ne.symm hq)]

/-- `write_pgentry` maps the page `va` in the table. -/
theorem HoldsTable.writePgentry (va pa : U32) (memAttr ap af : U8) :
    HoldsTable (writePgentry base va pa memAttr ap af m) base
      (s.map nodePath (va.setWidth 20) (setEntry pa memAttr ap af).raw) := by
  obtain ⟨p, hp⟩ : ∃ p : PageNo, va.setWidth 20 = p := ⟨_, rfl⟩
  rw [KHypervisor.writePgentry, l1EntryAddr_eq, l2EntryAddr_eq, l3EntryAddr_eq, hp]
  have hstored := ((h.setValid hbase (.first p.region)).setValid hbase (.second p.block)).setLeaf
    hbase p (setEntry pa memAttr ap af).raw
  have hlive : s.map nodePath p (setEntry pa memAttr ap af).raw =
      ⟨Function.update (Function.update s.live (.first p.region) true) (.second p.block) true,
        Function.update s.entry p (setEntry pa memAttr ap af).raw⟩ := by
    ext n
    · by_cases hsecond : n = .second p.block
      · simp [RadixTable.map, nodePath, hsecond]
      · by_cases hfirst : n = .first p.region
        · simp [RadixTable.map, nodePath, hfirst]
        · simp [RadixTable.map, nodePath, hsecond, hfirst]
    · rfl
  rw [hlive]
  exact hstored

end Write

end KHypervisor
