import KHypervisor.Paging.View

/-!
# The stage-2 walk

What the hardware makes of a page table: a walk of three levels over the 40-bit physical address
space. A descriptor whose bit 0 is clear faults. On the upper levels a descriptor whose bit 1 is
clear maps a block instead of pointing to a table.

A walk through a table that the memory holds is a lookup in the radix table (`walk_eq`): the
entries that the hypervisor addresses from the base of the whole table are the ones that the
hardware finds by following descriptors.
-/

namespace KHypervisor

/-- How a walk ends. A block or a page comes with its descriptor. -/
inductive Translation
  | fault
  | block (desc : U64)
  | page (desc : U64)
deriving DecidableEq

/-- The address of entry `i` of the table at `table`. -/
def entryAddr {n : ℕ} (table : BitVec 40) (i : BitVec n) : BitVec 40 :=
  table + BitVec.ofNat 40 (8 * i.toNat)

/-- The table that a descriptor points to: the 28 bits of the base field, shifted. -/
def nextTable (desc : U64) : BitVec 40 := (Lpae.Table.ofRaw desc).base ++ (0 : BitVec 12)

/-- The three-level walk of `ipa` through the first-level table at `ttbr`. -/
def walk (bytes : ByteMemory.Memory 40) (ttbr : BitVec 40) (ipa : U32) : Translation :=
  let first := ByteMemory.read64 bytes (entryAddr ttbr (ipa.extractLsb' 30 2))
  if first.getLsbD 0 = false then .fault
  else if first.getLsbD 1 = false then .block first
  else
    let second := ByteMemory.read64 bytes (entryAddr (nextTable first) (ipa.extractLsb' 21 9))
    if second.getLsbD 0 = false then .fault
    else if second.getLsbD 1 = false then .block second
    else
      let third := ByteMemory.read64 bytes (entryAddr (nextTable second) (ipa.extractLsb' 12 9))
      if third.getLsbD 0 = false then .fault else .page third

/-- The output address of `ipa` in a page. -/
def outputAddr (desc : U64) (ipa : U32) : BitVec 40 :=
  (Lpae.Page.ofRaw desc).base ++ ipa.extractLsb' 0 12

/-! ## Descriptors of the upper levels -/

def nodeDesc (base : U32) (n : TableNode) (live : Bool) : Lpae.Table :=
  { setTable (n.next base) with valid := BitVec.ofBool live }

theorem nodeRaw_eq (base : U32) (n : TableNode) (live : Bool) :
    nodeRaw base n live = (nodeDesc base n live).raw := by
  cases live with
  | false => rfl
  | true =>
      apply BitVec.eq_of_getLsbD_eq
      intro i hi
      simp only [nodeRaw, nodeDesc, Lpae.Table.raw, setTable, setValid, BitVec.getLsbD_append,
        if_true, BitVec.getLsbD_or]
      grind

theorem getLsbD_nodeRaw_zero (base : U32) (n : TableNode) (live : Bool) :
    (nodeRaw base n live).getLsbD 0 = live := by
  rw [nodeRaw_eq]
  simp only [nodeDesc, Lpae.Table.raw, BitVec.getLsbD_append]
  cases live <;> rfl

theorem getLsbD_nodeRaw_one (base : U32) (n : TableNode) (live : Bool) :
    (nodeRaw base n live).getLsbD 1 = true := by
  rw [nodeRaw_eq]
  simp only [nodeDesc, setTable, Lpae.Table.raw, BitVec.getLsbD_append]
  rfl

/-- The base field of a descriptor with an offset into the page it points to. -/
theorem toNat_base_append (pa : U32) (off : BitVec 12) :
    ((pa >>> pageShift).setWidth 28 ++ off).toNat = pa.toNat / 0x1000 * 0x1000 + off.toNat := by
  have hpa := pa.isLt
  rw [BitVec.toNat_append, BitVec.toNat_setWidth, BitVec.toNat_ushiftRight, pageShift,
    Nat.shiftRight_eq_div_pow, Nat.mod_eq_of_lt (by omega), Nat.shiftLeft_eq, Nat.mul_comm,
    ← Nat.two_pow_add_eq_or_of_lt off.isLt, Nat.mul_comm]

theorem PageAligned.add {a b : U32} (ha : PageAligned a) (hb : PageAligned b) :
    PageAligned (a + b) := by
  obtain ⟨c, hc⟩ := ha
  obtain ⟨d, hd⟩ := hb
  rw [PageAligned, BitVec.toNat_add]
  omega

theorem pageAligned_ofNat (k : ℕ) : PageAligned (BitVec.ofNat 32 (0x1000 * k)) := by
  rw [PageAligned, BitVec.toNat_ofNat]
  omega

theorem TableNode.pageAligned_next {base : U32} (hbase : PageAligned base) (n : TableNode) :
    PageAligned (n.next base) := by
  cases n with
  | first i => exact (hbase.add (by decide)).add (pageAligned_ofNat _)
  | second j => exact (hbase.add (by decide)).add (pageAligned_ofNat _)

theorem nodeDesc_base (base : U32) (n : TableNode) (live : Bool) :
    (nodeDesc base n live).base = (n.next base >>> pageShift).setWidth 28 := rfl

theorem nextTable_nodeRaw {base : U32} (hbase : PageAligned base) (n : TableNode) (live : Bool) :
    nextTable (nodeRaw base n live) = physAddr (n.next base) := by
  have hzero : (0 : BitVec 12).toNat = 0 := rfl
  obtain ⟨c, hc⟩ := n.pageAligned_next hbase
  apply BitVec.eq_of_toNat_eq
  rw [nodeRaw_eq, nextTable, Lpae.Table.ofRaw_raw, toNat_physAddr, nodeDesc_base,
    toNat_base_append]
  omega

/-- An entry of a page-aligned table, found by the hardware and by the hypervisor. -/
theorem entryAddr_physAddr {table : U32} (htable : PageAligned table) {n : ℕ} (hn : n ≤ 9)
    (i : BitVec n) :
    entryAddr (physAddr table) i = physAddr (table + BitVec.ofNat 32 (8 * i.toNat)) := by
  have hpow : 2 ^ n ≤ 2 ^ 9 := Nat.pow_le_pow_right (by omega) hn
  have hi : i.toNat < 2 ^ 9 := lt_of_lt_of_le i.isLt hpow
  have htop := table.isLt
  obtain ⟨c, hc⟩ := htable
  apply BitVec.eq_of_toNat_eq
  rw [entryAddr, BitVec.toNat_add, toNat_physAddr, toNat_physAddr, BitVec.toNat_add,
    BitVec.toNat_ofNat, BitVec.toNat_ofNat]
  omega

theorem second_word (base : U32) (i : BitVec 2) (j : BitVec 9) :
    (TableNode.first i).next base + BitVec.ofNat 32 (8 * j.toNat) =
      tableWord base (TableNode.second (i ++ j)).word := by
  have hconst : (0x1000 : U32) = BitVec.ofNat 32 0x1000 := rfl
  have happ : (i ++ j).toNat = 2 ^ 9 * i.toNat + j.toNat := by
    rw [BitVec.toNat_append, Nat.shiftLeft_eq, Nat.mul_comm, ← Nat.two_pow_add_eq_or_of_lt j.isLt]
  rw [TableNode.next, tableWord, TableNode.word, happ, hconst]
  simp only [add_assoc, ← BitVec.ofNat_add]
  congr 2
  omega

theorem third_word (base : U32) (b : BitVec 11) (k : BitVec 9) :
    (TableNode.second b).next base + BitVec.ofNat 32 (8 * k.toNat) =
      tableWord base (leafWord (b ++ k)) := by
  have hconst : (0x5000 : U32) = BitVec.ofNat 32 0x5000 := rfl
  have happ : (b ++ k).toNat = 2 ^ 9 * b.toNat + k.toNat := by
    rw [BitVec.toNat_append, Nat.shiftLeft_eq, Nat.mul_comm, ← Nat.two_pow_add_eq_or_of_lt k.isLt]
  rw [TableNode.next, tableWord, leafWord, happ, hconst]
  simp only [add_assoc, ← BitVec.ofNat_add]
  congr 2
  omega

/-! ## The walk of a table the memory holds -/

def Translation.ofEntry : Option U64 → Translation
  | none => .fault
  | some desc => if desc.getLsbD 0 = false then .fault else .page desc

theorem extract_first (ipa : U32) : ipa.extractLsb' 30 2 = (pageNo ipa).region := by
  apply BitVec.eq_of_getLsbD_eq
  intro i hi
  simp only [PageNo.region, pageNo, BitVec.getLsbD_extractLsb']
  grind

theorem extract_second (ipa : U32) :
    ipa.extractLsb' 30 2 ++ ipa.extractLsb' 21 9 = (pageNo ipa).block := by
  apply BitVec.eq_of_getLsbD_eq
  intro i hi
  simp only [PageNo.block, pageNo, BitVec.getLsbD_extractLsb', BitVec.getLsbD_append]
  grind

theorem extract_third (ipa : U32) :
    (pageNo ipa).block ++ ipa.extractLsb' 12 9 = pageNo ipa := by
  apply BitVec.eq_of_getLsbD_eq
  intro i hi
  simp only [PageNo.block, pageNo, BitVec.getLsbD_extractLsb', BitVec.getLsbD_append]
  grind

/-- The hardware walk of a table is the lookup in the radix table that the memory holds. -/
theorem HoldsTable.walk_eq {base : U32} (hbase : PageAligned base) {m : PhysMem}
    {s : RadixTable TableNode PageNo U64} (h : HoldsTable m base s) (ipa : U32) :
    walk m.bytes (physAddr base) ipa = .ofEntry (s.lookup nodePath (pageNo ipa)) := by
  have hfirst : ByteMemory.read64 m.bytes (entryAddr (physAddr base) (ipa.extractLsb' 30 2)) =
      nodeRaw base (.first (pageNo ipa).region) (s.live (.first (pageNo ipa).region)) := by
    rw [entryAddr_physAddr hbase (by omega), ← h.node, extract_first]
    rfl
  have hsecond (live : Bool) : ByteMemory.read64 m.bytes
      (entryAddr (nextTable (nodeRaw base (.first (pageNo ipa).region) live))
        (ipa.extractLsb' 21 9)) =
      nodeRaw base (.second (pageNo ipa).block) (s.live (.second (pageNo ipa).block)) := by
    rw [nextTable_nodeRaw hbase, entryAddr_physAddr (TableNode.pageAligned_next hbase _) (by omega),
      second_word, ← h.node, ← extract_first, extract_second]
    rfl
  have hthird (live : Bool) : ByteMemory.read64 m.bytes
      (entryAddr (nextTable (nodeRaw base (.second (pageNo ipa).block) live))
        (ipa.extractLsb' 12 9)) = s.entry (pageNo ipa) := by
    rw [nextTable_nodeRaw hbase, entryAddr_physAddr (TableNode.pageAligned_next hbase _) (by omega),
      third_word, extract_third, ← h.leaf]
    rfl
  rw [walk]
  simp only [hfirst, hsecond, hthird, getLsbD_nodeRaw_zero, getLsbD_nodeRaw_one]
  rw [RadixTable.lookup, nodePath]
  cases hl1 : s.live (.first (pageNo ipa).region) with
  | false => simp [hl1, Translation.ofEntry]
  | true =>
      cases hl2 : s.live (.second (pageNo ipa).block) with
      | false => simp [hl2, Translation.ofEntry]
      | true => simp [hl1, hl2, Translation.ofEntry]

end KHypervisor
