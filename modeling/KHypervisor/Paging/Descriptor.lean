import KHypervisor.Types

/-!
# Descriptors of the page tables

The union `lpae_t` reads one 64-bit word as a table or as a page descriptor. Each of the two
bitfield structures is a record of bit vectors whose widths add up to 64; `raw` packs the record
with its first field at bit 0 and `ofRaw` reads the fields of a word back.
-/

namespace KHypervisor

/-- `PAGE_SHIFT`, which `L3_SHIFT` is defined as. -/
def pageShift : ℕ := 12

/-- `ENTRY_SHIFT`. -/
def entryShift : ℕ := 9

/-- `L1_ENTRY`. -/
def l1Entry : ℕ := 4

/-- `L2_ENTRY`. -/
def l2Entry : ℕ := 512

namespace Lpae

/-- The member `table` of `union lpae_t`. -/
structure Table where
  valid : BitVec 1
  type : BitVec 1
  lowerIgnored : BitVec 10
  base : BitVec 28
  sbzp : BitVec 12
  upperIgnored : BitVec 7
  pxnTable : BitVec 1
  xnTable : BitVec 1
  apTable : BitVec 2
  nsTable : BitVec 1
deriving DecidableEq

/-- The member `page` of `union lpae_t`; `block` has the same layout. -/
structure Page where
  valid : BitVec 1
  type : BitVec 1
  memAttr : BitVec 4
  ap : BitVec 2
  sh : BitVec 2
  af : BitVec 1
  ng : BitVec 1
  base : BitVec 28
  sbzp : BitVec 12
  cb : BitVec 1
  pxn : BitVec 1
  xn : BitVec 1
  reserved : BitVec 4
  ignored : BitVec 5
deriving DecidableEq

def Table.raw (t : Table) : U64 :=
  t.nsTable ++ t.apTable ++ t.xnTable ++ t.pxnTable ++ t.upperIgnored ++ t.sbzp ++ t.base
    ++ t.lowerIgnored ++ t.type ++ t.valid

def Table.ofRaw (raw : U64) : Table where
  valid := raw.extractLsb' 0 1
  type := raw.extractLsb' 1 1
  lowerIgnored := raw.extractLsb' 2 10
  base := raw.extractLsb' 12 28
  sbzp := raw.extractLsb' 40 12
  upperIgnored := raw.extractLsb' 52 7
  pxnTable := raw.extractLsb' 59 1
  xnTable := raw.extractLsb' 60 1
  apTable := raw.extractLsb' 61 2
  nsTable := raw.extractLsb' 63 1

def Page.raw (p : Page) : U64 :=
  p.ignored ++ p.reserved ++ p.xn ++ p.pxn ++ p.cb ++ p.sbzp ++ p.base ++ p.ng ++ p.af ++ p.sh
    ++ p.ap ++ p.memAttr ++ p.type ++ p.valid

def Page.ofRaw (raw : U64) : Page where
  valid := raw.extractLsb' 0 1
  type := raw.extractLsb' 1 1
  memAttr := raw.extractLsb' 2 4
  ap := raw.extractLsb' 6 2
  sh := raw.extractLsb' 8 2
  af := raw.extractLsb' 10 1
  ng := raw.extractLsb' 11 1
  base := raw.extractLsb' 12 28
  sbzp := raw.extractLsb' 40 12
  cb := raw.extractLsb' 52 1
  pxn := raw.extractLsb' 53 1
  xn := raw.extractLsb' 54 1
  reserved := raw.extractLsb' 55 4
  ignored := raw.extractLsb' 59 5

@[simp] theorem Table.ofRaw_raw (t : Table) : Table.ofRaw t.raw = t := by
  obtain ⟨valid, type, lowerIgnored, base, sbzp, upperIgnored, pxnTable, xnTable, apTable,
    nsTable⟩ := t
  simp only [Table.ofRaw, Table.raw, Table.mk.injEq]
  refine ⟨?_, ?_, ?_, ?_, ?_, ?_, ?_, ?_, ?_, ?_⟩ <;>
  · apply BitVec.eq_of_getLsbD_eq
    intro i hi
    rw [BitVec.getLsbD_extractLsb']
    simp only [BitVec.getLsbD_append]
    grind

@[simp] theorem Page.ofRaw_raw (p : Page) : Page.ofRaw p.raw = p := by
  obtain ⟨valid, type, memAttr, ap, sh, af, ng, base, sbzp, cb, pxn, xn, reserved, ignored⟩ := p
  simp only [Page.ofRaw, Page.raw, Page.mk.injEq]
  refine ⟨?_, ?_, ?_, ?_, ?_, ?_, ?_, ?_, ?_, ?_, ?_, ?_, ?_, ?_⟩ <;>
  · apply BitVec.eq_of_getLsbD_eq
    intro i hi
    rw [BitVec.getLsbD_extractLsb']
    simp only [BitVec.getLsbD_append]
    grind

end Lpae

/-- `set_table`: a table descriptor that is not valid yet. -/
def setTable (pa : U32) : Lpae.Table where
  valid := 0
  type := 1
  lowerIgnored := 0
  base := (pa >>> pageShift).setWidth 28
  sbzp := 0
  upperIgnored := 0
  pxnTable := 0
  xnTable := 0
  apTable := 0
  nsTable := 0

/-- `set_entry`. The arguments are cut to the widths of the fields they are stored in. -/
def setEntry (pa : U32) (memAttr ap af : U8) : Lpae.Page where
  valid := 1
  type := 1
  memAttr := memAttr.setWidth 4
  ap := ap.setWidth 2
  sh := 3
  af := af.setWidth 1
  ng := 1
  base := (pa >>> pageShift).setWidth 28
  sbzp := 0
  cb := 0
  pxn := 0
  xn := 0
  reserved := 0
  ignored := 0

/-- `set_valid`. -/
def setValid : U64 := 1

end KHypervisor
