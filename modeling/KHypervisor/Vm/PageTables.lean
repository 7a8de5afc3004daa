import KHypervisor.Paging.Footprint
import KHypervisor.Vm.Vmem

/-!
# The page tables of the virtual machines

What the tables are for. A table is a map of pages in which the last call decides, as far as the
words it was created over allow; and the tables of two machines share no word, so that nothing
done to the one shows in the other.
-/

namespace KHypervisor

open Run

/-! ## The last call decides -/

/-- After any sequence of calls the table is the map that remembers the last call for every page,
provided the neighbours that the calls make reachable were invalid descriptors to begin with, and
only then. The memory of a machine, which `vmem_init` maps last, is translated in any case. -/
theorem pageTable_lastWriter {base : U32} (hbase : PageAligned base) (m : PhysMem)
    {calls : List MapCall} (hwf : ∀ c ∈ calls, c.WellFormed) :
    (LastWriterWins base m calls ↔ NeighboursInvalid base m calls) ∧
      ∀ (p : Platform) (vmem : Vmem) (vmid : VmId) (m₀ : PhysMem) (hw : Registers),
        PageAligned p.vmPgtable → (∃ d ∈ p.vmMmap vmid, d.label = none) →
        (∀ c ∈ p.calls vmid, c.WellFormed) →
        ∃ r, vmemInit p (vmemCreate p vmem vmid m₀).1 vmid (vmemCreate p vmem vmid m₀).2 hw =
            some r ∧
          ∀ ipa, (p.dramCall vmid).Covers (pageNo ipa) →
            TranslatesBy r.2.1.bytes (physAddr (tableBase p vmid)) ipa (p.dramCall vmid) :=
  ⟨lastWriterWins_iff_neighboursInvalid hbase m hwf, fun _ vmem vmid m₀ hw hp hend hcalls =>
    vmemInit_dram hp vmem vmid hend hcalls m₀ hw⟩

theorem onePage_wellFormed : ∀ c ∈ [onePage], c.WellFormed := by
  intro c hc
  rw [List.mem_singleton.mp hc]
  exact ⟨by decide, by decide, by decide, by decide, by decide, by decide, by decide, by decide⟩

/-- Memory at `0x90000000` for one machine, and no devices. -/
def plainPlatform : Platform where
  vmPgtable := 0xA0000000
  vmMmap _ := [⟨none, 0, 0, 0, 0, 0⟩]
  vmConf _ := ⟨1, 0x10000000, 0x90000000⟩
  vaStart := 0x80000000
  optee := false

theorem plainPlatform_wellFormed : ∀ c ∈ plainPlatform.calls 0, c.WellFormed := by
  intro c hc
  rw [List.mem_singleton.mp hc]
  exact ⟨by decide, by decide, by decide, by decide, by decide, by decide, by decide, by decide⟩

theorem pageTable_lastWriter_onePage :
    (LastWriterWins 0x80000000 onesMem [onePage] ↔
        NeighboursInvalid 0x80000000 onesMem [onePage]) ∧
      ∃ r, vmemInit plainPlatform (vmemCreate plainPlatform default 0 onesMem).1 0
            (vmemCreate plainPlatform default 0 onesMem).2 default =
          some r ∧
        ∀ ipa, (plainPlatform.dramCall 0).Covers (pageNo ipa) →
          TranslatesBy r.2.1.bytes (physAddr (tableBase plainPlatform 0)) ipa
            (plainPlatform.dramCall 0) := by
  have hbase : PageAligned 0x80000000 := by decide
  obtain ⟨hiff, hinit⟩ := pageTable_lastWriter hbase onesMem onePage_wellFormed
  exact ⟨hiff, hinit plainPlatform default 0 onesMem default
    (by decide) ⟨_, List.mem_singleton_self _, rfl⟩ plainPlatform_wellFormed⟩

/-- Mapping the page at zero over a memory full of ones changes the translation of the page after
it. -/
theorem mapping_changes_neighbour :
    ¬ ∀ (base : U32) (m : PhysMem) (calls : List MapCall), PageAligned base →
      (∀ c ∈ calls, c.WellFormed) → LastWriterWins base m calls := by
  intro h
  have hbase : PageAligned 0x80000000 := by decide
  have hinvalid := (lastWriterWins_iff_neighboursInvalid hbase onesMem onePage_wellFormed).mp
    (h 0x80000000 onesMem [onePage] hbase onePage_wellFormed)
  have hnot : ¬ onePage.Covers 1 := by
    rw [onePage_covers]
    decide
  have htouch : Touches [onePage] (1 : PageNo).block :=
    ⟨onePage, List.mem_singleton_self _, 0, onePage_covers.mpr rfl, by decide⟩
  have hfresh : ¬ Touches [] (1 : PageNo).block := by
    rintro ⟨c, hc, -⟩
    exact absurd hc List.not_mem_nil
  have hword := hinvalid [] onePage [] rfl 1 hnot htouch hfresh
  rw [leafWords_onesMem] at hword
  exact Bool.noConfusion hword

/-! ## Tables of different machines -/

theorem vttbrOf_baddr (vmid : VmId) (base : U32) :
    (vttbrOf vmid base).extractLsb' 0 40 = physAddr base := by
  have hmask : vttbrBaddrMask = (BitVec.allOnes 40).setWidth 64 := by decide
  apply BitVec.eq_of_getLsbD_eq
  intro i hi
  rw [vttbrOf, hmask, physAddr]
  simp only [BitVec.getLsbD_extractLsb', BitVec.getLsbD_or, BitVec.getLsbD_and,
    BitVec.getLsbD_not, BitVec.getLsbD_setWidth, BitVec.getLsbD_allOnes]
  grind

theorem vttbrOf_vmid (vmid : VmId) (base : U32) :
    (vttbrOf vmid base).extractLsb' 48 8 = BitVec.ofNat 8 vmid := by
  have hbaddr : vttbrBaddrMask = (BitVec.allOnes 40).setWidth 64 := by decide
  have hvmid : vttbrVmidMask = (BitVec.allOnes 8).setWidth 64 <<< 48 := by decide
  apply BitVec.eq_of_getLsbD_eq
  intro i hi
  rw [vttbrOf, hbaddr, hvmid, vttbrVmidShift]
  simp only [BitVec.getLsbD_extractLsb', BitVec.getLsbD_or, BitVec.getLsbD_and,
    BitVec.getLsbD_not, BitVec.getLsbD_setWidth, BitVec.getLsbD_allOnes, BitVec.getLsbD_shiftLeft,
    BitVec.getLsbD_ofNat]
  grind

theorem tables_disjoint {p : Platform} {v v' : ℕ} (hv : v < 256) (hv' : v' < 256)
    (hne : v ≠ v') {a : U32} (h : InTable (tableBase p v) a) : ¬ InTable (tableBase p v') a := by
  have hstart := p.vmPgtable.isLt
  -- Below 256 machines the address wraps at most once.
  have hplace : ∀ n : ℕ, n < 256 → (tableBase p n).toNat = p.vmPgtable.toNat + 0x805000 * n ∨
      (tableBase p n).toNat + 2 ^ 32 = p.vmPgtable.toNat + 0x805000 * n := by
    intro n hn
    have hsize : pgtableSize.toNat = 0x805000 := rfl
    rw [tableBase, BitVec.toNat_add, BitVec.toNat_mul, hsize, BitVec.toNat_ofNat]
    omega
  rintro ⟨hlow', hhigh'⟩
  obtain ⟨hlow, hhigh⟩ := h
  rcases hplace v hv with hbase | hbase <;> rcases hplace v' hv' with hbase' | hbase' <;> omega

theorem vmemCreate_base (p : Platform) (vmem : Vmem) (vmid : VmId) (m : PhysMem) :
    (vmemCreate p vmem vmid m).1.base = tableBase p vmid := by
  rw [vmemCreate]

theorem vmemCreate_vttbr (p : Platform) (vmem : Vmem) (vmid : VmId) (m : PhysMem) :
    (vmemCreate p vmem vmid m).1.vttbr = vttbrOf vmid (tableBase p vmid) := by
  rw [vmemCreate]

/-- The stores of every operation on a table are aligned words of its range, its entries are
different words, and the tables that two machines are given are apart: no sequence of operations
on the one changes a word of the other, and their `VTTBR` values differ in the machine they name
and each name its own table. -/
theorem pageTable_footprint {p : Platform} (hp : PageAligned p.vmPgtable) :
    (∀ (base : U32), PageAligned base → base.toNat + 0x805000 ≤ 2 ^ 32 →
      (∀ (bytes : ByteMemory.Memory 40),
        (∀ a ∈ (pagingCreate base ⟨bytes, []⟩).stores, WordAligned a ∧ InTable base a) ∧
          ∀ va pa memAttr ap af,
            ∀ a ∈ (writePgentry base va pa memAttr ap af ⟨bytes, []⟩).stores,
              WordAligned a ∧ InTable base a) ∧
        Function.Injective (TableEntry.addr base)) ∧
    ∀ (v v' : VmId) (x x' : Vmem) (m₀ m₀' : PhysMem) (vmem vmem' : Vmem),
      v < 256 → v' < 256 → v ≠ v' →
      (vmemCreate p x v m₀).1 = vmem → (vmemCreate p x' v' m₀').1 = vmem' →
      vmem.base.toNat + 0x805000 ≤ 2 ^ 32 → vmem'.base.toNat + 0x805000 ≤ 2 ^ 32 →
      (∀ (ops : List TableOp) (m m' : PhysMem), run (TableOp.apply vmem.base) m ops = some m' →
        ∀ a, WordAligned a → InTable vmem'.base a → read64 a m' = read64 a m) ∧
        vmem.vttbr.extractLsb' 48 8 ≠ vmem'.vttbr.extractLsb' 48 8 ∧
        vmem.vttbr.extractLsb' 0 40 = physAddr vmem.base ∧
        vmem'.vttbr.extractLsb' 0 40 = physAddr vmem'.base := by
  constructor
  · intro base hbase hend
    have hword : ∀ a, IsTableWord base a → WordAligned a ∧ InTable base a := fun a ha =>
      ⟨ha.wordAligned hbase, ha.inTable hend⟩
    refine ⟨fun bytes => ⟨fun a ha => ?_, fun va pa memAttr ap af a ha => ?_⟩,
      TableEntry.addr_injective base⟩
    · exact hword a ((writesOnly_pagingCreate base _).mem_of_nil rfl ha)
    · exact hword a ((writesOnly_writePgentry base va pa memAttr ap af _).mem_of_nil rfl ha)
  · rintro v v' x x' m₀ m₀' vmem vmem' hv hv' hne rfl rfl hend hend'
    simp only [vmemCreate_base, vmemCreate_vttbr, vttbrOf_baddr, vttbrOf_vmid, and_self,
      and_true] at hend hend' ⊢
    refine ⟨fun ops m m' hrun a halign ha => ?_, ?_⟩
    · refine (TableOp.writesOnly_run hrun).read64_eq
        (fun b hb => hb.wordAligned (pageAligned_tableBase hp v)) halign fun hmem => ?_
      exact tables_disjoint hv hv' hne (hmem.inTable hend) ha
    · intro heq
      have hnat := congrArg BitVec.toNat heq
      rw [BitVec.toNat_ofNat, BitVec.toNat_ofNat, Nat.mod_eq_of_lt hv, Nat.mod_eq_of_lt hv'] at hnat
      exact hne hnat

theorem pageTable_footprint_plain :
    Function.Injective (TableEntry.addr 0x80000000) ∧
      (vmemCreate plainPlatform default 0 onesMem).1.vttbr.extractLsb' 48 8 ≠
        (vmemCreate plainPlatform default 1 onesMem).1.vttbr.extractLsb' 48 8 := by
  obtain ⟨htable, hmachines⟩ := @pageTable_footprint plainPlatform (by decide)
  refine ⟨(htable 0x80000000 (by decide) (by decide)).2, ?_⟩
  exact (hmachines 0 1 default default onesMem onesMem _ _ (by decide) (by decide) (by decide)
    rfl rfl (by rw [vmemCreate_base]; decide) (by rw [vmemCreate_base]; decide)).2.1

end KHypervisor
