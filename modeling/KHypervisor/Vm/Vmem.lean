import KHypervisor.Arch.Registers
import KHypervisor.Paging.LastWriter

/-!
# The memory of a virtual machine

Every virtual machine has a page table of its own, at a multiple of the table size from the start
of a reserved range, and a register value that names both the table and the machine. `vmem_init`
maps the devices of the platform first and the memory of the machine last, so that the latter
decides wherever the two overlap (`vmemInit_dram`).
-/

namespace KHypervisor

/-- `struct memdesc_t`. An entry without a label ends a table of devices. -/
structure MemDesc where
  label : Option String
  ipa : U32
  pa : U32
  size : U32
  attr : U8
  af : U8
deriving Inhabited

/-- The fields of `struct vm_config` that the memory is set up from. -/
structure VmConfig where
  nrVcpus : U8
  vaOffsets : U32
  paStart : U32

/-- What a platform and its configuration fix: `__VM_PGTABLE`, the tables `vm_mmap` and
`vm_conf`, `CONFIG_VA_START`, and whether `CONFIG_OPTEE` is defined. -/
structure Platform where
  vmPgtable : U32
  vmMmap : VmId → List MemDesc
  vmConf : VmId → VmConfig
  vaStart : U32
  optee : Bool

/-- `struct vmem`. -/
structure Vmem where
  dram : MemDesc
  mmap : List MemDesc
  base : U32
  vtcr : U32
  actlr : U32
  vttbr : U64
deriving Inhabited

/-- `PGTABLE_SIZE`. -/
def pgtableSize : U32 := 0x805000

/-- `VTTBR_VMID_MASK`. -/
def vttbrVmidMask : U64 := 0x00FF000000000000

/-- `VTTBR_VMID_SHIFT`. -/
def vttbrVmidShift : ℕ := 48

/-- `VTTBR_BADDR_MASK`. -/
def vttbrBaddrMask : U64 := 0x000000FFFFFFFFFF

/-- `MEMATTR_NORMAL_WB_CACHEABLE`. -/
def memattrNormalWbCacheable : U8 := 0xF

def tableBase (p : Platform) (vmid : VmId) : U32 := p.vmPgtable + pgtableSize * BitVec.ofNat 32 vmid

/-- The value of `VTTBR` for a virtual machine whose table is at `base`. -/
def vttbrOf (vmid : VmId) (base : U32) : U64 :=
  let vttbr := BitVec.ofNat 64 vmid <<< vttbrVmidShift &&& vttbrVmidMask
  let vttbr := vttbr &&& ~~~vttbrBaddrMask
  vttbr ||| (base.setWidth 64 &&& vttbrBaddrMask)

/-- `vmem_create`. -/
def vmemCreate (p : Platform) (vmem : Vmem) (vmid : VmId) (m : PhysMem) : Vmem × PhysMem :=
  ({ vmem with
      base := tableBase p vmid
      vttbr := vttbrOf vmid (tableBase p vmid)
      mmap := p.vmMmap vmid
      dram := { vmem.dram with
        pa := (p.vmConf vmid).paStart
        ipa := p.vaStart
        size := (p.vmConf vmid).vaOffsets } },
    pagingCreate (tableBase p vmid) m)

/-- The loop of `vmem_init`. `none` is a mapping that never ends, or a table without an end. -/
def mapDevices (base : U32) : List MemDesc → PhysMem → Option PhysMem
  | [], _ => none
  | d :: ds, m =>
      match d.label with
      | none => some m
      | some _ =>
          (pagingAddIpaMapping base d.ipa d.pa d.attr d.af d.size m).bind (mapDevices base ds)

/-- `vmem_init`. -/
def vmemInit (p : Platform) (vmem : Vmem) (vmid : VmId) (m : PhysMem) (hw : Registers) :
    Option (Vmem × PhysMem × Registers) := do
  let m ← mapDevices vmem.base vmem.mmap m
  let m ←
    if p.optee then
      pagingAddIpaMapping vmem.base (p.vmConf vmid).paStart (p.vmConf vmid).paStart
        memattrNormalWbCacheable 1 (p.vmConf vmid).vaOffsets m
    else
      pagingAddIpaMapping vmem.base vmem.dram.ipa vmem.dram.pa memattrNormalWbCacheable 1
        vmem.dram.size m
  let actlr := hw.readCp32 .actlr
  let actlr := if 1 < (p.vmConf vmid).nrVcpus then actlr ||| (1 <<< 6) else actlr
  let vtcr := (1 <<< 6) ||| (1 <<< 10) ||| (1 <<< 8)
  some ({ vmem with actlr := actlr, vtcr := vtcr }, m, hw.writeCp32 vtcr .vtcr)

/-- `vmem_save`. -/
def vmemSave (hw : Registers) : Registers := hw.writeCp32 (hw.readCp32 .hcr &&& ~~~hcrBitVm) .hcr

/-- `vmem_restore`. -/
def vmemRestore (vmem : Vmem) (hw : Registers) : Registers :=
  let hw := hw.writeCp32 vmem.vtcr .vtcr
  let hw := hw.writeCp32 vmem.actlr .actlr
  let hw := hw.writeCp64 vmem.vttbr .vttbr
  hw.writeCp32 (hw.readCp32 .hcr ||| hcrBitVm) .hcr

/-! ## The mappings that are made -/

def MemDesc.call (d : MemDesc) : MapCall := ⟨d.ipa, d.pa, d.attr, d.af, d.size⟩

def labelled (ds : List MemDesc) : List MemDesc := ds.takeWhile fun d => d.label.isSome

def Platform.dramCall (p : Platform) (vmid : VmId) : MapCall where
  ipa := if p.optee then (p.vmConf vmid).paStart else p.vaStart
  pa := (p.vmConf vmid).paStart
  memAttr := memattrNormalWbCacheable
  af := 1
  size := (p.vmConf vmid).vaOffsets

/-- The calls that `vmem_init` makes. -/
def Platform.calls (p : Platform) (vmid : VmId) : List MapCall :=
  (labelled (p.vmMmap vmid)).map MemDesc.call ++ [p.dramCall vmid]

open Run

theorem mapDevices_eq (base : U32) {ds : List MemDesc} (hend : ∃ d ∈ ds, d.label = none)
    (m : PhysMem) :
    mapDevices base ds m = mapCalls base m ((labelled ds).map MemDesc.call) := by
  induction ds generalizing m with
  | nil => simp at hend
  | cons d ds ih =>
      cases hlabel : d.label with
      | none =>
          have hlast : labelled (d :: ds) = [] := by simp [labelled, hlabel]
          rw [mapDevices, hlabel, hlast]
          rfl
      | some l =>
          have hnext : labelled (d :: ds) = d :: labelled ds := by simp [labelled, hlabel]
          have htail : ∃ d ∈ ds, d.label = none := by simpa [hlabel] using hend
          rw [mapDevices, hlabel, hnext, List.map_cons, mapCalls, run_cons]
          exact congrArg (Option.bind _) (funext (ih htail))

theorem vmemCreate_mem (p : Platform) (vmem : Vmem) (vmid : VmId) (m : PhysMem) :
    (vmemCreate p vmem vmid m).2 = pagingCreate (tableBase p vmid) m := by
  rw [vmemCreate]

/-- `vmem_init` of a memory that `vmem_create` made maps the devices and then the machine's
memory. -/
theorem vmemInit_eq (p : Platform) (vmem : Vmem) (vmid : VmId)
    (hend : ∃ d ∈ p.vmMmap vmid, d.label = none) (m m' : PhysMem) (hw : Registers) :
    (vmemInit p (vmemCreate p vmem vmid m).1 vmid m' hw).map (fun r => r.2.1) =
      mapCalls (tableBase p vmid) m' (p.calls vmid) := by
  have hdevices : mapDevices (tableBase p vmid) (p.vmMmap vmid) m' =
      mapCalls (tableBase p vmid) m' ((labelled (p.vmMmap vmid)).map MemDesc.call) :=
    mapDevices_eq _ hend m'
  rw [mapCalls, Platform.calls, run_concat, vmemInit, vmemCreate]
  dsimp only
  rw [hdevices, mapCalls]
  cases hrun : run (MapCall.apply (tableBase p vmid)) m'
      ((labelled (p.vmMmap vmid)).map MemDesc.call) with
  | none => rfl
  | some u =>
      cases hoptee : p.optee with
      | true => simp [MapCall.apply, Platform.dramCall, hoptee, Option.map_bind]
      | false => simp [MapCall.apply, Platform.dramCall, hoptee, Option.map_bind]

theorem pageAligned_tableBase {p : Platform} (hp : PageAligned p.vmPgtable) (vmid : VmId) :
    PageAligned (tableBase p vmid) := by
  have hplace : pgtableSize * BitVec.ofNat 32 vmid = BitVec.ofNat 32 (0x1000 * (0x805 * vmid)) := by
    have hnat : ∀ n : ℕ, 0x1000 * (0x805 * n) = 0x805000 * n := by omega
    rw [hnat]
    exact BitVec.ofNat_mul_ofNat 0x805000 vmid
  rw [tableBase, hplace]
  exact hp.add (pageAligned_ofNat _)

/-- The memory of a machine is mapped last, so that it decides over all the devices. -/
theorem vmemInit_dram {p : Platform} (hp : PageAligned p.vmPgtable) (vmem : Vmem) (vmid : VmId)
    (hend : ∃ d ∈ p.vmMmap vmid, d.label = none) (hwf : ∀ c ∈ p.calls vmid, c.WellFormed)
    (m : PhysMem) (hw : Registers) :
    ∃ r, vmemInit p (vmemCreate p vmem vmid m).1 vmid (vmemCreate p vmem vmid m).2 hw = some r ∧
      ∀ ipa, (p.dramCall vmid).Covers (pageNo ipa) →
        TranslatesBy r.2.1.bytes (physAddr (tableBase p vmid)) ipa (p.dramCall vmid) := by
  have hbase := pageAligned_tableBase hp vmid
  have hinit := vmemInit_eq p vmem vmid hend m (pagingCreate (tableBase p vmid) m) hw
  obtain ⟨m', hm', -⟩ := walk_mapCalls hbase m fun c hc => (hwf c hc).size_le_loop
  rw [hm', Option.map_eq_some_iff] at hinit
  obtain ⟨r, hr, hmem⟩ := hinit
  rw [vmemCreate_mem]
  refine ⟨r, hr, fun ipa hcov => ?_⟩
  obtain ⟨m'', hm'', htranslates⟩ := translatesBy_last hbase m
    ((labelled (p.vmMmap vmid)).map MemDesc.call) (p.dramCall vmid) [] hwf hcov
    fun c hc => absurd hc List.not_mem_nil
  obtain rfl : m' = m'' := Option.some_injective _ (hm'.symm.trans hm'')
  rw [hmem]
  exact htranslates

end KHypervisor
