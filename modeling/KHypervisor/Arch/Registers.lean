import KHypervisor.Lib.Stores
import KHypervisor.Types

/-!
# Registers of the processor

The coprocessor registers are addressed as `mcr` and `mrc` address them, by the numbers that
`cp15.h` defines their names as; the banked registers by name. Saving and restoring go through
two lists for each of the two structures, one of reads and one of writes, kept apart as they are
in the source. That they agree is `restoreCp15_saveCp15` and `restoreBankedRegs_saveBankedRegs`.
-/

namespace KHypervisor

/-- The operands of a 32-bit coprocessor access: coprocessor, CRn, opc1, CRm and opc2. -/
structure Cp32 where
  coproc : ℕ
  crn : ℕ
  opc1 : ℕ
  crm : ℕ
  opc2 : ℕ
deriving DecidableEq

/-- The operands of a 64-bit coprocessor access: coprocessor, opc1 and CRm. -/
structure Cp64 where
  coproc : ℕ
  opc1 : ℕ
  crm : ℕ
deriving DecidableEq

namespace Cp32

/-- `CP32`, which leaves out the coprocessor. -/
def code (r : Cp32) : U32 :=
  BitVec.ofNat 32 r.crn <<< 12 ||| BitVec.ofNat 32 r.opc1 <<< 8 ||| BitVec.ofNat 32 r.crm <<< 4 |||
    BitVec.ofNat 32 r.opc2

def midr : Cp32 := ⟨15, 0, 0, 0, 0⟩

def csselr : Cp32 := ⟨15, 0, 2, 0, 0⟩

def vmpidr : Cp32 := ⟨15, 0, 4, 0, 5⟩

def sctlr : Cp32 := ⟨15, 1, 0, 0, 0⟩

def actlr : Cp32 := ⟨15, 1, 0, 0, 1⟩

def cpacr : Cp32 := ⟨15, 1, 0, 0, 2⟩

def hcr : Cp32 := ⟨15, 1, 4, 1, 0⟩

/-- `TTBR0_32`. -/
def ttbr0 : Cp32 := ⟨15, 2, 0, 0, 0⟩

/-- `TTBR1_32`. -/
def ttbr1 : Cp32 := ⟨15, 2, 0, 0, 1⟩

def ttbcr : Cp32 := ⟨15, 2, 0, 0, 2⟩

def vtcr : Cp32 := ⟨15, 2, 4, 1, 2⟩

def dacr : Cp32 := ⟨15, 3, 0, 0, 0⟩

def dfsr : Cp32 := ⟨15, 5, 0, 0, 0⟩

def ifsr : Cp32 := ⟨15, 5, 0, 0, 1⟩

def adfsr : Cp32 := ⟨15, 5, 0, 1, 0⟩

def aifsr : Cp32 := ⟨15, 5, 0, 1, 1⟩

def dfar : Cp32 := ⟨15, 6, 0, 0, 0⟩

def ifar : Cp32 := ⟨15, 6, 0, 0, 2⟩

def hdfar : Cp32 := ⟨15, 6, 4, 0, 0⟩

def hpfar : Cp32 := ⟨15, 6, 4, 0, 4⟩

/-- `PAR_32`. -/
def par : Cp32 := ⟨15, 7, 0, 4, 0⟩

def dcisw : Cp32 := ⟨15, 7, 0, 6, 2⟩

def dccsw : Cp32 := ⟨15, 7, 0, 10, 2⟩

def dccisw : Cp32 := ⟨15, 7, 0, 14, 2⟩

def mair0 : Cp32 := ⟨15, 10, 0, 2, 0⟩

def mair1 : Cp32 := ⟨15, 10, 0, 2, 1⟩

def amair0 : Cp32 := ⟨15, 10, 0, 3, 0⟩

def amair1 : Cp32 := ⟨15, 10, 0, 3, 1⟩

def vbar : Cp32 := ⟨15, 12, 0, 0, 0⟩

def contextidr : Cp32 := ⟨15, 13, 0, 0, 1⟩

def tpidrurw : Cp32 := ⟨15, 13, 0, 0, 2⟩

def tpidruro : Cp32 := ⟨15, 13, 0, 0, 3⟩

def tpidrprw : Cp32 := ⟨15, 13, 0, 0, 4⟩

def cntfrq : Cp32 := ⟨15, 14, 0, 0, 0⟩

def cntkctl : Cp32 := ⟨15, 14, 0, 1, 0⟩

/-- `CNTP_TVAL`. -/
def cntpTval : Cp32 := ⟨15, 14, 0, 2, 0⟩

/-- `CNTP_CTL`. -/
def cntpCtl : Cp32 := ⟨15, 14, 0, 2, 1⟩

/-- `CNTV_TVAL`. -/
def cntvTval : Cp32 := ⟨15, 14, 0, 3, 0⟩

/-- `CNTV_CTL`. -/
def cntvCtl : Cp32 := ⟨15, 14, 0, 3, 1⟩

end Cp32

namespace Cp64

/-- `CP64`, which leaves out the coprocessor. -/
def code (r : Cp64) : U32 := BitVec.ofNat 32 r.opc1 <<< 8 ||| BitVec.ofNat 32 r.crm <<< 4

def cntpct : Cp64 := ⟨15, 0, 14⟩

def cntvct : Cp64 := ⟨15, 1, 14⟩

/-- `CNTP_CVAL`. -/
def cntpCval : Cp64 := ⟨15, 2, 14⟩

/-- `CNTV_CVAL`. -/
def cntvCval : Cp64 := ⟨15, 3, 14⟩

def vttbr : Cp64 := ⟨15, 6, 2⟩

end Cp64

/-- `HCR_BIT(VM)`. -/
def hcrBitVm : U32 := 1 <<< 0

/-- The banked registers that `struct banked_regs` has a field for. -/
inductive BankedReg
  | spUsr
  | spsrSvc | spSvc | lrSvc
  | spsrAbt | spAbt | lrAbt
  | spsrUnd | spUnd | lrUnd
  | spsrIrq | spIrq | lrIrq
  | spsrFiq | lrFiq | r8Fiq | r9Fiq | r10Fiq | r11Fiq | r12Fiq
deriving DecidableEq

structure Registers where
  cp32 : Cp32 → U32
  cp64 : Cp64 → U64
  banked : BankedReg → U32
deriving Inhabited

namespace Registers

/-- `read_cp32`. -/
def readCp32 (r : Cp32) (hw : Registers) : U32 := hw.cp32 r

/-- `write_cp32`. -/
def writeCp32 (v : U32) (r : Cp32) (hw : Registers) : Registers :=
  { hw with cp32 := Function.update hw.cp32 r v }

/-- `write_cp64`. -/
def writeCp64 (v : U64) (r : Cp64) (hw : Registers) : Registers :=
  { hw with cp64 := Function.update hw.cp64 r v }

/-- `mrs` of a banked register. -/
def mrs (r : BankedReg) (hw : Registers) : U32 := hw.banked r

/-- `msr` to a banked register. -/
def msr (r : BankedReg) (v : U32) (hw : Registers) : Registers :=
  { hw with banked := Function.update hw.banked r v }

@[simp] theorem writeCp32_cp64 (v : U32) (r : Cp32) (hw : Registers) :
    (hw.writeCp32 v r).cp64 = hw.cp64 := rfl

@[simp] theorem writeCp32_banked (v : U32) (r : Cp32) (hw : Registers) :
    (hw.writeCp32 v r).banked = hw.banked := rfl

@[simp] theorem msr_cp32 (r : BankedReg) (v : U32) (hw : Registers) :
    (hw.msr r v).cp32 = hw.cp32 := rfl

@[simp] theorem msr_cp64 (r : BankedReg) (v : U32) (hw : Registers) :
    (hw.msr r v).cp64 = hw.cp64 := rfl

end Registers

open Registers Stores

/-! ## Saving and restoring -/

/-- The number of registers of a frame is positive: what a literal names a register by. -/
instance neZero_nrGpr : NeZero 13 := ⟨by decide⟩

/-- `struct core_regs`, the frame that a trap leaves the guest's registers in. -/
@[ext]
structure CoreRegs where
  cpsr : U32
  pc : U32
  lr : U32
  gpr : Fin 13 → U32
deriving Inhabited

/-- `struct cp15`. -/
structure Cp15 where
  vbar : U32
  ttbr0 : U32
  ttbr1 : U32
  ttbcr : U32
  sctlr : U32
  vmpidr : U32
  csselr : U32
  cpacr : U32
  contextidr : U32
  tpidrurw : U32
  tpidruro : U32
  tpidrprw : U32
  cntkctl : U32
  dacr : U32
  par : U32
  mair0 : U32
  mair1 : U32
  amair0 : U32
  amair1 : U32
  dfar : U32
  ifar : U32
  dfsr : U32
  ifsr : U32
  adfsr : U32
  aifsr : U32
deriving Inhabited

/-- `struct banked_regs`. -/
structure BankedRegs where
  spUsr : U32
  spsrSvc : U32
  spSvc : U32
  lrSvc : U32
  spsrAbt : U32
  spAbt : U32
  lrAbt : U32
  spsrUnd : U32
  spUnd : U32
  lrUnd : U32
  spsrIrq : U32
  spIrq : U32
  lrIrq : U32
  spsrFiq : U32
  lrFiq : U32
  r8Fiq : U32
  r9Fiq : U32
  r10Fiq : U32
  r11Fiq : U32
  r12Fiq : U32
deriving Inhabited

/-- `struct arch_regs`. -/
structure ArchRegs where
  coreRegs : CoreRegs
  cp15 : Cp15
  bankedRegs : BankedRegs
deriving Inhabited

/-- `save_cp15`. -/
def saveCp15 (hw : Registers) : Cp15 where
  vbar := hw.readCp32 .vbar
  ttbr0 := hw.readCp32 .ttbr0
  ttbr1 := hw.readCp32 .ttbr1
  ttbcr := hw.readCp32 .ttbcr
  sctlr := hw.readCp32 .sctlr
  vmpidr := hw.readCp32 .vmpidr
  csselr := hw.readCp32 .csselr
  cpacr := hw.readCp32 .cpacr
  contextidr := hw.readCp32 .contextidr
  tpidrurw := hw.readCp32 .tpidrurw
  tpidruro := hw.readCp32 .tpidruro
  tpidrprw := hw.readCp32 .tpidrprw
  cntkctl := hw.readCp32 .cntkctl
  dacr := hw.readCp32 .dacr
  par := hw.readCp32 .par
  mair0 := hw.readCp32 .mair0
  mair1 := hw.readCp32 .mair1
  amair0 := hw.readCp32 .amair0
  amair1 := hw.readCp32 .amair1
  dfar := hw.readCp32 .dfar
  ifar := hw.readCp32 .ifar
  dfsr := hw.readCp32 .dfsr
  ifsr := hw.readCp32 .ifsr
  adfsr := hw.readCp32 .adfsr
  aifsr := hw.readCp32 .aifsr

/-- The writes of `restore_cp15` in their order. -/
def cp15Writes (cp15 : Cp15) : List (Cp32 × U32) :=
  [(.vbar, cp15.vbar), (.ttbr0, cp15.ttbr0), (.ttbr1, cp15.ttbr1), (.ttbcr, cp15.ttbcr),
    (.sctlr, cp15.sctlr), (.vmpidr, cp15.vmpidr), (.csselr, cp15.csselr), (.cpacr, cp15.cpacr),
    (.contextidr, cp15.contextidr), (.tpidrurw, cp15.tpidrurw), (.tpidruro, cp15.tpidruro),
    (.tpidrprw, cp15.tpidrprw), (.cntkctl, cp15.cntkctl), (.dacr, cp15.dacr), (.par, cp15.par),
    (.mair0, cp15.mair0), (.mair1, cp15.mair1), (.amair0, cp15.amair0), (.amair1, cp15.amair1),
    (.dfar, cp15.dfar), (.ifar, cp15.ifar), (.dfsr, cp15.dfsr), (.ifsr, cp15.ifsr),
    (.adfsr, cp15.adfsr), (.aifsr, cp15.aifsr)]

/-- `restore_cp15`. -/
def restoreCp15 (cp15 : Cp15) (hw : Registers) : Registers :=
  (cp15Writes cp15).foldl (fun hw w => hw.writeCp32 w.2 w.1) hw

/-- `save_banked_regs`. -/
def saveBankedRegs (hw : Registers) : BankedRegs where
  spUsr := hw.mrs .spUsr
  spsrSvc := hw.mrs .spsrSvc
  spSvc := hw.mrs .spSvc
  lrSvc := hw.mrs .lrSvc
  spsrAbt := hw.mrs .spsrAbt
  spAbt := hw.mrs .spAbt
  lrAbt := hw.mrs .lrAbt
  spsrUnd := hw.mrs .spsrUnd
  spUnd := hw.mrs .spUnd
  lrUnd := hw.mrs .lrUnd
  spsrIrq := hw.mrs .spsrIrq
  spIrq := hw.mrs .spIrq
  lrIrq := hw.mrs .lrIrq
  spsrFiq := hw.mrs .spsrFiq
  lrFiq := hw.mrs .lrFiq
  r8Fiq := hw.mrs .r8Fiq
  r9Fiq := hw.mrs .r9Fiq
  r10Fiq := hw.mrs .r10Fiq
  r11Fiq := hw.mrs .r11Fiq
  r12Fiq := hw.mrs .r12Fiq

/-- The writes of `restore_banked_regs` in their order. -/
def bankedWrites (regs : BankedRegs) : List (BankedReg × U32) :=
  [(.spUsr, regs.spUsr), (.spsrSvc, regs.spsrSvc), (.spSvc, regs.spSvc), (.lrSvc, regs.lrSvc),
    (.spsrAbt, regs.spsrAbt), (.spAbt, regs.spAbt), (.lrAbt, regs.lrAbt),
    (.spsrUnd, regs.spsrUnd), (.spUnd, regs.spUnd), (.lrUnd, regs.lrUnd),
    (.spsrIrq, regs.spsrIrq), (.spIrq, regs.spIrq), (.lrIrq, regs.lrIrq),
    (.spsrFiq, regs.spsrFiq), (.lrFiq, regs.lrFiq), (.r8Fiq, regs.r8Fiq), (.r9Fiq, regs.r9Fiq),
    (.r10Fiq, regs.r10Fiq), (.r11Fiq, regs.r11Fiq), (.r12Fiq, regs.r12Fiq)]

/-- `restore_banked_regs`. -/
def restoreBankedRegs (regs : BankedRegs) (hw : Registers) : Registers :=
  (bankedWrites regs).foldl (fun hw w => hw.msr w.1 w.2) hw

/-- `arch_regs_save` for a trap frame `current_regs` that may be `NULL`. -/
def archRegsSave (regs : ArchRegs) (currentRegs : Option CoreRegs) (hw : Registers) : ArchRegs :=
  match currentRegs with
  | none => regs
  | some frame => ⟨frame, saveCp15 hw, saveBankedRegs hw⟩

/-- `arch_regs_restore`, with the registers and the trap frame after it. Without a frame the
processor leaves for the guest at the entry point of `core_regs`, and the function does not
return. -/
def archRegsRestore (regs : ArchRegs) (currentRegs : Option CoreRegs) (hw : Registers) :
    Registers × Option CoreRegs :=
  match currentRegs with
  | none => (restoreCp15 regs.cp15 hw, none)
  | some _ => (restoreBankedRegs regs.bankedRegs (restoreCp15 regs.cp15 hw), some regs.coreRegs)

/-- What a guest is started with: `MACHINE_TYPE`, `CFG_GUEST_ATAGS_START_ADDRESS` and
`CFG_GUEST_START_ADDRESS`. -/
structure GuestConf where
  machineType : U32
  atagsStartAddress : U32
  startAddress : U32
deriving Inhabited

/-- `init_core_regs`. -/
def initCoreRegs (guest : GuestConf) : CoreRegs where
  cpsr := (1 <<< 8 ||| 1 <<< 7 ||| 1 <<< 6) ||| 0b10011
  pc := guest.startAddress
  lr := 0
  gpr i := if i = 1 then guest.machineType else if i = 2 then guest.atagsStartAddress else 0

/-- `init_cp15`. Everything but `VMPIDR` is zero. -/
def initCp15 (hw : Registers) : Cp15 :=
  { (default : Cp15) with vmpidr := hw.readCp32 .vmpidr &&& 0xFFFFFFFC ||| 0 }

/-- `arch_regs_init`. -/
def archRegsInit (guest : GuestConf) (hw : Registers) : ArchRegs :=
  ⟨initCoreRegs guest, initCp15 hw, default⟩

/-- `cp15_copy`. -/
def cp15Copy (src dst : Cp15) : Cp15 :=
  { dst with
    vbar := src.vbar
    ttbr0 := src.ttbr0
    ttbr1 := src.ttbr1
    ttbcr := src.ttbcr
    sctlr := src.sctlr
    vmpidr := src.vmpidr
    csselr := src.csselr
    cpacr := src.cpacr
    contextidr := src.contextidr
    tpidrurw := src.tpidrurw
    tpidruro := src.tpidruro
    tpidrprw := src.tpidrprw
    cntkctl := src.cntkctl
    dacr := src.dacr
    par := src.par
    mair0 := src.mair0
    mair1 := src.mair1
    amair0 := src.amair0
    amair1 := src.amair1
    dfar := src.dfar
    ifar := src.ifar
    dfsr := src.dfsr
    ifsr := src.ifsr
    adfsr := src.adfsr
    aifsr := src.aifsr }

/-- `banked_regs_copy`. -/
def bankedRegsCopy (src dst : BankedRegs) : BankedRegs :=
  { dst with
    spUsr := src.spUsr
    spsrSvc := src.spsrSvc
    spSvc := src.spSvc
    lrSvc := src.lrSvc
    spsrAbt := src.spsrAbt
    spAbt := src.spAbt
    lrAbt := src.lrAbt
    spsrUnd := src.spsrUnd
    spUnd := src.spUnd
    lrUnd := src.lrUnd
    spsrIrq := src.spsrIrq
    spIrq := src.spIrq
    lrIrq := src.lrIrq
    spsrFiq := src.spsrFiq
    lrFiq := src.lrFiq
    r8Fiq := src.r8Fiq
    r9Fiq := src.r9Fiq
    r10Fiq := src.r10Fiq
    r11Fiq := src.r11Fiq
    r12Fiq := src.r12Fiq }

/-- `core_regs_copy`, which takes no register from the structure that it is asked to copy. -/
def coreRegsCopy (_src _dst regs : CoreRegs) : CoreRegs where
  cpsr := regs.cpsr
  pc := regs.pc + 4
  lr := regs.lr
  gpr i := regs.gpr i

/-- `arch_regs_copy`. -/
def archRegsCopy (src dst : ArchRegs) (regs : CoreRegs) : ArchRegs where
  cp15 := cp15Copy src.cp15 dst.cp15
  bankedRegs := bankedRegsCopy src.bankedRegs dst.bankedRegs
  coreRegs := coreRegsCopy src.coreRegs dst.coreRegs regs

/-! ## The two lists agree -/

/-- The coprocessor registers that a guest keeps to itself, those that `struct cp15` has a field
for. -/
def guestCp15 : List Cp32 :=
  [.vbar, .ttbr0, .ttbr1, .ttbcr, .sctlr, .vmpidr, .csselr, .cpacr, .contextidr, .tpidrurw,
    .tpidruro, .tpidrprw, .cntkctl, .dacr, .par, .mair0, .mair1, .amair0, .amair1, .dfar, .ifar,
    .dfsr, .ifsr, .adfsr, .aifsr]

theorem foldl_writeCp32 (ws : List (Cp32 × U32)) (hw : Registers) :
    ws.foldl (fun hw w => hw.writeCp32 w.2 w.1) hw = { hw with cp32 := storeAll hw.cp32 ws } := by
  induction ws generalizing hw with
  | nil => rfl
  | cons w ws ih => exact ih _

theorem foldl_msr (ws : List (BankedReg × U32)) (hw : Registers) :
    ws.foldl (fun hw w => hw.msr w.1 w.2) hw = { hw with banked := storeAll hw.banked ws } := by
  induction ws generalizing hw with
  | nil => rfl
  | cons w ws ih => exact ih _

theorem restoreCp15_eq (cp15 : Cp15) (hw : Registers) :
    restoreCp15 cp15 hw = { hw with cp32 := storeAll hw.cp32 (cp15Writes cp15) } :=
  foldl_writeCp32 _ _

theorem restoreBankedRegs_eq (regs : BankedRegs) (hw : Registers) :
    restoreBankedRegs regs hw = { hw with banked := storeAll hw.banked (bankedWrites regs) } :=
  foldl_msr _ _

theorem map_fst_cp15Writes (cp15 : Cp15) : (cp15Writes cp15).map Prod.fst = guestCp15 := rfl

theorem guestCp15_nodup : guestCp15.Nodup := by decide

/-- A register that the restored structure has no field for is left alone. -/
theorem restoreCp15_of_notMem (cp15 : Cp15) (hw : Registers) {r : Cp32} (h : r ∉ guestCp15) :
    (restoreCp15 cp15 hw).cp32 r = hw.cp32 r := by
  rw [restoreCp15_eq]
  refine storeAll_of_notMem _ fun w hmem hr => h ?_
  rw [← map_fst_cp15Writes cp15, ← hr]
  exact List.mem_map_of_mem hmem

/-- Every write of the restore finds the register that the save read the field from. -/
theorem cp15Writes_saveCp15 (hw : Registers) :
    cp15Writes (saveCp15 hw) = guestCp15.map fun r => (r, hw.cp32 r) := rfl

theorem restoreCp15_saveCp15 (hw hw' : Registers) {r : Cp32} (h : r ∈ guestCp15) :
    (restoreCp15 (saveCp15 hw) hw').cp32 r = hw.cp32 r := by
  rw [restoreCp15_eq]
  apply storeAll_of_nodup
  · rw [map_fst_cp15Writes]
    exact guestCp15_nodup
  · rw [cp15Writes_saveCp15]
    exact List.mem_map_of_mem h

theorem bankedWrites_saveBankedRegs (hw : Registers) :
    bankedWrites (saveBankedRegs hw) = (bankedWrites (saveBankedRegs hw)).map fun w =>
      (w.1, hw.banked w.1) := rfl

theorem restoreBankedRegs_saveBankedRegs (hw hw' : Registers) :
    (restoreBankedRegs (saveBankedRegs hw) hw').banked = hw.banked := by
  funext r
  rw [restoreBankedRegs_eq]
  refine storeAll_of_forall _ ?_ ?_
  · cases r <;> simp [bankedWrites]
  · intro w hmem hr
    rw [bankedWrites_saveBankedRegs] at hmem
    obtain ⟨w', -, rfl⟩ := List.mem_map.mp hmem
    rw [← hr]

/-! ## Copies are complete -/

@[simp]
theorem cp15Copy_eq (src dst : Cp15) : cp15Copy src dst = src := rfl

@[simp]
theorem bankedRegsCopy_eq (src dst : BankedRegs) : bankedRegsCopy src dst = src := rfl

/-- A copy has the trap frame's registers, one instruction further on. -/
theorem archRegsCopy_eq (src dst : ArchRegs) (regs : CoreRegs) :
    archRegsCopy src dst regs = ⟨{ regs with pc := regs.pc + 4 }, src.cp15, src.bankedRegs⟩ := rfl

end KHypervisor
