import KHypervisor.Vm.ContextSwitch

/-!
# The stage-2 registers across a switch

`do_context_switch` leaves the stage-2 registers alone when the two virtual processors belong to
one machine. It may, as long as the registers are those of the machine that the processor it
switches from belongs to (`doContextSwitch_stageTwo`).
-/

namespace KHypervisor

open Registers

/-- Stage-2 translation is on, and is that of a machine. -/
structure StageTwoOf (vmem : Vmem) (regs : Registers) : Prop where
  vttbr : regs.cp64 .vttbr = vmem.vttbr
  vtcr : regs.cp32 .vtcr = vmem.vtcr
  actlr : regs.cp32 .actlr = vmem.actlr
  hcr : regs.cp32 .hcr &&& hcrBitVm = hcrBitVm

/-- The registers that `vmem_restore` writes are the same. -/
structure SameStageTwo (regs regs' : Registers) : Prop where
  vttbr : regs'.cp64 .vttbr = regs.cp64 .vttbr
  vtcr : regs'.cp32 .vtcr = regs.cp32 .vtcr
  actlr : regs'.cp32 .actlr = regs.cp32 .actlr
  hcr : regs'.cp32 .hcr = regs.cp32 .hcr

theorem StageTwoOf.of_same {vmem : Vmem} {regs regs' : Registers} (h : StageTwoOf vmem regs)
    (hsame : SameStageTwo regs regs') : StageTwoOf vmem regs' where
  vttbr := hsame.vttbr.trans h.vttbr
  vtcr := hsame.vtcr.trans h.vtcr
  actlr := hsame.actlr.trans h.actlr
  hcr := by rw [hsame.hcr, h.hcr]

/-- `vmem_restore` sets them all up. -/
theorem stageTwoOf_vmemRestore (vmem : Vmem) (regs : Registers) :
    StageTwoOf vmem (vmemRestore vmem regs) := by
  have hactlr : Cp32.actlr ≠ Cp32.hcr := by decide
  have hvtcr : Cp32.vtcr ≠ Cp32.hcr := by decide
  have hboth : Cp32.vtcr ≠ Cp32.actlr := by decide
  constructor
  · simp [vmemRestore, writeCp32, writeCp64]
  · simp [vmemRestore, writeCp32, writeCp64, hvtcr, hboth]
  · simp [vmemRestore, writeCp32, writeCp64, hactlr]
  · simp only [vmemRestore, writeCp32, Function.update_self]
    exact BitVec.and_comm _ _ |>.trans (by ext; simp; tauto)

theorem sameStageTwo_archRegsRestore (arch : ArchRegs) (frame : Option CoreRegs)
    (regs : Registers) : SameStageTwo regs (archRegsRestore arch frame regs).1 := by
  have hcp15 : SameStageTwo regs (restoreCp15 arch.cp15 regs) := by
    refine ⟨?_, ?_, ?_, ?_⟩
    · rw [restoreCp15_eq]
    all_goals exact restoreCp15_of_notMem _ _ (by decide)
  cases frame with
  | none => exact hcp15
  | some frame =>
      rw [archRegsRestore, restoreBankedRegs_eq]
      exact ⟨hcp15.vttbr, hcp15.vtcr, hcp15.actlr, hcp15.hcr⟩

/-- The stage-2 registers are those of the machine that virtual processor `v` belongs to. -/
def Machine.OnVmOf (s : Machine) (v : VcpuId) : Prop :=
  ∃ vmid vmem, s.vmidOf v = some vmid ∧ s.vms vmid = some vmem ∧ StageTwoOf vmem s.regs

theorem Machine.OnVmOf.of_same {s s' : Machine} {v : VcpuId} (h : s.OnVmOf v)
    (hguests : SameGuests s s') (hsame : SameStageTwo s.regs s'.regs) : s'.OnVmOf v := by
  obtain ⟨vmid, vmem, hvmid, hvmem, hstage⟩ := h
  exact ⟨vmid, vmem, by rw [hguests.vmidOf, hvmid], by rw [hguests.vms, hvmem],
    hstage.of_same hsame⟩

theorem Machine.OnVmOf.of_vmidOf {s : Machine} {v w : VcpuId} (h : s.OnVmOf v)
    (hvmid : s.vmidOf w = s.vmidOf v) : s.OnVmOf w := by
  obtain ⟨vmid, vmem, hv, hvmem, hstage⟩ := h
  exact ⟨vmid, vmem, by rw [hvmid, hv], hvmem, hstage⟩

theorem vcpuSave_eq_some {numLr : ℕ} {v : VcpuId} {frame : Option CoreRegs} {s s' : Machine}
    (h : vcpuSave numLr v frame s = some s') : SameGuests s s' ∧ s'.regs = s.regs := by
  obtain ⟨vcpu, hvcpu, rfl⟩ := Option.map_eq_some_iff.mp h
  exact ⟨⟨rfl, Machine.vmidOf_setVcpu hvcpu rfl⟩, rfl⟩

theorem vcpuRestore_eq_some {numLr : ℕ} {v : VcpuId} {frame frame' : Option CoreRegs}
    {s s' : Machine} (h : vcpuRestore numLr v frame s = some (s', frame')) :
    SameGuests s s' ∧ SameStageTwo s.regs s'.regs := by
  obtain ⟨vcpu, hvcpu, hs⟩ := Option.map_eq_some_iff.mp h
  have hsame := sameStageTwo_archRegsRestore vcpu.regs frame s.regs
  cases frame with
  | none =>
      obtain ⟨rfl, -⟩ := Prod.mk.inj hs
      exact ⟨⟨rfl, fun _ => rfl⟩, hsame⟩
  | some frame =>
      obtain ⟨rfl, -⟩ := Prod.mk.inj hs
      exact ⟨⟨rfl, Machine.vmidOf_setVcpu hvcpu rfl⟩, hsame⟩

theorem vmRestore_eq_some {vmid : VmId} {s s' : Machine} (h : vmRestore vmid s = some s') :
    SameGuests s s' ∧ ∀ v, s.vmidOf v = some vmid → s'.OnVmOf v := by
  obtain ⟨vmem, hvmem, rfl⟩ := Option.map_eq_some_iff.mp h
  exact ⟨⟨rfl, fun _ => rfl⟩, fun v hv => ⟨vmid, vmem, hv, hvmem, stageTwoOf_vmemRestore _ _⟩⟩

/-- Restoring the machine of a processor and then the processor leaves the stage-2 registers to
that machine. -/
theorem onVmOf_restore {numLr : ℕ} {n : VcpuId} {next : Vcpu} {frame frame' : Option CoreRegs}
    {s s' : Machine} (hn : s.vmidOf n = some next.vmid)
    (h : ((vmRestore next.vmid s).bind fun s => vcpuRestore numLr n frame s) = some (s', frame')) :
    SameGuests s s' ∧ s'.OnVmOf n := by
  obtain ⟨mid, hmid, hs⟩ := Option.bind_eq_some_iff.mp h
  obtain ⟨hguests, hon⟩ := vmRestore_eq_some hmid
  obtain ⟨hguests', hsame⟩ := vcpuRestore_eq_some hs
  exact ⟨hguests.trans hguests', (hon n hn).of_same hguests' hsame⟩

/-- A switch is on the machine of the processor that it selects, provided that the processor it
switches from, if there is one, was on its own. -/
theorem doContextSwitch_stageTwo {numLr : ℕ} {c n : VcpuId} {frame frame' : Option CoreRegs}
    {s s' : Machine} (hcurrent : c ≠ vcpuidInvalid → s.OnVmOf c)
    (h : doContextSwitch numLr c n frame s = some (s', frame')) :
    SameGuests s s' ∧ s'.OnVmOf n := by
  obtain ⟨next, hnext, h⟩ := Option.bind_eq_some_iff.mp h
  have hn : s.vmidOf n = some next.vmid := by rw [Machine.vmidOf, hnext, Option.map_some]
  by_cases hc : c = vcpuidInvalid
  · rw [if_pos hc] at h
    exact onVmOf_restore hn h
  · rw [if_neg hc] at h
    obtain ⟨current, hcur, h⟩ := Option.bind_eq_some_iff.mp h
    obtain ⟨mid, hmid, h⟩ := Option.bind_eq_some_iff.mp h
    obtain ⟨hguests, hregs⟩ := vcpuSave_eq_some hmid
    by_cases hvm : current.vmid ≠ next.vmid
    · rw [if_pos hvm] at h
      have hsave : SameGuests s (vmSave current.vmid mid) := ⟨hguests.vms, hguests.vmidOf⟩
      obtain ⟨hguests', hon⟩ := onVmOf_restore (by rw [hsave.vmidOf, hn]) h
      exact ⟨hsave.trans hguests', hon⟩
    · rw [if_neg hvm] at h
      obtain ⟨hguests', hsame⟩ := vcpuRestore_eq_some h
      have hall := hguests.trans hguests'
      have hsamevm : s.vmidOf n = s.vmidOf c := by
        rw [hn, Machine.vmidOf, hcur, Option.map_some, not_not.mp hvm]
      rw [hregs] at hsame
      exact ⟨hall, ((hcurrent hc).of_vmidOf hsamevm).of_same hall hsame⟩

end KHypervisor
