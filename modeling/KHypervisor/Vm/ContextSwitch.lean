import KHypervisor.Drivers.GicV2
import KHypervisor.Lib.Run
import KHypervisor.Vm.Vmem

/-!
# Switching between virtual processors

`do_context_switch` on one processor, over the tables that `vcpu_find` and `vm_find` search. The
state of the processor that leaves is saved, the one that enters finds its own again, and the
stage-2 registers are exchanged where the two belong to different machines.

What a switched-out processor finds when it comes back is what it left: `switch_restores`.
-/

namespace KHypervisor

open Run Stores Registers

/-- One processor, and the tables of virtual processors and machines. Numbers are given out once,
so that a search of the lists for a number is a map. -/
structure Machine where
  regs : Registers
  gich : Gich
  vcpus : VcpuId → Option Vcpu
  vms : VmId → Option Vmem

/-- The state of virtual processor `v` after an assignment through the pointer to it. -/
def Machine.setVcpu (v : VcpuId) (vcpu : Vcpu) (s : Machine) : Machine :=
  { s with vcpus := Function.update s.vcpus v (some vcpu) }

/-- The loop of `vcpu_save` over the list registers. -/
def saveLrs (numLr : ℕ) (g : Gich) (lr : ℕ → U32) : ℕ → U32 :=
  (List.range numLr).foldl (fun lr i => Function.update lr i (g.lr i)) lr

/-- The loop of `vcpu_restore` over the list registers. -/
def restoreLrs (numLr : ℕ) (lr : ℕ → U32) (g : Gich) : Gich :=
  (List.range numLr).foldl (fun g i => g.writeLr i (lr i)) g

/-- What `vcpu_save` assigns through its pointer. -/
def Machine.saved (numLr : ℕ) (frame : Option CoreRegs) (vcpu : Vcpu) (s : Machine) : Vcpu :=
  { vcpu with
    regs := archRegsSave vcpu.regs frame s.regs
    lr := saveLrs numLr s.gich vcpu.lr
    vmcr := s.gich.vmcr }

/-- `vcpu_save`. -/
def vcpuSave (numLr : ℕ) (v : VcpuId) (frame : Option CoreRegs) (s : Machine) : Option Machine :=
  (s.vcpus v).map fun vcpu =>
    { s.setVcpu v (s.saved numLr frame vcpu) with gich := gichDisable s.gich }

/-- `vcpu_restore`, with the trap frame after it. Without a trap frame `arch_regs_restore` leaves
for the guest, and nothing after it is done. -/
def vcpuRestore (numLr : ℕ) (v : VcpuId) (frame : Option CoreRegs) (s : Machine) :
    Option (Machine × Option CoreRegs) :=
  (s.vcpus v).map fun vcpu =>
    match archRegsRestore vcpu.regs frame s.regs with
    | (regs, none) => ({ s with regs := regs }, none)
    | (regs, some frame) =>
        let gich := restoreLrs numLr vcpu.lr s.gich
        let gich := { gich with vmcr := vcpu.vmcr }
        let (vcpu, gich) := gicInjectPendingIrqs numLr vcpu gich
        ({ s.setVcpu v vcpu with regs := regs, gich := gichEnable gich }, some frame)

/-- `vm_save`, which does not look at the machine that it finds. -/
def vmSave (_saveVmid : VmId) (s : Machine) : Machine := { s with regs := vmemSave s.regs }

/-- `vm_restore`. `none` is a machine that is not there. -/
def vmRestore (restoreVmid : VmId) (s : Machine) : Option Machine :=
  (s.vms restoreVmid).map fun vmem => { s with regs := vmemRestore vmem s.regs }

/-- `do_context_switch`, with the trap frame after it. `none` is a processor or a machine that is
not there. -/
def doContextSwitch (numLr : ℕ) (currentId nextId : VcpuId) (frame : Option CoreRegs)
    (s : Machine) : Option (Machine × Option CoreRegs) := do
  let next ← s.vcpus nextId
  if currentId = vcpuidInvalid then
    let s ← vmRestore next.vmid s
    vcpuRestore numLr nextId frame s
  else
    let current ← s.vcpus currentId
    let s ← vcpuSave numLr currentId frame s
    if current.vmid ≠ next.vmid then
      let s ← vmRestore next.vmid (vmSave current.vmid s)
      vcpuRestore numLr nextId frame s
    else vcpuRestore numLr nextId frame s

/-! ## The loops over the list registers -/

theorem saveLrs_eq (numLr : ℕ) (g : Gich) (lr : ℕ → U32) {i : ℕ} (hi : i < numLr) :
    saveLrs numLr g lr i = g.lr i := by
  induction numLr with
  | zero => omega
  | succ n ih =>
      rw [saveLrs, List.range_succ, List.foldl_append, List.foldl_cons, List.foldl_nil]
      by_cases hlast : i = n
      · rw [hlast, Function.update_self]
      · rw [Function.update_of_ne hlast]
        exact ih (by omega)

theorem restoreLrs_lr (numLr : ℕ) (lr : ℕ → U32) (g : Gich) {i : ℕ} (hi : i < numLr) :
    (restoreLrs numLr lr g).lr i = lr i := by
  induction numLr with
  | zero => omega
  | succ n ih =>
      rw [restoreLrs, List.range_succ, List.foldl_append, List.foldl_cons, List.foldl_nil,
        Gich.writeLr]
      by_cases hlast : i = n
      · rw [hlast]
        exact Function.update_self _ _ _
      · exact (Function.update_of_ne hlast _ _).trans (ih (by omega))

/-! ## What a switch does -/

structure GuestState where
  regs : Registers
  frame : CoreRegs
  lr : ℕ → U32
  vmcr : U32

/-- The processor has saved the guest state `g`. -/
structure Saved (numLr : ℕ) (vcpu : Vcpu) (g : GuestState) : Prop where
  regs : vcpu.regs = ⟨g.frame, saveCp15 g.regs, saveBankedRegs g.regs⟩
  lr : ∀ i < numLr, vcpu.lr i = g.lr i
  vmcr : vcpu.vmcr = g.vmcr

/-- The registers hold the guest state `g` again, except for list registers that were free. -/
structure Resumed (numLr : ℕ) (g : GuestState) (s : Machine) (frame : CoreRegs) : Prop where
  cp15 : ∀ r ∈ guestCp15, s.regs.cp32 r = g.regs.cp32 r
  banked : s.regs.banked = g.regs.banked
  frame : frame = g.frame
  vmcr : s.gich.vmcr = g.vmcr
  lr : ∀ i < numLr, lrOccupied (g.lr i) = true → s.gich.lr i = g.lr i

def Machine.guestState (s : Machine) (frame : CoreRegs) : GuestState :=
  ⟨s.regs, frame, s.gich.lr, s.gich.vmcr⟩

def Machine.vmidOf (s : Machine) (v : VcpuId) : Option VmId := (s.vcpus v).map Vcpu.vmid

/-- The same virtual processors in the same machines. -/
structure SameGuests (s s' : Machine) : Prop where
  vms : s'.vms = s.vms
  vmidOf : ∀ v, s'.vmidOf v = s.vmidOf v

theorem SameGuests.refl (s : Machine) : SameGuests s s := ⟨rfl, fun _ => rfl⟩

theorem SameGuests.trans {s s' s'' : Machine} (h : SameGuests s s') (h' : SameGuests s' s'') :
    SameGuests s s'' :=
  ⟨h'.vms.trans h.vms, fun v => (h'.vmidOf v).trans (h.vmidOf v)⟩

theorem Machine.vmidOf_setVcpu {s : Machine} {v : VcpuId} {vcpu vcpu' : Vcpu}
    (hv : s.vcpus v = some vcpu) (hvmid : vcpu'.vmid = vcpu.vmid) (w : VcpuId) :
    (s.setVcpu v vcpu').vmidOf w = s.vmidOf w := by
  rw [vmidOf, vmidOf, setVcpu]
  dsimp only
  by_cases hw : w = v
  · rw [hw, Function.update_self, hv, Option.map_some, Option.map_some, hvmid]
  · rw [Function.update_of_ne hw]

theorem saved_saved (numLr : ℕ) (s : Machine) (frame : CoreRegs) (vcpu : Vcpu) :
    Saved numLr (s.saved numLr (some frame) vcpu) (s.guestState frame) :=
  ⟨rfl, fun _ hi => saveLrs_eq numLr s.gich vcpu.lr hi, rfl⟩

theorem vcpuSave_some {numLr : ℕ} {s : Machine} {v : VcpuId} {vcpu : Vcpu}
    (hv : s.vcpus v = some vcpu) (frame : Option CoreRegs) :
    vcpuSave numLr v frame s =
      some { s.setVcpu v (s.saved numLr frame vcpu) with gich := gichDisable s.gich } := by
  rw [vcpuSave, hv, Option.map_some]

/-- The processor and the virtual interface after `vcpu_restore` has written the list registers
and drained the queue. -/
def Machine.drained (numLr : ℕ) (vcpu : Vcpu) (s : Machine) : Vcpu × Gich :=
  gicInjectPendingIrqs numLr vcpu { restoreLrs numLr vcpu.lr s.gich with vmcr := vcpu.vmcr }

/-- The processor after `vcpu_restore`. -/
def Machine.resume (numLr : ℕ) (v : VcpuId) (vcpu : Vcpu) (s : Machine) : Machine :=
  { s.setVcpu v (s.drained numLr vcpu).1 with
    regs := restoreBankedRegs vcpu.regs.bankedRegs (restoreCp15 vcpu.regs.cp15 s.regs)
    gich := gichEnable (s.drained numLr vcpu).2 }

theorem vcpuRestore_some {numLr : ℕ} {s : Machine} {v : VcpuId} {vcpu : Vcpu}
    (hv : s.vcpus v = some vcpu) (frame : CoreRegs) :
    vcpuRestore numLr v (some frame) s =
      some (s.resume numLr v vcpu, some vcpu.regs.coreRegs) := by
  rw [vcpuRestore, hv, Option.map_some]
  rfl

theorem resume_sameGuests (numLr : ℕ) {s : Machine} {v : VcpuId} {vcpu : Vcpu}
    (hv : s.vcpus v = some vcpu) : SameGuests s (s.resume numLr v vcpu) :=
  ⟨rfl, Machine.vmidOf_setVcpu hv rfl⟩

/-- List registers that were occupied when they were saved come back. -/
theorem lrKept_resume {numLr : ℕ} (hnum : numLr ≤ 64) (s : Machine) (v : VcpuId) (vcpu : Vcpu) :
    LrKept numLr vcpu.lr (s.resume numLr v vcpu).gich.lr := by
  intro i hi hocc
  have hrestored := restoreLrs_lr numLr vcpu.lr s.gich hi
  have hkept := (gicInjectPendingIrqs_kept hnum vcpu
    { restoreLrs numLr vcpu.lr s.gich with vmcr := vcpu.vmcr }).1 i hi
  exact (hkept (by rw [hrestored]; exact hocc)).trans hrestored

/-- Restoring resumes the guest state that the processor has saved. -/
theorem resumed_resume {numLr : ℕ} (hnum : numLr ≤ 64) (s : Machine) (v : VcpuId) {vcpu : Vcpu}
    {g : GuestState} (hg : Saved numLr vcpu g) :
    Resumed numLr g (s.resume numLr v vcpu) vcpu.regs.coreRegs := by
  constructor
  · intro r hr
    rw [Machine.resume, hg.regs]
    exact (congrFun (congrArg Registers.cp32 (restoreBankedRegs_eq _ _)) r).trans
      (restoreCp15_saveCp15 g.regs s.regs hr)
  · rw [Machine.resume, hg.regs]
    exact restoreBankedRegs_saveBankedRegs g.regs _
  · rw [hg.regs]
  · exact (gicInjectPendingIrqs_kept hnum vcpu _).2.trans hg.vmcr
  · intro i hi hocc
    have hsame := hg.lr i hi
    rw [← hsame] at hocc ⊢
    exact lrKept_resume hnum s v vcpu i hi hocc

structure Schedulable (s : Machine) (v : VcpuId) : Prop where
  valid : v ≠ vcpuidInvalid
  vm : ∃ vmid, s.vmidOf v = some vmid ∧ (s.vms vmid).isSome = true

theorem Schedulable.exists_vcpu {s : Machine} {v : VcpuId} (h : Schedulable s v) :
    ∃ vcpu vmem, s.vcpus v = some vcpu ∧ s.vms vcpu.vmid = some vmem := by
  obtain ⟨vmid, hvmid, hvm⟩ := h.vm
  obtain ⟨vcpu, hvcpu, rfl⟩ := Option.map_eq_some_iff.mp hvmid
  obtain ⟨vmem, hvmem⟩ := Option.isSome_iff_exists.mp hvm
  exact ⟨vcpu, vmem, hvcpu, hvmem⟩

theorem Schedulable.of_sameGuests {s s' : Machine} {v : VcpuId} (h : Schedulable s v)
    (hsame : SameGuests s s') : Schedulable s' v := by
  obtain ⟨vmid, hvmid, hvm⟩ := h.vm
  refine ⟨h.valid, vmid, ?_, ?_⟩
  · rw [hsame.vmidOf, hvmid]
  · rw [hsame.vms]
    exact hvm

/-- The registers of the stage-2 translation after a switch from machine `from` to machine `to`. -/
def switchVm (current next : VmId) (vmem : Vmem) (regs : Registers) : Registers :=
  if current ≠ next then vmemRestore vmem (vmemSave regs) else regs

/-- A switch from a running processor: its state is saved, the stage-2 registers are exchanged if
the machines differ, and the next processor is restored from what it has saved by then. -/
theorem doContextSwitch_eq (numLr : ℕ) {s : Machine} {c n : VcpuId} {current next : Vcpu}
    {vmem : Vmem} (hvalid : c ≠ vcpuidInvalid) (hc : s.vcpus c = some current)
    (hn : s.vcpus n = some next) (hvm : s.vms next.vmid = some vmem) (frame : CoreRegs) :
    doContextSwitch numLr c n (some frame) s =
      vcpuRestore numLr n (some frame)
        { s.setVcpu c (s.saved numLr (some frame) current) with
          regs := switchVm current.vmid next.vmid vmem s.regs
          gich := gichDisable s.gich } := by
  rw [doContextSwitch, hn, hc, vcpuSave_some hc]
  simp only [Option.bind_eq_bind, Option.bind_some, if_neg hvalid]
  by_cases hne : current.vmid ≠ next.vmid
  · rw [if_pos hne, switchVm, if_pos hne, vmRestore, vmSave]
    simp only [Machine.setVcpu, hvm, Option.map_some, Option.bind_some]
  · rw [if_neg hne, switchVm, if_neg hne]
    rfl

theorem setVcpu_vcpus_of_ne (s : Machine) {v w : VcpuId} (h : w ≠ v) (vcpu : Vcpu) :
    (s.setVcpu v vcpu).vcpus w = s.vcpus w :=
  Function.update_of_ne h _ _

theorem setVcpu_vcpus_self (s : Machine) (v : VcpuId) (vcpu : Vcpu) :
    (s.setVcpu v vcpu).vcpus v = some vcpu :=
  Function.update_self _ _ _

/-- A switch between two processors that can be switched to resumes the next one, on a machine on
which the current one is saved and the others are as they were. -/
theorem doContextSwitch_resume (numLr : ℕ) {s : Machine} {c n : VcpuId} (hc : Schedulable s c)
    (hn : Schedulable s n) (frame : CoreRegs) :
    ∃ current mid vcpu, s.vcpus c = some current ∧
      mid.vcpus c = some (s.saved numLr (some frame) current) ∧
      (∀ w, w ≠ c → mid.vcpus w = s.vcpus w) ∧ SameGuests s mid ∧ mid.vcpus n = some vcpu ∧
      doContextSwitch numLr c n (some frame) s =
        some (mid.resume numLr n vcpu, some vcpu.regs.coreRegs) := by
  obtain ⟨current, -, hcurrent, -⟩ := hc.exists_vcpu
  obtain ⟨next, vmem, hnext, hvmem⟩ := hn.exists_vcpu
  have heq := doContextSwitch_eq numLr hc.valid hcurrent hnext hvmem frame
  generalize hmid : { s.setVcpu c (s.saved numLr (some frame) current) with
    regs := switchVm current.vmid next.vmid vmem s.regs
    gich := gichDisable s.gich } = mid at heq
  have hguests : SameGuests s mid := by
    rw [← hmid]
    exact ⟨rfl, Machine.vmidOf_setVcpu hcurrent rfl⟩
  obtain ⟨vcpu, -, hvcpu, -⟩ := (hn.of_sameGuests hguests).exists_vcpu
  rw [vcpuRestore_some hvcpu] at heq
  refine ⟨current, mid, vcpu, hcurrent, ?_, fun w hw => ?_, hguests, hvcpu, heq⟩
  · rw [← hmid]
    exact setVcpu_vcpus_self _ _ _
  · rw [← hmid]
    exact setVcpu_vcpus_of_ne _ hw _

/-! ## Runs of guests and switches -/

/-- A processor with a running guest. `out` records, for the statement only, the guest state of
every virtual processor when it was last switched out. -/
structure SwitchState where
  machine : Machine
  frame : CoreRegs
  current : VcpuId
  out : VcpuId → Option GuestState

/-- The guest leaves its registers in a new state, or the next guest is switched to. -/
inductive SwitchEvent
  | guest (g : GuestState)
  | switch (next : VcpuId)

def Machine.guestWrites (numLr : ℕ) (g : GuestState) (s : Machine) : Machine :=
  { s with
    regs := { s.regs with
      cp32 := fun r => if r ∈ guestCp15 then g.regs.cp32 r else s.regs.cp32 r
      banked := g.regs.banked }
    gich := { s.gich with
      vmcr := g.vmcr
      lr := fun i => if i < numLr then g.lr i else s.gich.lr i } }

def switchStep (numLr : ℕ) (s : SwitchState) : SwitchEvent → Option SwitchState
  | .guest g => some { s with machine := s.machine.guestWrites numLr g, frame := g.frame }
  | .switch next =>
      match doContextSwitch numLr s.current next (some s.frame) s.machine with
      | some (machine, some frame) =>
          some ⟨machine, frame, next,
            Function.update s.out s.current (some (s.machine.guestState s.frame))⟩
      | _ => none

/-- Every processor that has been switched out has saved the state it was switched out in. -/
structure SwitchInv (numLr : ℕ) (start : Machine) (s : SwitchState) : Prop where
  same : SameGuests start s.machine
  current : Schedulable s.machine s.current
  saved : ∀ v g, s.out v = some g → ∃ vcpu, s.machine.vcpus v = some vcpu ∧ Saved numLr vcpu g

theorem Saved.of_pending {numLr : ℕ} {vcpu : Vcpu} {g : GuestState} (h : Saved numLr vcpu g)
    (pending : ℕ → U32) : Saved numLr { vcpu with pendingIrqs := pending } g :=
  ⟨h.regs, h.lr, h.vmcr⟩

theorem switchInv_guest {numLr : ℕ} {start : Machine} {s : SwitchState}
    (h : SwitchInv numLr start s) (g : GuestState) :
    SwitchInv numLr start
      { s with machine := s.machine.guestWrites numLr g, frame := g.frame } := by
  have hsame : SameGuests s.machine (s.machine.guestWrites numLr g) := ⟨rfl, fun _ => rfl⟩
  exact ⟨h.same.trans hsame, h.current.of_sameGuests hsame, h.saved⟩

/-- A switch keeps the invariant and resumes the processor that it switches to. -/
theorem switchStep_switch {numLr : ℕ} (hnum : numLr ≤ 64) {start : Machine} {s : SwitchState}
    (h : SwitchInv numLr start s) {n : VcpuId} (hn : Schedulable start n) :
    ∃ t, switchStep numLr s (.switch n) = some t ∧ SwitchInv numLr start t ∧ t.current = n ∧
      ∀ g, t.out n = some g → Resumed numLr g t.machine t.frame := by
  obtain ⟨current, mid, vcpu, hcurrent, hself, hothers, hguests, hvcpu, heq⟩ :=
    doContextSwitch_resume numLr h.current (hn.of_sameGuests h.same) s.frame
  have hsaved : ∀ v g, Function.update s.out s.current (some (s.machine.guestState s.frame)) v =
      some g → ∃ vcpu, mid.vcpus v = some vcpu ∧ Saved numLr vcpu g := by
    intro v g hout
    by_cases hv : v = s.current
    · rw [hv, Function.update_self, Option.some.injEq] at hout
      rw [hv, ← hout]
      exact ⟨_, hself, saved_saved numLr s.machine s.frame current⟩
    · rw [Function.update_of_ne hv] at hout
      obtain ⟨vcpu, hvcpu, hg⟩ := h.saved v g hout
      exact ⟨vcpu, (hothers v hv).trans hvcpu, hg⟩
  have hall := hguests.trans (resume_sameGuests numLr hvcpu)
  refine ⟨_, by rw [switchStep, heq], ⟨h.same.trans hall,
    hn.of_sameGuests (h.same.trans hall), ?_⟩, rfl, fun g hout => ?_⟩
  · intro v g hout
    obtain ⟨vcpu', hvcpu', hg⟩ := hsaved v g hout
    by_cases hv : v = n
    · rw [hv, hvcpu, Option.some.injEq] at hvcpu'
      rw [← hvcpu'] at hg
      rw [hv]
      exact ⟨_, setVcpu_vcpus_self _ _ _, hg.of_pending _⟩
    · exact ⟨vcpu', (setVcpu_vcpus_of_ne _ hv _).trans hvcpu', hg⟩
  · obtain ⟨vcpu', hvcpu', hg⟩ := hsaved n g hout
    rw [hvcpu, Option.some.injEq] at hvcpu'
    rw [← hvcpu'] at hg
    exact resumed_resume hnum _ _ hg

theorem switchInv_run {numLr : ℕ} (hnum : numLr ≤ 64) {s : SwitchState}
    (h : SwitchInv numLr s.machine s) {es : List SwitchEvent}
    (hes : ∀ v, SwitchEvent.switch v ∈ es → Schedulable s.machine v) :
    ∃ t, run (switchStep numLr) s es = some t ∧ SwitchInv numLr s.machine t := by
  refine run_total es h fun u e he hu => ?_
  cases e with
  | guest g => exact ⟨_, rfl, switchInv_guest hu g⟩
  | switch v =>
      obtain ⟨t, ht, hinv, -⟩ := switchStep_switch hnum hu (hes v he)
      exact ⟨t, ht, hinv⟩

/-- Whatever the guests did to their registers and whichever switches were made, a virtual
processor that is switched to resumes the state it was last switched out in. -/
theorem switch_restores {numLr : ℕ} (hnum : numLr ≤ 64) {s : SwitchState}
    (hcurrent : Schedulable s.machine s.current) (hstart : ∀ v, s.out v = none)
    {es : List SwitchEvent} {v : VcpuId}
    (hes : ∀ w, SwitchEvent.switch w ∈ es ++ [.switch v] → Schedulable s.machine w) :
    ∃ t, run (switchStep numLr) s (es ++ [.switch v]) = some t ∧ t.current = v ∧
      ∀ g, t.out v = some g → Resumed numLr g t.machine t.frame := by
  have hinv : SwitchInv numLr s.machine s := by
    refine ⟨.refl _, hcurrent, fun w g hout => ?_⟩
    rw [hstart w] at hout
    simp at hout
  obtain ⟨u, hu, hinvu⟩ := switchInv_run hnum hinv fun w hw => hes w (List.mem_append_left _ hw)
  obtain ⟨t, ht, -, hcur, hresumed⟩ := switchStep_switch hnum hinvu
    (hes v (List.mem_append_right _ (List.mem_singleton_self _)))
  exact ⟨t, by rw [run_concat, hu, Option.bind_some, ht], hcur, hresumed⟩

def twoVcpus : Machine where
  regs := default
  gich := default
  vcpus v := if v < 2 then some default else none
  vms _ := some default

theorem schedulable_twoVcpus {v : ℕ} (hv : v < 2) : Schedulable twoVcpus v := by
  have hvcpu : twoVcpus.vcpus v = some default := if_pos hv
  have hlt : v < 0xFF := by omega
  exact ⟨Nat.ne_of_lt hlt, _, congrArg (Option.map Vcpu.vmid) hvcpu, rfl⟩

theorem switch_restores_twoVcpus :
    ∃ t, run (switchStep 4) ⟨twoVcpus, default, 0, fun _ => none⟩
        ([.switch 1, .guest ⟨default, default, fun _ => 7, 3⟩] ++ [.switch 0]) = some t ∧
      t.current = 0 ∧ ∀ g, t.out 0 = some g → Resumed 4 g t.machine t.frame := by
  refine switch_restores (by decide) (schedulable_twoVcpus (by decide)) (fun _ => rfl) ?_
  intro w hw
  refine schedulable_twoVcpus ?_
  simp only [List.cons_append, List.nil_append, List.mem_cons, SwitchEvent.switch.injEq,
    reduceCtorEq, List.not_mem_nil, or_false, false_or] at hw
  rcases hw with rfl | rfl <;> decide

end KHypervisor
