import KHypervisor.Drivers.GicV2
import KHypervisor.Vdev.SpiForwarding

/-!
# Who deactivates a physical interrupt

`do_irq` deactivates an interrupt itself unless its handler returns `VM_IRQ`. The handlers for the
guests' interrupts always return that, whether or not a virtual processor has taken the interrupt,
and the maintenance interrupt of a virtual processor deactivates only what its map has for a virtual
interrupt that it has completed. This module says when somebody is left to deactivate it.
-/

namespace KHypervisor

open Slots

/-! ## Handlers -/

/-- `irqreturn_t`. -/
inductive IrqReturn
  | vmmIrq
  | vmmVmBothIrq
  | vmIrq
  | maintenanceIrq
  | unexceptedIrq
deriving DecidableEq

/-- A virtual machine in the list of all machines, with the number of its first virtual
processor. -/
structure ListedVm where
  vmid : VmId
  state : VmcbState
  vcpu0 : VcpuId

/-- What `do_irq` finds on processor `pcpu`: the entries in flight of its scheduler, the machines,
the virtual processors, and the virtual interfaces of all processors with what
`get_current_vcpuid` returns there. The interrupts that were deactivated are kept in their
order. -/
structure IrqState where
  pcpu : PcpuId
  inflight : List VcpuId
  vms : List ListedVm
  vcpus : VcpuId → Option Vcpu
  gich : PcpuId → Gich
  current : PcpuId → VcpuId
  deactivated : List U32

/-- A handler in the table of `do_irq`. There is no result where it uses a virtual processor that is
not there. -/
abbrev IrqHandler := U32 → IrqState → Option (IrqReturn × IrqState)

namespace IrqState

/-- The state after assignments to virtual processor `v` and to the virtual interface. -/
def store (v : VcpuId) (vcpu : Vcpu) (gich : Gich) (σ : IrqState) : IrqState :=
  { σ with
    vcpus := Function.update σ.vcpus v (some vcpu)
    gich := Function.update σ.gich σ.pcpu gich }

/-- `virq_hw->forward_irq`, which is `virq_inject`. -/
def forwardIrq (numLr : ℕ) (v : VcpuId) (virq pirq : U32) (hw : U8) (σ : IrqState) :
    Option IrqState :=
  (σ.vcpus v).map fun vcpu =>
    let r := virqInject numLr (v == σ.current σ.pcpu) vcpu virq pirq hw (σ.gich σ.pcpu)
    σ.store v r.2.1 r.2.2

/-- A turn of the loop of `is_guest_ppi`. -/
def ppiTurn (numLr : ℕ) (irq : U32) (σ : IrqState) (vcpuid : VcpuId) : Option IrqState := do
  let vcpu ← σ.vcpus vcpuid
  let virq ← pirqToVirq vcpu irq
  if virq = virqInvalid then some σ
  else σ.forwardIrq numLr vcpuid virq irq injectSw

/-- A turn of the loop of `is_guest_spi`, with the calls of `virq_hw->forward_irq` that it makes. -/
def spiTurn (numLr : ℕ) (irq : U32) (σ : IrqState) (vm : ListedVm) : Option IrqState := do
  let vcpu ← σ.vcpus vm.vcpu0
  let calls ← KHypervisor.spiTurn irq ⟨vm.vmid, vm.state, vcpu⟩
  calls.foldlM (fun σ f => σ.forwardIrq numLr vm.vcpu0 f.virq f.pirq f.hw) σ

end IrqState

/-- `is_guest_sgi`. -/
def isGuestSgi : IrqHandler := fun _ σ => some (.vmIrq, σ)

/-- `is_guest_ppi`. -/
def isGuestPpi (numLr : ℕ) : IrqHandler := fun irq σ =>
  (σ.inflight.foldlM (IrqState.ppiTurn numLr irq) σ).map fun σ => (.vmIrq, σ)

/-- `is_guest_spi`, with what becomes of its calls. -/
def isGuestSpiIrq (numLr : ℕ) : IrqHandler := fun irq σ =>
  (σ.vms.foldlM (IrqState.spiTurn numLr irq) σ).map fun σ => (.vmIrq, σ)

inductive GuestHandler
  | sgi
  | ppi
  | spi

def GuestHandler.run (numLr : ℕ) : GuestHandler → IrqHandler
  | .sgi => isGuestSgi
  | .ppi => isGuestPpi numLr
  | .spi => isGuestSpiIrq numLr

/-- `irq_handler_init`, where the table has no entry for an interrupt that nobody has registered
for. -/
def irqHandlerInit (numLr : ℕ) (handler : Fin 1024 → Option IrqHandler) (i : Fin 1024) :
    IrqHandler :=
  (handler i).getD
    (if i.val < 16 then isGuestSgi else if i.val < 32 then isGuestPpi numLr
    else isGuestSpiIrq numLr)

/-- `do_irq` for the interrupt that was acknowledged. -/
def doIrq (irqHandlers : Fin 1024 → IrqHandler) (irq : Fin 1024) (σ : IrqState) :
    Option IrqState := do
  let (ret, σ) ← irqHandlers irq (BitVec.ofNat 32 irq) σ
  if ret ≠ .vmIrq then some { σ with deactivated := σ.deactivated ++ [BitVec.ofNat 32 irq] }
  else some σ

/-! ## Ownership -/

/-- The virtual interrupt in a list register, `lr & 0x3ff`. -/
def lrVirq (raw : U32) : Fin 1024 := Fin.ofNat 1024 (raw &&& 0x3FF).toNat

namespace IrqState

/-- The list registers of a virtual processor: those of the processors that it runs on, or else the
saved ones. -/
def LrsOf (σ : IrqState) (v : VcpuId) (vcpu : Vcpu) (lr : ℕ → U32) : Prop :=
  (∃ p, σ.current p = v ∧ lr = (σ.gich p).lr) ∨ ((∀ p, σ.current p ≠ v) ∧ lr = vcpu.lr)

/-- Virtual processor `v` holds the value in an occupied list register or in its queue. -/
def Holds (numLr : ℕ) (σ : IrqState) (v : VcpuId) (raw : U32) : Prop :=
  ∃ vcpu lr, σ.vcpus v = some vcpu ∧ σ.LrsOf v vcpu lr ∧ raw ∈ heldIn numLr lr vcpu.pendingIrqs

/-- A virtual processor holds a virtual interrupt for which its map has the physical one. -/
def Owned (numLr : ℕ) (σ : IrqState) (irq : Fin 1024) : Prop :=
  ∃ v vcpu raw, σ.vcpus v = some vcpu ∧ σ.Holds numLr v raw ∧
    (vcpu.map (lrVirq raw)).pirq = BitVec.ofNat 32 irq

/-- Virtual processor `v` has a free list register or a free entry in its queue. Only what runs on
this processor has list registers to inject to. -/
def Room (numLr : ℕ) (σ : IrqState) (v : VcpuId) : Prop :=
  ∃ vcpu, σ.vcpus v = some vcpu ∧
    ((v = σ.current σ.pcpu ∧ ∃ n < numLr, lrOccupied ((σ.gich σ.pcpu).lr n) = false) ∨
      ∃ i < virqMaxEntries, vcpu.pendingIrqs i = 0)

/-- Virtual processor `v` has room, and the two directions of its map agree on the interrupt. -/
def Accepts (numLr : ℕ) (σ : IrqState) (irq : Fin 1024) (v : VcpuId) : Prop :=
  σ.Room numLr v ∧ ∃ vcpu, σ.vcpus v = some vcpu ∧ (vcpu.map irq).virq ≠ virqInvalid ∧
    (vcpu.map (lrVirq (vcpu.map irq).virq)).pirq = BitVec.ofNat 32 irq

end IrqState

def GuestHandler.named (σ : IrqState) : GuestHandler → List VcpuId
  | .sgi => []
  | .ppi => σ.inflight
  | .spi => σ.vms.map ListedVm.vcpu0

/-- The virtual processors that a handler would forward to: none, those in flight, or the first ones
of the running machines. -/
def GuestHandler.targets (σ : IrqState) : GuestHandler → List VcpuId
  | .sgi => []
  | .ppi => σ.inflight
  | .spi => (σ.vms.filter fun vm => vm.state = .running).map ListedVm.vcpu0

/-! ## A turn -/

/-- The value that `v` is sent for the interrupt. -/
def IrqState.entryFor (irq : Fin 1024) (σ : IrqState) (v : VcpuId) : Option U32 :=
  (σ.vcpus v).bind fun vcpu =>
    if (vcpu.map irq).virq = virqInvalid then none
    else some (lrEntryOf vcpu (vcpu.map irq).virq (BitVec.ofNat 32 irq) injectSw)

structure IrqState.Same (σ σ' : IrqState) : Prop where
  deactivated : σ'.deactivated = σ.deactivated
  vcpus : ∀ w, (σ'.vcpus w).map (fun u => (u.map, u.pcpuid)) =
    (σ.vcpus w).map (fun u => (u.map, u.pcpuid))

/-- The turns for the virtual processors `vs` have left each of them the value that it is sent if it
had room for it. -/
structure IrqState.Forwarded (numLr : ℕ) (irq : Fin 1024) (vs : List VcpuId) (σ σ' : IrqState) :
    Prop where
  same : σ.Same σ'
  holds : ∀ w raw, σ'.Holds numLr w raw ↔
    σ.Holds numLr w raw ∨ (w ∈ vs ∧ σ.Room numLr w ∧ σ.entryFor irq w = some raw)
  room : ∀ w, σ'.Room numLr w → σ.Room numLr w
  room_of_notMem : ∀ w, w ∉ vs → σ.Room numLr w → σ'.Room numLr w

section Turn

variable {numLr : ℕ} {irq : Fin 1024} {σ σ' : IrqState} {v : VcpuId}

theorem IrqState.Same.entryFor (h : σ.Same σ') (irq : Fin 1024) (w : VcpuId) :
    σ'.entryFor irq w = σ.entryFor irq w := by
  have hw := h.vcpus w
  rw [IrqState.entryFor, IrqState.entryFor]
  cases hu : σ.vcpus w with
  | none =>
      rw [hu, Option.map_none, Option.map_eq_none_iff] at hw
      rw [hw]
  | some u =>
      rw [hu, Option.map_some, Option.map_eq_some_iff] at hw
      obtain ⟨u', hu', hpair⟩ := hw
      rw [Prod.mk.injEq] at hpair
      rw [hu', Option.bind_some, Option.bind_some, hpair.1, lrEntryOf, lrEntryOf, hpair.2]

theorem IrqState.Same.refl (σ : IrqState) : σ.Same σ := ⟨rfl, fun _ => rfl⟩

theorem IrqState.Same.trans {σ'' : IrqState} (h : σ.Same σ') (h' : σ'.Same σ'') : σ.Same σ'' :=
  ⟨h'.deactivated.trans h.deactivated, fun w => (h'.vcpus w).trans (h.vcpus w)⟩

theorem IrqState.Forwarded.nil (σ : IrqState) : σ.Forwarded numLr irq [] σ :=
  ⟨.refl σ, fun w raw => by simp, fun _ h => h, fun _ _ h => h⟩

/-- A virtual processor that occurs again has been sent the interrupt the first time. -/
theorem IrqState.Forwarded.cons {vs : List VcpuId} {σ'' : IrqState}
    (h : σ.Forwarded numLr irq [v] σ') (h' : σ'.Forwarded numLr irq vs σ'') :
    σ.Forwarded numLr irq (v :: vs) σ'' := by
  refine ⟨h.same.trans h'.same, fun w raw => ?_, fun w hw => h.room w (h'.room w hw),
    fun w hw hroom => ?_⟩
  · rw [h'.holds, h.holds, h.same.entryFor, List.mem_singleton, List.mem_cons]
    constructor
    · rintro ((hold | ⟨hv, hroom, hentry⟩) | ⟨hvs, hroom, hentry⟩)
      · exact .inl hold
      · exact .inr ⟨.inl hv, hroom, hentry⟩
      · exact .inr ⟨.inr hvs, h.room w hroom, hentry⟩
    · rintro (hold | ⟨hmem, hroom, hentry⟩)
      · exact .inl (.inl hold)
      · by_cases hv : w = v
        · exact .inl (.inr ⟨hv, hroom, hentry⟩)
        · refine .inr ⟨hmem.resolve_left hv, ?_, hentry⟩
          exact h.room_of_notMem w (fun hw => hv (List.mem_singleton.mp hw)) hroom
  · rw [List.mem_cons, not_or] at hw
    exact h'.room_of_notMem w hw.2
      (h.room_of_notMem w (fun hv => hw.1 (List.mem_singleton.mp hv)) hroom)

namespace IrqState

variable {w : VcpuId} {vcpu vcpu' : Vcpu} {g : Gich} {raw : U32}

theorem holds_some (hv : σ.vcpus v = some vcpu) :
    σ.Holds numLr v raw ↔
      ∃ lr, σ.LrsOf v vcpu lr ∧ raw ∈ heldIn numLr lr vcpu.pendingIrqs := by
  simp [Holds, hv]

theorem room_some (hv : σ.vcpus v = some vcpu) :
    σ.Room numLr v ↔
      (v = σ.current σ.pcpu ∧ ∃ n < numLr, lrOccupied ((σ.gich σ.pcpu).lr n) = false) ∨
        ∃ i < virqMaxEntries, vcpu.pendingIrqs i = 0 := by
  simp [Room, hv]

theorem lrsOf_running (hrun : v = σ.current σ.pcpu) (vcpu : Vcpu) (lr : ℕ → U32) :
    σ.LrsOf v vcpu lr ↔ lr = (σ.gich σ.pcpu).lr ∨
      ∃ p, p ≠ σ.pcpu ∧ σ.current p = v ∧ lr = (σ.gich p).lr := by
  have hnone : ¬ ∀ p, σ.current p ≠ v := fun hall => hall σ.pcpu hrun.symm
  rw [LrsOf, or_iff_left fun h => hnone h.1]
  constructor
  · rintro ⟨p, hp, hlr⟩
    by_cases hpcpu : p = σ.pcpu
    · exact .inl (hpcpu ▸ hlr)
    · exact .inr ⟨p, hpcpu, hp, hlr⟩
  · rintro (hlr | ⟨p, -, hp, hlr⟩)
    · exact ⟨σ.pcpu, hrun.symm, hlr⟩
    · exact ⟨p, hp, hlr⟩

theorem vcpus_store_self : (σ.store v vcpu g).vcpus v = some vcpu := Function.update_self ..

theorem vcpus_store_of_ne (hw : w ≠ v) : (σ.store v vcpu g).vcpus w = σ.vcpus w :=
  Function.update_of_ne hw ..

theorem gich_store_self : (σ.store v vcpu g).gich σ.pcpu = g := Function.update_self ..

theorem gich_store_of_ne {p : PcpuId} (hp : p ≠ σ.pcpu) :
    (σ.store v vcpu g).gich p = σ.gich p := Function.update_of_ne hp ..

theorem gich_store_same (p : PcpuId) : (σ.store v vcpu (σ.gich σ.pcpu)).gich p = σ.gich p := by
  rw [store]
  dsimp only
  rw [Function.update_eq_self]

theorem same_store (hv : σ.vcpus v = some vcpu) (hmap : vcpu'.map = vcpu.map)
    (hpcpuid : vcpu'.pcpuid = vcpu.pcpuid) : σ.Same (σ.store v vcpu' g) := by
  refine ⟨rfl, fun w => ?_⟩
  by_cases hw : w = v
  · rw [hw, vcpus_store_self, hv, Option.map_some, Option.map_some, hmap, hpcpuid]
  · rw [vcpus_store_of_ne hw]

/-- Another processor has the same list registers, unless those of the interface are its own. -/
theorem lrsOf_store_of_ne (hw : w ≠ σ.current σ.pcpu ∨ g = σ.gich σ.pcpu) (u : Vcpu)
    (lr : ℕ → U32) : (σ.store v vcpu g).LrsOf w u lr ↔ σ.LrsOf w u lr := by
  have hgich : ∀ p, σ.current p = w → (σ.store v vcpu g).gich p = σ.gich p := by
    intro p hp
    rcases hw with hne | rfl
    · exact gich_store_of_ne fun h => hne (by rw [← hp, h])
    · exact gich_store_same p
  refine or_congr (exists_congr fun p => ?_) Iff.rfl
  exact and_congr_right fun hp => by rw [hgich p hp]

theorem holds_store_of_ne (hw : w ≠ v) (hg : w ≠ σ.current σ.pcpu ∨ g = σ.gich σ.pcpu) :
    (σ.store v vcpu g).Holds numLr w raw ↔ σ.Holds numLr w raw := by
  refine exists_congr fun u => exists_congr fun lr => ?_
  rw [vcpus_store_of_ne hw, lrsOf_store_of_ne hg]

theorem room_store_of_ne (hw : w ≠ v) (hg : w ≠ σ.current σ.pcpu ∨ g = σ.gich σ.pcpu) :
    (σ.store v vcpu g).Room numLr w ↔ σ.Room numLr w := by
  have hlr : w = σ.current σ.pcpu → (σ.store v vcpu g).gich σ.pcpu = σ.gich σ.pcpu := by
    intro hrun
    rcases hg with hne | rfl
    · exact absurd hrun hne
    · exact gich_store_same _
  refine exists_congr fun u => ?_
  rw [vcpus_store_of_ne hw]
  refine and_congr_right fun _ => or_congr (and_congr_right fun hrun => ?_) Iff.rfl
  change (∃ n < numLr, lrOccupied (((σ.store v vcpu g).gich σ.pcpu).lr n) = false) ↔ _
  rw [hlr hrun]

/-- What a call of `virq_hw->forward_irq` with an entry leaves. -/
structure Sent (numLr : ℕ) (v : VcpuId) (entry : U32) (σ σ' : IrqState) : Prop where
  same : σ.Same σ'
  holds : ∀ w raw, σ'.Holds numLr w raw ↔
    σ.Holds numLr w raw ∨ (w = v ∧ σ.Room numLr w ∧ raw = entry)
  room : ∀ w, σ'.Room numLr w → σ.Room numLr w
  room_of_ne : ∀ w, w ≠ v → σ.Room numLr w → σ'.Room numLr w

theorem sent_store {entry : U32} (hv : σ.vcpus v = some vcpu) (hmap : vcpu'.map = vcpu.map)
    (hpcpuid : vcpu'.pcpuid = vcpu.pcpuid) (hg : v = σ.current σ.pcpu ∨ g = σ.gich σ.pcpu)
    (hholds : ∀ raw, (σ.store v vcpu' g).Holds numLr v raw ↔
      σ.Holds numLr v raw ∨ (σ.Room numLr v ∧ raw = entry))
    (hroom : (σ.store v vcpu' g).Room numLr v → σ.Room numLr v) :
    σ.Sent numLr v entry (σ.store v vcpu' g) := by
  have hother : ∀ {w}, w ≠ v → w ≠ σ.current σ.pcpu ∨ g = σ.gich σ.pcpu := fun hw =>
    hg.imp_left fun hrun hcur => hw (hcur.trans hrun.symm)
  refine ⟨same_store hv hmap hpcpuid, fun w raw => ?_, fun w hw => ?_, fun w hw => ?_⟩
  · by_cases hw : w = v
    · subst hw
      rw [hholds, and_iff_right rfl]
    · rw [holds_store_of_ne hw (hother hw)]
      exact ⟨.inl, fun h => h.resolve_right fun hnew => hw hnew.1⟩
  · by_cases hself : w = v
    · subst hself
      exact hroom hw
    · exact (room_store_of_ne hself (hother hself)).mp hw
  · exact (room_store_of_ne hw (hother hw)).mpr

theorem mem_heldIn_writeLr {n : ℕ} (hn : n < numLr) {g : Gich} (hfree : lrOccupied (g.lr n) = false)
    {entry : U32} (hentry : lrOccupied entry = true) (pending : ℕ → U32) :
    raw ∈ heldIn numLr (g.writeLr n entry).lr pending ↔
      raw ∈ heldIn numLr g.lr pending ∨ raw = entry := by
  rw [heldIn, Gich.writeLr, contents_fill hn hfree hentry, heldIn, add_right_comm,
    Multiset.mem_add, Multiset.mem_singleton]

theorem mem_heldIn_storePending {i : ℕ} (hi : i < virqMaxEntries) {pending : ℕ → U32}
    (hfree : pending i = 0) {entry : U32} (hentry : entryUsed entry = true) (lr : ℕ → U32) :
    raw ∈ heldIn numLr lr (Function.update pending i entry) ↔
      raw ∈ heldIn numLr lr pending ∨ raw = entry := by
  have hempty : entryUsed (pending i) = false := by
    rw [hfree]
    decide
  rw [heldIn, contents_fill hi hempty hentry, heldIn, ← add_assoc, Multiset.mem_add,
    Multiset.mem_singleton]

theorem lrsOf_store_running (hcur : v = σ.current σ.pcpu) (u : Vcpu) (lr : ℕ → U32) :
    (σ.store v vcpu g).LrsOf v u lr ↔ lr = g.lr ∨
      ∃ p, p ≠ σ.pcpu ∧ σ.current p = v ∧ lr = (σ.gich p).lr := by
  have hrunning : v = (σ.store v vcpu g).current (σ.store v vcpu g).pcpu := hcur
  rw [lrsOf_running hrunning]
  refine or_congr ?_ (exists_congr fun p => and_congr_right fun hp => ?_)
  · change lr = ((σ.store v vcpu g).gich σ.pcpu).lr ↔ _
    rw [gich_store_self]
  · have hother : p ≠ σ.pcpu := hp
    rw [gich_store_of_ne hother]
    exact Iff.rfl

/-- The entry goes to a free list register of the processor that runs here. -/
theorem sent_writeLr {entry : U32} {n : ℕ} (hv : σ.vcpus v = some vcpu)
    (hcur : v = σ.current σ.pcpu) (hn : n < numLr)
    (hfree : lrOccupied ((σ.gich σ.pcpu).lr n) = false) (hentry : lrOccupied entry = true) :
    σ.Sent numLr v entry (σ.store v vcpu ((σ.gich σ.pcpu).writeLr n entry)) := by
  have hroom : σ.Room numLr v := (room_some hv).mpr (.inl ⟨hcur, n, hn, hfree⟩)
  refine sent_store hv rfl rfl (.inl hcur) (fun raw => ?_) fun _ => hroom
  rw [holds_some vcpus_store_self, holds_some hv, and_iff_right hroom]
  simp only [lrsOf_store_running hcur, lrsOf_running hcur, or_and_right, exists_or, exists_eq_left,
    mem_heldIn_writeLr hn hfree hentry]
  rw [or_right_comm]

theorem sent_storePending {entry : U32} {i : ℕ} (hv : σ.vcpus v = some vcpu)
    (hi : i < virqMaxEntries) (hfree : vcpu.pendingIrqs i = 0) (hentry : entryUsed entry = true) :
    σ.Sent numLr v entry (σ.store v (storePending i entry vcpu) (σ.gich σ.pcpu)) := by
  have hroom : σ.Room numLr v := (room_some hv).mpr (.inr ⟨i, hi, hfree⟩)
  have hexists : ∃ lr, σ.LrsOf v vcpu lr := by
    by_cases hrun : ∃ p, σ.current p = v
    · obtain ⟨p, hp⟩ := hrun
      exact ⟨_, .inl ⟨p, hp, rfl⟩⟩
    · exact ⟨_, .inr ⟨fun p hp => hrun ⟨p, hp⟩, rfl⟩⟩
  obtain ⟨lr₀, hlr₀⟩ := hexists
  refine sent_store hv rfl rfl (.inr rfl) (fun raw => ?_) fun _ => hroom
  rw [holds_some vcpus_store_self, holds_some hv, and_iff_right hroom]
  simp only [lrsOf_store_of_ne (.inr rfl), storePending, mem_heldIn_storePending hi hfree hentry,
    and_or_left, exists_or]
  exact or_congr Iff.rfl ⟨fun ⟨_, _, hraw⟩ => hraw, fun hraw => ⟨lr₀, hlr₀, hraw⟩⟩

theorem sent_refused (entry : U32) (hv : σ.vcpus v = some vcpu) (hnone : ¬ σ.Room numLr v) :
    σ.Sent numLr v entry (σ.store v vcpu (σ.gich σ.pcpu)) := by
  refine sent_store hv rfl rfl (.inr rfl) (fun raw => ?_) fun hroom => ?_
  · rw [holds_some vcpus_store_self, holds_some hv, or_iff_left fun h => hnone h.1]
    simp only [lrsOf_store_of_ne (.inr rfl)]
  · have hgich : (σ.store v vcpu (σ.gich σ.pcpu)).gich σ.pcpu = σ.gich σ.pcpu := gich_store_same _
    rw [room_some vcpus_store_self] at hroom
    refine (room_some hv).mpr (hroom.imp_left fun hfree => ⟨hfree.1, ?_⟩)
    rw [← hgich]
    exact hfree.2

theorem forwardIrq_spec (hnum : numLr ≤ 64) (hv : σ.vcpus v = some vcpu) (virq pirq : U32)
    (hw : U8) :
    ∃ σ', σ.forwardIrq numLr v virq pirq hw = some σ' ∧
      σ.Sent numLr v (lrEntryOf vcpu virq pirq hw) σ' := by
  have hbit := getLsbD_lrEntryOf vcpu virq pirq hw
  rw [forwardIrq, hv, Option.map_some]
  refine ⟨_, rfl, ?_⟩
  rcases virqInject_cases hnum (v == σ.current σ.pcpu) vcpu virq pirq hw (σ.gich σ.pcpu) with
    ⟨hrun, n, hn, hfree, heq⟩ | ⟨i, hi, hfree, heq⟩ | ⟨heq, hfull⟩
  · rw [heq]
    exact sent_writeLr hv (beq_iff_eq.mp hrun) hn hfree (lrOccupied_of_getLsbD hbit)
  · rw [heq]
    exact sent_storePending hv hi hfree (entryUsed_of_getLsbD hbit)
  · have hnone : ¬ σ.Room numLr v := by
      rw [room_some hv]
      rintro (⟨hcur, n, hn, hfree⟩ | ⟨i, hi, hempty⟩)
      · obtain ⟨j, -, -, hdone⟩ := virqInject_of_free hnum hn hfree vcpu virq pirq hw
        rw [beq_iff_eq.mpr hcur, hdone] at heq
        exact Bool.noConfusion (congrArg Prod.fst heq)
      · exact hfull i hi hempty
    rw [heq]
    exact sent_refused _ hv hnone

/-- A turn of the loop of `is_guest_ppi`. -/
theorem ppiTurn_spec (hnum : numLr ≤ 64) (h : σ.ppiTurn numLr (BitVec.ofNat 32 irq) v = some σ') :
    σ.Forwarded numLr irq [v] σ' := by
  rw [ppiTurn] at h
  cases hv : σ.vcpus v with
  | none =>
      rw [hv] at h
      cases h
  | some vcpu =>
      have hentry : σ.entryFor irq v = if (vcpu.map irq).virq = virqInvalid then none
          else some (lrEntryOf vcpu (vcpu.map irq).virq (BitVec.ofNat 32 irq) injectSw) := by
        rw [entryFor, hv, Option.bind_some]
      simp only [hv, pirqToVirq, mapIndex_ofNat, Option.map_some, Option.bind_eq_bind,
        Option.bind_some] at h
      by_cases hvirq : (vcpu.map irq).virq = virqInvalid
      · rw [if_pos hvirq, Option.some.injEq] at h
        rw [if_pos hvirq] at hentry
        subst h
        refine ⟨.refl σ, fun w raw => ⟨.inl, fun hw => hw.resolve_right ?_⟩, fun _ h => h,
          fun _ _ h => h⟩
        rintro ⟨hw, -, hsome⟩
        rw [List.mem_singleton.mp hw, hentry] at hsome
        cases hsome
      · rw [if_neg hvirq] at h hentry
        obtain ⟨τ, hτ, hsent⟩ := forwardIrq_spec hnum hv (vcpu.map irq).virq (BitVec.ofNat 32 irq)
          injectSw
        rw [hτ, Option.some.injEq] at h
        subst h
        refine ⟨hsent.same, fun w raw => ?_, hsent.room, fun w hw =>
          hsent.room_of_ne w fun hwv => hw (List.mem_singleton.mpr hwv)⟩
        rw [hsent.holds, List.mem_singleton]
        refine or_congr Iff.rfl (and_congr_right fun hwv => and_congr_right fun _ => ?_)
        rw [hwv, hentry, Option.some.injEq, eq_comm]

theorem foldlM_ppiTurn_spec (hnum : numLr ≤ 64) {vs : List VcpuId}
    (h : vs.foldlM (ppiTurn numLr (BitVec.ofNat 32 irq)) σ = some σ') :
    σ.Forwarded numLr irq vs σ' := by
  induction vs generalizing σ with
  | nil =>
      rw [List.foldlM_nil] at h
      cases h
      exact .nil _
  | cons v vs ih =>
      rw [List.foldlM_cons] at h
      obtain ⟨τ, hτ, hrest⟩ := Option.bind_eq_some_iff.mp h
      exact (ppiTurn_spec hnum hτ).cons (ih hrest)

/-- A running machine is sent what a virtual processor in flight is sent, and any other nothing. -/
theorem spiTurn_eq (σ : IrqState) (vm : ListedVm) {vcpu : Vcpu}
    (hv : σ.vcpus vm.vcpu0 = some vcpu) :
    σ.spiTurn numLr (BitVec.ofNat 32 irq) vm =
      if vm.state = .running then σ.ppiTurn numLr (BitVec.ofNat 32 irq) vm.vcpu0 else some σ := by
  simp only [spiTurn, ppiTurn, KHypervisor.spiTurn, hv, pirqToVirq, mapIndex_ofNat,
    Option.map_some, Option.bind_eq_bind, Option.bind_some]
  by_cases hrun : vm.state = .running
  · by_cases hvirq : (vcpu.map irq).virq = virqInvalid
    · rw [if_pos (.inl hvirq), if_pos hrun, if_pos hvirq]
      rfl
    · rw [if_neg (by simp [hvirq, hrun]), if_pos hrun, if_neg hvirq]
      rw [List.foldlM_cons]
      simp only [List.foldlM_nil, bind_pure]
  · rw [if_pos (.inr hrun), if_neg hrun]
    rfl

theorem foldlM_spiTurn_spec (hnum : numLr ≤ 64) {vms : List ListedVm}
    (h : vms.foldlM (spiTurn numLr (BitVec.ofNat 32 irq)) σ = some σ') :
    σ.Forwarded numLr irq ((vms.filter fun vm => vm.state = .running).map ListedVm.vcpu0) σ' := by
  induction vms generalizing σ with
  | nil =>
      rw [List.foldlM_nil] at h
      cases h
      exact .nil _
  | cons vm vms ih =>
      rw [List.foldlM_cons] at h
      obtain ⟨τ, hτ, hrest⟩ := Option.bind_eq_some_iff.mp h
      cases hv : σ.vcpus vm.vcpu0 with
      | none =>
          rw [spiTurn, hv] at hτ
          cases hτ
      | some vcpu =>
          rw [spiTurn_eq σ vm hv] at hτ
          by_cases hrun : vm.state = .running
          · rw [if_pos hrun] at hτ
            rw [List.filter_cons_of_pos (by simpa using hrun), List.map_cons]
            exact (ppiTurn_spec hnum hτ).cons (ih hrest)
          · rw [if_neg hrun, Option.some.injEq] at hτ
            rw [List.filter_cons_of_neg (by simpa using hrun)]
            subst hτ
            exact ih hrest

/-! ## A handler -/

theorem isSome_ppiTurn (numLr : ℕ) (irq : Fin 1024) (hv : (σ.vcpus v).isSome = true) :
    ∃ σ', σ.ppiTurn numLr (BitVec.ofNat 32 irq) v = some σ' := by
  obtain ⟨vcpu, hv⟩ := Option.isSome_iff_exists.mp hv
  simp only [ppiTurn, hv, pirqToVirq, mapIndex_ofNat, Option.map_some, Option.bind_eq_bind,
    Option.bind_some]
  split
  · exact ⟨σ, rfl⟩
  · exact ⟨_, by rw [forwardIrq, hv, Option.map_some]⟩

theorem Same.isSome (h : σ.Same σ') (w : VcpuId) : (σ'.vcpus w).isSome = (σ.vcpus w).isSome := by
  rw [← Option.isSome_map, h.vcpus, Option.isSome_map]

theorem isSome_foldlM_ppiTurn (irq : Fin 1024) (hnum : numLr ≤ 64) {vs : List VcpuId}
    (hvs : ∀ v ∈ vs, (σ.vcpus v).isSome = true) :
    ∃ σ', vs.foldlM (ppiTurn numLr (BitVec.ofNat 32 irq)) σ = some σ' := by
  induction vs generalizing σ with
  | nil => exact ⟨σ, rfl⟩
  | cons v vs ih =>
      obtain ⟨τ, hτ⟩ := isSome_ppiTurn numLr irq (hvs v List.mem_cons_self)
      have hsame := (ppiTurn_spec hnum hτ).same
      obtain ⟨σ', hσ'⟩ := ih fun w hw => (hsame.isSome w).trans (hvs w (List.mem_cons_of_mem _ hw))
      exact ⟨σ', by rw [List.foldlM_cons, hτ]; exact hσ'⟩

theorem isSome_foldlM_spiTurn (irq : Fin 1024) (hnum : numLr ≤ 64) {vms : List ListedVm}
    (hvms : ∀ vm ∈ vms, (σ.vcpus vm.vcpu0).isSome = true) :
    ∃ σ', vms.foldlM (spiTurn numLr (BitVec.ofNat 32 irq)) σ = some σ' := by
  induction vms generalizing σ with
  | nil => exact ⟨σ, rfl⟩
  | cons vm vms ih =>
      have hvm := hvms vm List.mem_cons_self
      have htail := fun u hu => hvms u (List.mem_cons_of_mem vm hu)
      have hturn : ∃ τ, σ.spiTurn numLr (BitVec.ofNat 32 irq) vm = some τ ∧ σ.Same τ := by
        obtain ⟨vcpu, hv⟩ := Option.isSome_iff_exists.mp hvm
        rw [spiTurn_eq σ vm hv]
        by_cases hrun : vm.state = .running
        · obtain ⟨τ, hτ⟩ := isSome_ppiTurn numLr irq hvm
          exact ⟨τ, by rw [if_pos hrun, hτ], (ppiTurn_spec hnum hτ).same⟩
        · exact ⟨σ, if_neg hrun, .refl σ⟩
      obtain ⟨τ, hτ, hsame⟩ := hturn
      obtain ⟨σ', hσ'⟩ := ih fun u hu => (hsame.isSome u.vcpu0).trans (htail u hu)
      exact ⟨σ', by rw [List.foldlM_cons, hτ]; exact hσ'⟩

theorem lrVirq_lrEntryOf (vcpu : Vcpu) (virq pirq : U32) :
    lrVirq (lrEntryOf vcpu virq pirq injectSw) = lrVirq virq := by
  have hmask : ∀ i < 32, (0x3FF : U32).getLsbD i = decide (i < 10) := by decide
  have hlow : ∀ i < 10, (0x10000000 : U32).getLsbD i = false := by decide
  have hbits : ∀ x : U32, ((0x10000000 : U32) ||| injectSw.setWidth 32 <<< 31 ||| x <<< 10 |||
      virq) &&& 0x3FF = virq &&& 0x3FF := by
    intro x
    apply BitVec.eq_of_getLsbD_eq
    intro i hi
    rw [BitVec.getLsbD_and, BitVec.getLsbD_and, hmask i hi]
    by_cases hi10 : i < 10
    · have hhw : (injectSw.setWidth 32 <<< 31).getLsbD i = false := by simp [injectSw]
      have hshift : (x <<< 10).getLsbD i = false := by simp [hi10]
      rw [BitVec.getLsbD_or, BitVec.getLsbD_or, BitVec.getLsbD_or, hlow i hi10, hhw, hshift]
      rfl
    · rw [decide_eq_false hi10, Bool.and_false, Bool.and_false]
  rw [lrVirq, lrEntryOf, setLrEntry, hbits, lrVirq]

/-- The value that a processor is sent is its own again if its map agrees. -/
theorem accepts_iff : σ.Accepts numLr irq v ↔ σ.Room numLr v ∧ ∃ vcpu raw,
    σ.vcpus v = some vcpu ∧ σ.entryFor irq v = some raw ∧
      (vcpu.map (lrVirq raw)).pirq = BitVec.ofNat 32 irq := by
  refine and_congr_right fun _ => exists_congr fun vcpu => ?_
  rw [exists_and_left]
  refine and_congr_right fun hv => ?_
  rw [entryFor, hv, Option.bind_some]
  by_cases hvirq : (vcpu.map irq).virq = virqInvalid
  · simp [hvirq]
  · rw [if_neg hvirq, and_iff_right hvirq]
    simp only [Option.some.injEq, exists_eq_left', lrVirq_lrEntryOf]

theorem Same.owned_iff (h : σ.Same σ') :
    σ'.Owned numLr irq ↔ ∃ v vcpu raw, σ.vcpus v = some vcpu ∧ σ'.Holds numLr v raw ∧
      (vcpu.map (lrVirq raw)).pirq = BitVec.ofNat 32 irq := by
  refine exists_congr fun v => ?_
  have hv := h.vcpus v
  constructor
  · rintro ⟨u', raw, hu', hholds, hpirq⟩
    rw [hu', Option.map_some, eq_comm, Option.map_eq_some_iff] at hv
    obtain ⟨u, hu, hpair⟩ := hv
    rw [Prod.mk.injEq] at hpair
    exact ⟨u, raw, hu, hholds, by rw [hpair.1, hpirq]⟩
  · rintro ⟨u, raw, hu, hholds, hpirq⟩
    rw [hu, Option.map_some, Option.map_eq_some_iff] at hv
    obtain ⟨u', hu', hpair⟩ := hv
    rw [Prod.mk.injEq] at hpair
    exact ⟨u', raw, hu', hholds, by rw [hpair.1, hpirq]⟩

/-- Somebody owns the interrupt after it was sent on if somebody did before, or accepts it. -/
theorem Forwarded.owned_iff {vs : List VcpuId} (h : σ.Forwarded numLr irq vs σ') :
    σ'.Owned numLr irq ↔ σ.Owned numLr irq ∨ ∃ v ∈ vs, σ.Accepts numLr irq v := by
  rw [h.same.owned_iff, Owned]
  constructor
  · rintro ⟨v, vcpu, raw, hv, hholds, hpirq⟩
    rcases (h.holds v raw).mp hholds with hold | ⟨hmem, hroom, hentry⟩
    · exact .inl ⟨v, vcpu, raw, hv, hold, hpirq⟩
    · exact .inr ⟨v, hmem, accepts_iff.mpr ⟨hroom, vcpu, raw, hv, hentry, hpirq⟩⟩
  · rintro (⟨v, vcpu, raw, hv, hold, hpirq⟩ | ⟨v, hmem, haccepts⟩)
    · exact ⟨v, vcpu, raw, hv, (h.holds v raw).mpr (.inl hold), hpirq⟩
    · obtain ⟨hroom, vcpu, raw, hv, hentry, hpirq⟩ := accepts_iff.mp haccepts
      exact ⟨v, vcpu, raw, hv, (h.holds v raw).mpr (.inr ⟨hmem, hroom, hentry⟩), hpirq⟩

end IrqState

/-- A handler of the guests' interrupts sends them on to its targets, and returns `VM_IRQ`. -/
theorem GuestHandler.run_spec (hnum : numLr ≤ 64) (g : GuestHandler) {ret : IrqReturn}
    (h : g.run numLr (BitVec.ofNat 32 irq) σ = some (ret, σ')) :
    ret = .vmIrq ∧ σ.Forwarded numLr irq (g.targets σ) σ' := by
  cases g with
  | sgi =>
      cases h
      exact ⟨rfl, .nil σ⟩
  | ppi =>
      obtain ⟨τ, hτ, hpair⟩ := Option.map_eq_some_iff.mp h
      cases hpair
      exact ⟨rfl, IrqState.foldlM_ppiTurn_spec hnum hτ⟩
  | spi =>
      obtain ⟨τ, hτ, hpair⟩ := Option.map_eq_some_iff.mp h
      cases hpair
      exact ⟨rfl, IrqState.foldlM_spiTurn_spec hnum hτ⟩

theorem GuestHandler.isSome_run (hnum : numLr ≤ 64) (irq : Fin 1024) (g : GuestHandler)
    (h : ∀ v ∈ g.named σ, (σ.vcpus v).isSome = true) :
    ∃ r, g.run numLr (BitVec.ofNat 32 irq) σ = some r := by
  cases g with
  | sgi => exact ⟨_, rfl⟩
  | ppi =>
      have hinflight : ∀ v ∈ σ.inflight, (σ.vcpus v).isSome = true := h
      obtain ⟨τ, hτ⟩ := IrqState.isSome_foldlM_ppiTurn irq hnum hinflight
      exact ⟨(.vmIrq, τ), by rw [GuestHandler.run, isGuestPpi, hτ, Option.map_some]⟩
  | spi =>
      obtain ⟨τ, hτ⟩ := IrqState.isSome_foldlM_spiTurn irq hnum fun vm hvm =>
        h vm.vcpu0 (List.mem_map_of_mem hvm)
      exact ⟨(.vmIrq, τ), by rw [GuestHandler.run, isGuestSpiIrq, hτ, Option.map_some]⟩

end Turn

/-- `do_irq` of an interrupt of the guests ends if the virtual processors that its handler looks at
are there. Afterwards the interrupt has been deactivated or has an owner if and only if it had an
owner before, or one of those that it is sent to accepts it. -/
theorem irq_owned_iff {numLr : ℕ} (hnum : numLr ≤ 64) {irqHandlers : Fin 1024 → IrqHandler}
    {irq : Fin 1024} {g : GuestHandler} (hg : irqHandlers irq = g.run numLr) (σ : IrqState) :
    ((∀ v ∈ g.named σ, (σ.vcpus v).isSome = true) → ∃ σ', doIrq irqHandlers irq σ = some σ') ∧
      ∀ σ', doIrq irqHandlers irq σ = some σ' →
        ((σ'.deactivated = σ.deactivated ++ [BitVec.ofNat 32 irq] ∨ σ'.Owned numLr irq) ↔
          σ.Owned numLr irq ∨ ∃ v ∈ g.targets σ, σ.Accepts numLr irq v) := by
  refine ⟨fun hnamed => ?_, fun σ' hσ' => ?_⟩
  · obtain ⟨⟨ret, τ⟩, hrun⟩ := g.isSome_run hnum irq hnamed
    obtain ⟨rfl, -⟩ := g.run_spec hnum hrun
    exact ⟨τ, by rw [doIrq, hg, hrun]; rfl⟩
  · obtain ⟨⟨ret, τ⟩, hrun, hret⟩ := Option.bind_eq_some_iff.mp hσ'
    rw [hg] at hrun
    obtain ⟨rfl, hforwarded⟩ := g.run_spec hnum hrun
    cases hret
    have hkept : σ'.deactivated ≠ σ.deactivated ++ [BitVec.ofNat 32 irq.val] := by
      rw [hforwarded.same.deactivated]
      simp
    rw [or_iff_right hkept, hforwarded.owned_iff]

/-- Virtual machine 0 runs with the map that `vcpu_init` has left it. -/
def oneMachine : IrqState where
  pcpu := 0
  inflight := [0]
  vms := [⟨0, .running, 0⟩]
  vcpus v := if v = 0 then some { (default : Vcpu) with map := initMap true 0 } else none
  gich _ := default
  current _ := 0
  deactivated := []

theorem irq_owned_iff_oneMachine :
    ((∀ v ∈ GuestHandler.spi.named oneMachine, (oneMachine.vcpus v).isSome = true) →
        ∃ σ', doIrq (irqHandlerInit 4 fun _ => none) 50 oneMachine = some σ') ∧
      ∀ σ', doIrq (irqHandlerInit 4 fun _ => none) 50 oneMachine = some σ' →
        ((σ'.deactivated = oneMachine.deactivated ++ [50] ∨ σ'.Owned 4 50) ↔
          oneMachine.Owned 4 50 ∨
            ∃ v ∈ GuestHandler.spi.targets oneMachine, oneMachine.Accepts 4 50 v) :=
  irq_owned_iff (by decide) (g := .spi) rfl oneMachine

theorem not_owned_oneMachine (irq : Fin 1024) : ¬ oneMachine.Owned 4 irq := by
  have hzero : ∀ raw : U32, raw ∉ heldIn 4 (fun _ => 0) (fun _ => 0) := by
    have hheld : heldIn 4 (fun _ => 0) (fun _ => 0) = 0 := by decide +kernel
    rw [hheld]
    exact fun raw => Multiset.notMem_zero raw
  rintro ⟨v, vcpu, raw, -, ⟨u, lr, hu, hlr, hmem⟩, -⟩
  by_cases hv : v = 0
  · obtain rfl : _ = u := Option.some.inj ((if_pos hv).symm.trans hu)
    rcases hlr with ⟨p, -, rfl⟩ | ⟨-, rfl⟩
    · exact hzero raw hmem
    · exact hzero raw hmem
  · exact absurd ((if_neg hv).symm.trans hu) (by simp)

/-- Interrupt 50 is acknowledged although no machine has it in its map, and remains active. -/
theorem unmapped_spi_stays_active :
    ∃ σ', doIrq (irqHandlerInit 4 fun _ => none) 50 oneMachine = some σ' ∧
      ¬ (σ'.deactivated = oneMachine.deactivated ++ [50] ∨ σ'.Owned 4 50) := by
  have hdeactivated : oneMachine.deactivated ≠ oneMachine.deactivated ++ [50] := by simp
  exact ⟨oneMachine, rfl, fun h => h.elim hdeactivated (not_owned_oneMachine 50)⟩

end KHypervisor
