import KHypervisor.Vdev.IrqOwnership
import KHypervisor.Vm.VirqDelivery

/-!
# No virtual interrupt is in two list registers

The virtual interface must not find an interrupt in two list registers that are pending or active.
Nothing looks for an interrupt before it is stored to a list register, whether it is injected or
comes from the queue, so that it is there twice once it is sent again before the guest is done with
it. This module says which runs have the list registers to themselves.
-/

namespace KHypervisor

open BitScan Run Slots

/-! ## The maintenance interrupt -/

/-- `GICH_MISR_EOI`. -/
def gichMisrEoi : U32 := 1

/-- A turn of one of the loops of `gic_isr_maintenance_irq`, with the interrupts deactivated so far.
The second loop clears the list registers from 32 on, but reads those below. -/
def maintenanceTurn (map : Fin 1024 → VirqTable) (shift slot : ℕ) (st : Gich × List U32) :
    Gich × List U32 :=
  let virq := lrVirq (st.1.lr slot)
  let gich := st.1.writeLr (slot + shift) 0
  let pirq := (map virq).pirq
  if pirq ≠ pirqInvalid then (gich, st.2 ++ [pirq]) else (gich, st.2)

/-- `gic_isr_maintenance_irq` with what it reads from `GICH_MISR`, `GICH_EISR(0)` and
`GICH_EISR(1)`, and the interrupts that it deactivates. -/
def gicIsrMaintenanceIrq (misr eisr₀ eisr₁ : U32) (map : Fin 1024 → VirqTable) (g : Gich) :
    IrqReturn × Gich × List U32 :=
  if misr &&& gichMisrEoi ≠ 0 then
    let st := scan (maintenanceTurn map 0) eisr₀ (g, [])
    let st := scan (maintenanceTurn map 32) eisr₁ st
    (.maintenanceIrq, st.1, st.2)
  else (.unexceptedIrq, g, [])

/-! ## Runs -/

/-- A list register in another state, `GICH_LR_STATE`. -/
def lrWithState (state : BitVec 2) (raw : U32) : U32 :=
  raw &&& ~~~((0x3 : U32) <<< 28) ||| state.setWidth 32 <<< 28

/-- An injection, a drain or a switch, the maintenance interrupt, or the progress of the guest,
which has the virtual interface change the state of a list register that is occupied. -/
inductive LrEvent
  | virq (e : VirqEvent)
  | maintenance (misr eisr₀ eisr₁ : U32)
  | guest (n : ℕ) (state : BitVec 2)

def lrStep (numLr : ℕ) (s : DeliveryState) : LrEvent → Option DeliveryState
  | .virq e => virqStep numLr s e
  | .maintenance misr eisr₀ eisr₁ =>
      (s.machine.vcpus s.current).map fun vcpu =>
        s.store s.current vcpu
          (gicIsrMaintenanceIrq misr eisr₀ eisr₁ vcpu.map s.machine.gich).2.1
  | .guest n state =>
      if n < numLr ∧ lrOccupied (s.machine.gich.lr n) = true then
        some { s with machine := { s.machine with
          gich := s.machine.gich.writeLr n (lrWithState state (s.machine.gich.lr n)) } }
      else some s

/-- The events of a run that name processors which are there. -/
def LrEvent.Valid (start : Machine) : LrEvent → Prop
  | .virq e => e.Valid start
  | _ => True

/-! ## Keys -/

/-- What tells the interrupts in list registers apart: the virtual interrupt, and for a software
generated one the processor that it comes from. -/
def lrKey (raw : U32) : Fin 1024 × BitVec 3 :=
  (lrVirq raw, if (lrVirq raw).val < 16 then raw.extractLsb' 10 3 else 0)

/-- No two occupied list registers hold the same interrupt. -/
def UniqueLrs (numLr : ℕ) (lr : ℕ → U32) : Prop :=
  ∀ i < numLr, ∀ j < numLr, lrOccupied (lr i) = true → lrOccupied (lr j) = true →
    lrKey (lr i) = lrKey (lr j) → i = j

/-- Of the interrupts in the list registers and those that a drain of the queue stores to the free
ones, two are the same. -/
def Crowds (numLr : ℕ) (lr : ℕ → U32) (vcpu : Vcpu) : Prop :=
  ¬ ((contents lrOccupied numLr lr + drainedEntries numLr lr
    ((List.range virqMaxEntries).map vcpu.pendingIrqs)).map lrKey).Nodup

/-- The event stores an interrupt to a list register while another one has it: an injection to the
running processor that finds a free list register, or a drain, which ends a switch too. -/
def Duplicates (numLr : ℕ) (s : DeliveryState) : LrEvent → Prop
  | .virq (.inject v virq pirq hw) =>
      v = s.current ∧ (∃ n < numLr, lrOccupied (s.machine.gich.lr n) = false) ∧
        ∃ vcpu, s.machine.vcpus v = some vcpu ∧ ∃ i < numLr,
          lrOccupied (s.machine.gich.lr i) = true ∧
            lrKey (s.machine.gich.lr i) = lrKey (lrEntryOf vcpu virq pirq hw)
  | .virq .drain =>
      ∃ vcpu, s.machine.vcpus s.current = some vcpu ∧ Crowds numLr s.machine.gich.lr vcpu
  | .virq (.switch n) => ∃ vcpu, s.machine.vcpus n = some vcpu ∧ Crowds numLr (s.lrOf n vcpu) vcpu
  | _ => False

theorem uniqueLrs_iff {numLr : ℕ} {lr : ℕ → U32} :
    UniqueLrs numLr lr ↔ ((contents lrOccupied numLr lr).map lrKey).Nodup :=
  (nodup_map_contents lrKey).symm

theorem uniqueLrs_congr {numLr : ℕ} {lr lr' : ℕ → U32} (h : ∀ i < numLr, lr i = lr' i) :
    UniqueLrs numLr lr ↔ UniqueLrs numLr lr' := by
  rw [uniqueLrs_iff, uniqueLrs_iff, contents_congr h]

/-- List registers that have been emptied or have changed their state only. -/
theorem UniqueLrs.of_kept {numLr : ℕ} {lr lr' : ℕ → U32} (h : UniqueLrs numLr lr)
    (hkept : ∀ i < numLr, lrOccupied (lr' i) = true →
      lrOccupied (lr i) = true ∧ lrKey (lr' i) = lrKey (lr i)) : UniqueLrs numLr lr' := by
  intro i hi j hj hoi hoj hkey
  obtain ⟨hoi', hki⟩ := hkept i hi hoi
  obtain ⟨hoj', hkj⟩ := hkept j hj hoj
  rw [hki, hkj] at hkey
  exact h i hi j hj hoi' hoj' hkey

theorem lrKey_lrWithState (state : BitVec 2) (raw : U32) :
    lrKey (lrWithState state raw) = lrKey raw := by
  have hmask : ∀ i < 28, (~~~((0x3 : U32) <<< 28)).getLsbD i = true := by decide
  have hbit : ∀ i < 28, (lrWithState state raw).getLsbD i = raw.getLsbD i := by
    intro i hi
    have hshift : (state.setWidth 32 <<< 28).getLsbD i = false := by
      rw [BitVec.getLsbD_shiftLeft, decide_eq_true hi, Bool.not_true, Bool.and_false,
        Bool.false_and]
    rw [lrWithState, BitVec.getLsbD_or, BitVec.getLsbD_and, hmask i hi, hshift, Bool.and_true,
      Bool.or_false]
  have hvirq : lrVirq (lrWithState state raw) = lrVirq raw := by
    have hlow : ∀ i < 32, (0x3FF : U32).getLsbD i = decide (i < 10) := by decide
    have hand : lrWithState state raw &&& 0x3FF = raw &&& 0x3FF := by
      apply BitVec.eq_of_getLsbD_eq
      intro i hi
      rw [BitVec.getLsbD_and, BitVec.getLsbD_and, hlow i hi]
      by_cases hi10 : i < 10
      · rw [hbit i (by omega)]
      · rw [decide_eq_false hi10, Bool.and_false, Bool.and_false]
    rw [lrVirq, hand, lrVirq]
  have hsource : (lrWithState state raw).extractLsb' 10 3 = raw.extractLsb' 10 3 := by
    apply BitVec.eq_of_getLsbD_eq
    intro i hi
    rw [BitVec.getLsbD_extractLsb', BitVec.getLsbD_extractLsb', hbit (10 + i) (by omega)]
  rw [lrKey, hvirq, hsource, lrKey]

/-! ## Steps -/

/-- No interrupt is twice in the list registers of the interface, nor in the saved ones of a virtual
processor. -/
structure LrInv (numLr : ℕ) (start : Machine) (s : DeliveryState) : Prop where
  delivery : DeliveryInv start s
  running : UniqueLrs numLr s.machine.gich.lr
  saved : ∀ v vcpu, s.machine.vcpus v = some vcpu → UniqueLrs numLr vcpu.lr

variable {numLr : ℕ} {start : Machine} {s t : DeliveryState}

theorem LrInv.lrOf (h : LrInv numLr start s) {v : VcpuId} {vcpu : Vcpu}
    (hv : s.machine.vcpus v = some vcpu) : UniqueLrs numLr (s.lrOf v vcpu) := by
  rw [DeliveryState.lrOf]
  split
  · exact h.running
  · exact h.saved v vcpu hv

/-- The interface is stored to, and a virtual processor in other fields than its list registers. -/
theorem LrInv.store (h : LrInv numLr start s) {v : VcpuId} {vcpu vcpu' : Vcpu}
    (hv : s.machine.vcpus v = some vcpu) (hlr : vcpu'.lr = vcpu.lr) {gich : Gich}
    (hdelivery : DeliveryInv start (s.store v vcpu' gich)) (hgich : UniqueLrs numLr gich.lr) :
    LrInv numLr start (s.store v vcpu' gich) := by
  refine ⟨hdelivery, hgich, fun w u hu => ?_⟩
  by_cases hw : w = v
  · rw [hw] at hu
    obtain rfl : vcpu' = u := Option.some.inj ((setVcpu_vcpus_self _ _ _).symm.trans hu)
    rw [hlr]
    exact h.saved v vcpu hv
  · exact h.saved w u ((setVcpu_vcpus_of_ne _ hw _).symm.trans hu)

/-- An entry for a free list register must be of another interrupt than the occupied ones. -/
theorem uniqueLrs_writeLr {g : Gich} {n : ℕ} (hn : n < numLr) (hfree : lrOccupied (g.lr n) = false)
    {entry : U32} (hentry : lrOccupied entry = true) :
    UniqueLrs numLr (g.writeLr n entry).lr ↔ UniqueLrs numLr g.lr ∧
      ¬ ∃ i < numLr, lrOccupied (g.lr i) = true ∧ lrKey (g.lr i) = lrKey entry := by
  have hfill : contents lrOccupied numLr (g.writeLr n entry).lr =
      contents lrOccupied numLr g.lr + {entry} := contents_fill hn hfree hentry
  rw [uniqueLrs_iff, hfill, add_comm, Multiset.singleton_add, Multiset.map_cons,
    Multiset.nodup_cons, ← uniqueLrs_iff, and_comm, Multiset.mem_map]
  refine and_congr_right fun _ => not_congr ?_
  simp only [mem_contents]
  exact ⟨fun ⟨_, ⟨i, hi, hocc, hraw⟩, hkey⟩ => ⟨i, hi, hocc, by rw [hraw, hkey]⟩,
    fun ⟨i, hi, hocc, hkey⟩ => ⟨_, ⟨i, hi, hocc, rfl⟩, hkey⟩⟩

theorem inject_lr (hnum : numLr ≤ 64) (h : LrInv numLr start s) {v : VcpuId} {vcpu : Vcpu}
    (hv : s.machine.vcpus v = some vcpu) (virq pirq : U32) (hw : U8) :
    ∃ t, lrStep numLr s (.virq (.inject v virq pirq hw)) = some t ∧
      (UniqueLrs numLr t.machine.gich.lr → LrInv numLr start t) ∧
      (UniqueLrs numLr t.machine.gich.lr ↔
        ¬ Duplicates numLr s (.virq (.inject v virq pirq hw))) := by
  have hentry := lrOccupied_of_getLsbD (getLsbD_lrEntryOf vcpu virq pirq hw)
  obtain ⟨done, t, hinject, hdelivery, -⟩ := virqInject_spec hnum h.delivery hv virq pirq hw
  have hstep : lrStep numLr s (.virq (.inject v virq pirq hw)) = some t := by
    rw [lrStep, virqStep, hinject, Option.map_some]
  rw [DeliveryState.virqInject, hv, Option.map_some, Option.some.injEq, Prod.mk.injEq] at hinject
  obtain ⟨-, rfl⟩ := hinject
  refine ⟨_, hstep, h.store hv ?_ hdelivery, ?_⟩
  · rcases virqInject_cases hnum (v == s.current) vcpu virq pirq hw s.machine.gich with
      ⟨-, n, -, -, heq⟩ | ⟨i, -, -, heq⟩ | ⟨heq, -⟩
    · rw [heq]
    · rw [heq, storePending]
    · rw [heq]
  · by_cases hfree : v = s.current ∧ ∃ n < numLr, lrOccupied (s.machine.gich.lr n) = false
    · obtain ⟨hcur, n, hn, hempty⟩ := hfree
      obtain ⟨i, hi, hfree, heq⟩ := virqInject_of_free hnum hn hempty vcpu virq pirq hw
      rw [beq_iff_eq.mpr hcur, heq]
      refine (uniqueLrs_writeLr hi hfree hentry).trans ?_
      rw [and_iff_right h.running]
      refine not_congr ⟨fun hsame => ⟨hcur, ⟨n, hn, hempty⟩, vcpu, hv, hsame⟩, ?_⟩
      rintro ⟨-, -, u, hu, hsame⟩
      rw [hv, Option.some.injEq] at hu
      subst hu
      exact hsame
    · have hrunning := h.running
      refine iff_of_true ?_ fun hdup => hfree ⟨hdup.1, hdup.2.1⟩
      rcases virqInject_cases hnum (v == s.current) vcpu virq pirq hw s.machine.gich with
        ⟨hrun, n, hn, hempty, -⟩ | ⟨i, -, -, heq⟩ | ⟨heq, -⟩
      · exact absurd ⟨beq_iff_eq.mp hrun, n, hn, hempty⟩ hfree
      · rw [heq]
        exact hrunning
      · rw [heq]
        exact hrunning

theorem uniqueLrs_drain (hnum : numLr ≤ 64) {vcpu : Vcpu} (hqueue : QueueValid vcpu.pendingIrqs)
    (g : Gich) :
    UniqueLrs numLr (gicInjectPendingIrqs numLr vcpu g).2.lr ↔ ¬ Crowds numLr g.lr vcpu := by
  have hcontents := injectPendingLoop_contents hnum (List.nodup_range (n := virqMaxEntries))
    (fun i hi => hqueue i (List.mem_range.mp hi)) g
  rw [uniqueLrs_iff, Crowds, not_not, ← hcontents]
  rfl

theorem drain_lr (hnum : numLr ≤ 64) (h : LrInv numLr start s) :
    ∃ t, lrStep numLr s (.virq .drain) = some t ∧
      (UniqueLrs numLr t.machine.gich.lr → LrInv numLr start t) ∧
      (UniqueLrs numLr t.machine.gich.lr ↔ ¬ Duplicates numLr s (.virq .drain)) := by
  obtain ⟨vcpu, -, hv, -⟩ := h.delivery.current.exists_vcpu
  obtain ⟨t, hstep, hdelivery, -⟩ := drain_spec hnum h.delivery
  refine ⟨t, hstep, ?_⟩
  rw [virqStep, hv, Option.map_some, Option.some.injEq] at hstep
  subst hstep
  refine ⟨h.store hv (by rfl) hdelivery, ?_⟩
  refine (uniqueLrs_drain hnum (h.delivery.queue _ vcpu hv) s.machine.gich).trans (not_congr ?_)
  rw [Duplicates, hv]
  constructor
  · intro hcrowds
    exact ⟨vcpu, rfl, hcrowds⟩
  · rintro ⟨_, hsame, hcrowds⟩
    rw [Option.some.inj hsame]
    exact hcrowds

theorem drainedEntries_congr {lr lr' : ℕ → U32} (h : ∀ i < numLr, lr i = lr' i)
    (entries : List U32) : drainedEntries numLr lr entries = drainedEntries numLr lr' entries := by
  rw [drainedEntries, drainedEntries, contents_congr h]

theorem crowds_congr {lr lr' : ℕ → U32} (h : ∀ i < numLr, lr i = lr' i) {vcpu vcpu' : Vcpu}
    (hpending : vcpu.pendingIrqs = vcpu'.pendingIrqs) :
    Crowds numLr lr vcpu ↔ Crowds numLr lr' vcpu' := by
  rw [Crowds, Crowds, contents_congr h, drainedEntries_congr h, hpending]

/-- A switch restores list registers that were saved, and drains the queue. -/
theorem switch_lr (hnum : numLr ≤ 64) (h : LrInv numLr start s) {n : VcpuId}
    (hn : Schedulable start n) :
    ∃ t, lrStep numLr s (.virq (.switch n)) = some t ∧
      (UniqueLrs numLr t.machine.gich.lr → LrInv numLr start t) ∧
      (UniqueLrs numLr t.machine.gich.lr ↔ ¬ Duplicates numLr s (.virq (.switch n))) := by
  obtain ⟨t, ht, hdelivery, -⟩ := switch_spec hnum h.delivery hn
  obtain ⟨mid, vcpu, hstep, hvcpu, -, hmid⟩ := switch_mid numLr h.delivery hn
  rw [hstep, Option.some.injEq] at ht
  subst ht
  obtain ⟨u, hu, hpending, hlr⟩ := hmid n vcpu hvcpu
  have hqueue : QueueValid vcpu.pendingIrqs := by
    rw [hpending]
    exact h.delivery.queue n u hu
  refine ⟨_, hstep, fun hunique => ⟨hdelivery, hunique, fun w x hx => ?_⟩, ?_⟩
  · have hall : ∀ w x, mid.vcpus w = some x → UniqueLrs numLr x.lr := by
      intro w x hx
      obtain ⟨y, hy, -, hsame⟩ := hmid w x hx
      exact (uniqueLrs_congr hsame).mpr (h.lrOf hy)
    by_cases hw : w = n
    · rw [hw] at hx
      obtain rfl : _ = x := Option.some.inj ((setVcpu_vcpus_self _ _ _).symm.trans hx)
      exact hall n vcpu hvcpu
    · exact hall w x ((setVcpu_vcpus_of_ne _ hw _).symm.trans hx)
  · have hrestored : ∀ i < numLr, (restoreLrs numLr vcpu.lr mid.gich).lr i = s.lrOf n u i :=
      fun i hi => (restoreLrs_lr numLr vcpu.lr mid.gich hi).trans (hlr i hi)
    refine (uniqueLrs_drain hnum hqueue
      { restoreLrs numLr vcpu.lr mid.gich with vmcr := vcpu.vmcr }).trans (not_congr ?_)
    refine (crowds_congr hrestored hpending).trans ?_
    rw [Duplicates, hu]
    exact ⟨fun hcrowds => ⟨u, rfl, hcrowds⟩, fun ⟨_, rfl, hcrowds⟩ => hcrowds⟩

theorem maintenanceTurn_lr (map : Fin 1024 → VirqTable) (shift slot i : ℕ) (st : Gich × List U32) :
    (maintenanceTurn map shift slot st).1.lr i = st.1.lr i ∨
      (maintenanceTurn map shift slot st).1.lr i = 0 := by
  have hgich : (maintenanceTurn map shift slot st).1 = st.1.writeLr (slot + shift) 0 := by
    rw [maintenanceTurn]
    split <;> rfl
  rw [hgich, Gich.writeLr]
  by_cases hi : i = slot + shift
  · right
    rw [hi]
    exact Function.update_self ..
  · left
    exact Function.update_of_ne hi ..

theorem foldl_maintenanceTurn_lr (map : Fin 1024 → VirqTable) (shift i : ℕ) (slots : List ℕ)
    (st : Gich × List U32) :
    (slots.foldl (fun st slot => maintenanceTurn map shift slot st) st).1.lr i = st.1.lr i ∨
      (slots.foldl (fun st slot => maintenanceTurn map shift slot st) st).1.lr i = 0 := by
  induction slots generalizing st with
  | nil => exact .inl rfl
  | cons slot slots ih =>
      rw [List.foldl_cons]
      rcases ih (maintenanceTurn map shift slot st) with hsame | hzero
      · rw [hsame]
        exact maintenanceTurn_lr map shift slot i st
      · exact .inr hzero

theorem gicIsrMaintenanceIrq_lr (misr eisr₀ eisr₁ : U32) (map : Fin 1024 → VirqTable) (g : Gich)
    (i : ℕ) :
    (gicIsrMaintenanceIrq misr eisr₀ eisr₁ map g).2.1.lr i = g.lr i ∨
      (gicIsrMaintenanceIrq misr eisr₀ eisr₁ map g).2.1.lr i = 0 := by
  rw [gicIsrMaintenanceIrq]
  split
  · dsimp only
    rw [scan_eq, scan_eq]
    rcases foldl_maintenanceTurn_lr map 32 i (bitsBelow eisr₁ 32)
      ((bitsBelow eisr₀ 32).foldl (fun st slot => maintenanceTurn map 0 slot st) (g, [])) with
      hsame | hzero
    · rw [hsame]
      exact foldl_maintenanceTurn_lr map 0 i (bitsBelow eisr₀ 32) (g, [])
    · exact .inr hzero
  · exact .inl rfl

theorem maintenance_lr (h : LrInv numLr start s) (misr eisr₀ eisr₁ : U32) :
    ∃ t, lrStep numLr s (.maintenance misr eisr₀ eisr₁) = some t ∧ LrInv numLr start t := by
  obtain ⟨vcpu, -, hv, -⟩ := h.delivery.current.exists_vcpu
  refine ⟨_, by rw [lrStep, hv, Option.map_some], h.store hv rfl
    (deliveryInv_store h.delivery hv rfl (h.delivery.queue _ vcpu hv) _) ?_⟩
  refine h.running.of_kept fun i _ hocc => ?_
  rcases gicIsrMaintenanceIrq_lr misr eisr₀ eisr₁ vcpu.map s.machine.gich i with hsame | hzero
  · rw [hsame] at hocc ⊢
    exact ⟨hocc, rfl⟩
  · rw [hzero] at hocc
    exact Bool.noConfusion hocc

theorem guest_lr (h : LrInv numLr start s) (n : ℕ) (state : BitVec 2) :
    ∃ t, lrStep numLr s (.guest n state) = some t ∧ LrInv numLr start t := by
  rw [lrStep]
  split
  · next hn =>
      refine ⟨_, rfl, ⟨⟨h.delivery.same.vms, h.delivery.same.vmidOf⟩,
        ⟨h.delivery.current.valid, h.delivery.current.vm⟩, h.delivery.queue⟩, ?_, h.saved⟩
      refine h.running.of_kept fun i _ hocc => ?_
      rw [Gich.writeLr] at hocc ⊢
      dsimp only at hocc ⊢
      by_cases hi : i = n
      · rw [hi, Function.update_self]
        exact ⟨hn.2, lrKey_lrWithState state _⟩
      · rw [Function.update_of_ne hi] at hocc ⊢
        exact ⟨hocc, rfl⟩
  · exact ⟨s, rfl, h⟩

/-! ## Runs -/

/-- An event leaves the list registers without duplicates if and only if it is none of those that
store an interrupt twice. -/
theorem lrStep_spec (hnum : numLr ≤ 64) (h : LrInv numLr start s) {e : LrEvent}
    (he : e.Valid start) :
    ∃ t, lrStep numLr s e = some t ∧ (UniqueLrs numLr t.machine.gich.lr → LrInv numLr start t) ∧
      (UniqueLrs numLr t.machine.gich.lr ↔ ¬ Duplicates numLr s e) := by
  have hnever : ∀ {e}, (∃ t, lrStep numLr s e = some t ∧ LrInv numLr start t) →
      ¬ Duplicates numLr s e → ∃ t, lrStep numLr s e = some t ∧
        (UniqueLrs numLr t.machine.gich.lr → LrInv numLr start t) ∧
        (UniqueLrs numLr t.machine.gich.lr ↔ ¬ Duplicates numLr s e) :=
    fun ⟨t, ht, hinv⟩ hnot => ⟨t, ht, fun _ => hinv, iff_of_true hinv.running hnot⟩
  cases e with
  | virq e =>
      cases e with
      | inject v virq pirq hw =>
          obtain ⟨vcpu, hv⟩ := exists_vcpu_of_vmidOf h.delivery he
          exact inject_lr hnum h hv virq pirq hw
      | drain => exact drain_lr hnum h
      | switch n => exact switch_lr hnum h he
  | maintenance misr eisr₀ eisr₁ => exact hnever (maintenance_lr h misr eisr₀ eisr₁) id
  | guest n state => exact hnever (guest_lr h n state) id

/-- From empty list registers, no two list registers hold the same pending or active interrupt
throughout exactly the runs in which no injection and no drain stores an interrupt that a list
register holds already. -/
theorem unique_lrs_iff (hnum : numLr ≤ 64) (hcurrent : Schedulable s.machine s.current)
    (hqueue : ∀ v vcpu, s.machine.vcpus v = some vcpu → QueueValid vcpu.pendingIrqs)
    (hempty : ∀ i < numLr, lrOccupied (s.machine.gich.lr i) = false)
    (hsaved : ∀ v vcpu, s.machine.vcpus v = some vcpu →
      ∀ i < numLr, lrOccupied (vcpu.lr i) = false)
    {es : List LrEvent} (hes : ∀ e ∈ es, e.Valid s.machine) :
    Always (lrStep numLr) (fun t => UniqueLrs numLr t.machine.gich.lr) s es ↔
      ¬ Happened (lrStep numLr) (Duplicates numLr) s es := by
  have hunique : ∀ {lr : ℕ → U32}, (∀ i < numLr, lrOccupied (lr i) = false) →
      UniqueLrs numLr lr := fun hfree => by
    rw [uniqueLrs_iff, contents_empty hfree]
    exact Multiset.nodup_zero
  have hstart : LrInv numLr s.machine s :=
    ⟨⟨.refl _, hcurrent, hqueue⟩, hunique hempty, fun v vcpu hv => hunique (hsaved v vcpu hv)⟩
  refine always_iff_not_happened hstart (fun u hu => hu.running) (fun u e he v hu hnot hv => ?_)
    fun u e he hu hdup => ?_
  · obtain ⟨t, ht, hinv, hiff⟩ := lrStep_spec hnum hu (hes e he)
    rw [ht, Option.some.injEq] at hv
    rw [← hv]
    exact hinv (hiff.mpr hnot)
  · obtain ⟨t, ht, -, hiff⟩ := lrStep_spec hnum hu (hes e he)
    exact ⟨t, ht, fun hu => hiff.mp hu hdup⟩

theorem unique_lrs_iff_twoVcpus :
    Always (lrStep 4) (fun t => UniqueLrs 4 t.machine.gich.lr) ⟨twoVcpus, default, 0⟩
        [.virq (.inject 0 27 0 0), .guest 0 0, .maintenance 1 1 0, .virq (.switch 1)] ↔
      ¬ Happened (lrStep 4) (Duplicates 4) ⟨twoVcpus, default, 0⟩
        [.virq (.inject 0 27 0 0), .guest 0 0, .maintenance 1 1 0, .virq (.switch 1)] := by
  have hdefault : ∀ v vcpu, twoVcpus.vcpus v = some vcpu → vcpu = default := by
    intro v vcpu hv
    by_cases hlt : v < 2
    · exact (Option.some.inj ((if_pos hlt).symm.trans hv)).symm
    · exact absurd ((if_neg hlt).symm.trans hv) (by simp)
  have hzero : ∀ {raw : U32}, raw = 0 → lrOccupied raw = false := fun h => by
    rw [h]
    decide
  refine unique_lrs_iff (by decide) (schedulable_twoVcpus (by decide))
    (fun v vcpu hv i _ hused => ?_)
    (fun _ _ => hzero rfl) (fun v vcpu hv i _ => ?_) (fun e he => ?_)
  · rw [hdefault v vcpu hv] at hused
    exact Bool.noConfusion hused
  · rw [hdefault v vcpu hv]
    exact hzero rfl
  · simp only [List.mem_cons, List.not_mem_nil, or_false] at he
    rcases he with rfl | rfl | rfl | rfl
    · rfl
    · trivial
    · trivial
    · exact schedulable_twoVcpus (by decide)

/-- Interrupt 27 is injected again while the guest handles it. -/
theorem injected_twice :
    ¬ Always (lrStep 4) (fun t => UniqueLrs 4 t.machine.gich.lr) ⟨twoVcpus, default, 0⟩
      [.virq (.inject 0 27 0 0), .guest 0 2, .virq (.inject 0 27 0 0)] := by
  intro hall
  have hlast : (run (lrStep 4) ⟨twoVcpus, default, 0⟩
      [.virq (.inject 0 27 0 0), .guest 0 2, .virq (.inject 0 27 0 0)]).map
        (fun t => (t.machine.gich.lr 0, t.machine.gich.lr 1)) =
          some (0x2008001B, 0x1008001B) := by
    decide +kernel
  obtain ⟨t, ht, hpair⟩ := Option.map_eq_some_iff.mp hlast
  obtain ⟨hfirst, hsecond⟩ := Prod.mk.inj hpair
  have hsame := hall.last ht 0 (by decide) 1 (by decide) (by rw [hfirst]; decide)
    (by rw [hsecond]; decide) (by rw [hfirst, hsecond]; decide)
  exact absurd hsame (by decide)

end KHypervisor
