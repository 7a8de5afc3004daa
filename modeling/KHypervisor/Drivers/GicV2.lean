import KHypervisor.Lib.BitScan
import KHypervisor.Lib.Slots
import KHypervisor.Vm.Vcpu

/-!
# Injection of virtual interrupts

The list registers of the virtual interface, the search for a free one, and the two ways an
interrupt reaches a list register: at once, or through the queue of its virtual processor.

An injection that succeeds adds its entry to what the processor holds, one that fails leaves
everything as it was (`virqInject_cases`), and draining the queue moves entries only
(`gicInjectPendingIrqs_held`). Neither overwrites an occupied list register.
-/

namespace KHypervisor

open BitScan Slots

structure Gich where
  hcr : U32
  vmcr : U32
  lr : ℕ → U32
deriving Inhabited

/-- `GICH_WRITE(GICH_LR(n), v)`. -/
def Gich.writeLr (n : ℕ) (v : U32) (g : Gich) : Gich := { g with lr := Function.update g.lr n v }

/-- `VIRQ_MAX_ENTRIES`. -/
def virqMaxEntries : ℕ := 64

/-- `VGIC_SLOT_NOTFOUND`. -/
def vgicSlotNotfound : U32 := 0xFFFFFFFF

/-- `EOI_ENABLE`. -/
def eoiEnable : U32 := 1

/-- `GICH_HCR_EN`. -/
def gichHcrEn : U32 := 0x1

/-- A list register is occupied when its state field, bits 29 and 28, is not inactive. -/
def lrOccupied (raw : U32) : Bool := raw.extractLsb' 28 2 != 0

def entryUsed (raw : U32) : Bool := raw != 0

/-- `GICH_READ(GICH_ELSR(n))`: a bit is set for every empty list register. -/
def elsr (numLr : ℕ) (g : Gich) (n : ℕ) : U32 :=
  ofBits 32 fun i => decide (32 * n + i < numLr) && !lrOccupied (g.lr (32 * n + i))

/-- `gic_find_free_slot`. -/
def gicFindFreeSlot (numLr : ℕ) (g : Gich) : U32 :=
  let slot := elsr numLr g 0
  let (slot, shift) : U32 × U32 :=
    if slot = 0 ∧ 32 < numLr then (elsr numLr g 1, 32) else (slot, 0)
  if slot ≠ 0 then
    let slot := slot &&& -slot
    let slot := 31 - slot.clz
    slot + shift
  else vgicSlotNotfound

/-- `gic_inject_virq`. -/
def gicInjectVirq (lrEntry slot : U32) (g : Gich) : Gich := g.writeLr slot.toNat lrEntry

/-- `gich_disable`. -/
def gichDisable (g : Gich) : Gich := { g with hcr := g.hcr &&& ~~~gichHcrEn }

/-- `gich_enable`. -/
def gichEnable (g : Gich) : Gich := { g with hcr := g.hcr ||| gichHcrEn }

/-- The loop of `gic_inject_pending_irqs` over the indices that are left. -/
def injectPendingLoop (numLr : ℕ) : List ℕ → (ℕ → U32) → Gich → (ℕ → U32) × Gich
  | [], entries, g => (entries, g)
  | i :: is, entries, g =>
      if entries i ≠ 0 then
        let slot := gicFindFreeSlot numLr g
        if slot = vgicSlotNotfound then (entries, g)
        else
          injectPendingLoop numLr is (Function.update entries i 0)
            (gicInjectVirq (entries i) slot g)
      else injectPendingLoop numLr is entries g

/-- `gic_inject_pending_irqs`. -/
def gicInjectPendingIrqs (numLr : ℕ) (vcpu : Vcpu) (g : Gich) : Vcpu × Gich :=
  let (entries, g) := injectPendingLoop numLr (List.range virqMaxEntries) vcpu.pendingIrqs g
  ({ vcpu with pendingIrqs := entries }, g)

/-- `set_lr_entry`. -/
def setLrEntry (hw : U8) (pirq virq : U32) : U32 :=
  (0x10000000 : U32) ||| hw.setWidth 32 <<< 31 ||| pirq <<< 10 ||| virq

/-- `vcpu->pending_irqs[i] = v`. -/
def storePending (i : ℕ) (v : U32) (vcpu : Vcpu) : Vcpu :=
  { vcpu with pendingIrqs := Function.update vcpu.pendingIrqs i v }

/-- The loop of `virq_inject` that looks for a free entry of the queue. -/
def enqueue (lrEntry : U32) (vcpu : Vcpu) : Bool × Vcpu :=
  match (List.range virqMaxEntries).find? fun i => vcpu.pendingIrqs i == 0 with
  | some i => (true, storePending i lrEntry vcpu)
  | none => (false, vcpu)

/-- The entry that `virq_inject` makes of its arguments. -/
def lrEntryOf (vcpu : Vcpu) (virq pirq : U32) (hw : U8) : U32 :=
  let pirq : U32 :=
    if hw = 0 then (0 : U32) ||| BitVec.ofNat 32 vcpu.pcpuid ||| eoiEnable <<< 9 else pirq
  setLrEntry hw pirq virq

/-- `virq_inject`. The processor is running when `get_current_vcpuid` returns its number. -/
def virqInject (numLr : ℕ) (running : Bool) (vcpu : Vcpu) (virq pirq : U32) (hw : U8) (g : Gich) :
    Bool × Vcpu × Gich :=
  let lrEntry := lrEntryOf vcpu virq pirq hw
  if running then
    let slot := gicFindFreeSlot numLr g
    if slot = vgicSlotNotfound then
      let (done, vcpu) := enqueue lrEntry vcpu
      (done, vcpu, g)
    else (true, vcpu, gicInjectVirq lrEntry slot g)
  else
    let (done, vcpu) := enqueue lrEntry vcpu
    (done, vcpu, g)

/-! ## The search for a free list register -/

theorem getLsbD_elsr (numLr : ℕ) (g : Gich) (n : ℕ) {i : ℕ} (hi : i < 32) :
    (elsr numLr g n).getLsbD i =
      (decide (32 * n + i < numLr) && !lrOccupied (g.lr (32 * n + i))) := by
  rw [elsr, getLsbD_ofBits _ hi]

theorem elsr_eq_zero_iff {numLr : ℕ} {g : Gich} {n : ℕ} :
    elsr numLr g n = 0 ↔
      ∀ i < 32, 32 * n + i < numLr → lrOccupied (g.lr (32 * n + i)) = true := by
  rw [elsr, ofBits_eq_zero_iff]
  refine forall_congr' fun i => imp_congr_right fun _ => ?_
  simp

theorem exists_of_elsr_ne_zero {numLr : ℕ} {g : Gich} {n : ℕ} (h : elsr numLr g n ≠ 0) :
    ∃ i < 32, 32 * n + i < numLr ∧ lrOccupied (g.lr (32 * n + i)) = false ∧
      31 - (elsr numLr g n &&& -elsr numLr g n).clz = BitVec.ofNat 32 i := by
  have hset := getLsbD_lowest h
  have hlt := lowest_lt h
  rw [getLsbD_elsr _ _ _ hlt, Bool.and_eq_true, decide_eq_true_eq, Bool.not_eq_true'] at hset
  refine ⟨(lowest (elsr numLr g n)).toNat, hlt, hset.1, hset.2, ?_⟩
  rw [BitVec.ofNat_toNat, BitVec.setWidth_eq]
  rfl

theorem gicFindFreeSlot_low {numLr : ℕ} {g : Gich} (h : elsr numLr g 0 ≠ 0) :
    gicFindFreeSlot numLr g = 31 - (elsr numLr g 0 &&& -elsr numLr g 0).clz := by
  have hfirst : ¬ (elsr numLr g 0 = 0 ∧ 32 < numLr) := fun hc => h hc.1
  rw [gicFindFreeSlot, if_neg hfirst]
  dsimp only
  rw [if_pos h]
  exact add_zero _

theorem gicFindFreeSlot_high {numLr : ℕ} {g : Gich} (hlow : elsr numLr g 0 = 0)
    (hnum : 32 < numLr) (h : elsr numLr g 1 ≠ 0) :
    gicFindFreeSlot numLr g = 31 - (elsr numLr g 1 &&& -elsr numLr g 1).clz + 32 := by
  rw [gicFindFreeSlot, if_pos ⟨hlow, hnum⟩]
  dsimp only
  rw [if_pos h]

theorem gicFindFreeSlot_none {numLr : ℕ} {g : Gich} (hlow : elsr numLr g 0 = 0)
    (h : 32 < numLr → elsr numLr g 1 = 0) : gicFindFreeSlot numLr g = vgicSlotNotfound := by
  rw [gicFindFreeSlot]
  by_cases hnum : 32 < numLr
  · rw [if_pos ⟨hlow, hnum⟩]
    dsimp only
    rw [if_neg fun hne => hne (h hnum)]
  · rw [if_neg fun hc => hnum hc.2]
    dsimp only
    rw [if_neg fun hne => hne hlow]

/-- Either all the list registers are occupied, or the search finds a free one. -/
theorem gicFindFreeSlot_cases {numLr : ℕ} (hnum : numLr ≤ 64) (g : Gich) :
    (gicFindFreeSlot numLr g = vgicSlotNotfound ∧
      ∀ i < numLr, lrOccupied (g.lr i) = true) ∨
    ∃ i < numLr, lrOccupied (g.lr i) = false ∧
      gicFindFreeSlot numLr g ≠ vgicSlotNotfound ∧ (gicFindFreeSlot numLr g).toNat = i := by
  -- A slot that is found has a number below 64, which the result for none is not.
  have hfound : ∀ {i : ℕ}, i < 64 → gicFindFreeSlot numLr g = BitVec.ofNat 32 i →
      gicFindFreeSlot numLr g ≠ vgicSlotNotfound ∧ (gicFindFreeSlot numLr g).toNat = i := by
    intro i hi hslot
    have hnat : (BitVec.ofNat 32 i).toNat = i := Nat.mod_eq_of_lt (by omega)
    refine ⟨fun hnone => ?_, by rw [hslot, hnat]⟩
    have htop : vgicSlotNotfound.toNat = 0xFFFFFFFF := rfl
    rw [hslot] at hnone
    rw [hnone, htop] at hnat
    omega
  by_cases hlow : elsr numLr g 0 = 0
  · have hfirst : ∀ i < 32, i < numLr → lrOccupied (g.lr i) = true := by
      simpa using elsr_eq_zero_iff.mp hlow
    by_cases hmore : 32 < numLr
    · by_cases hhigh : elsr numLr g 1 = 0
      · refine Or.inl ⟨gicFindFreeSlot_none hlow fun _ => hhigh, fun i hi => ?_⟩
        by_cases hi32 : i < 32
        · exact hfirst i hi32 hi
        · obtain ⟨j, rfl⟩ := Nat.exists_eq_add_of_le (Nat.le_of_not_lt hi32)
          exact elsr_eq_zero_iff.mp hhigh j (by omega) (by omega)
      · obtain ⟨i, hi, hnumLr, hfree, hslot⟩ := exists_of_elsr_ne_zero hhigh
        refine Or.inr ⟨32 + i, hnumLr, hfree, hfound (by omega) ?_⟩
        have hsum : BitVec.ofNat 32 i + 32 = BitVec.ofNat 32 (32 + i) := by
          rw [Nat.add_comm, BitVec.ofNat_add]
          rfl
        rw [← hsum, ← hslot, gicFindFreeSlot_high hlow hmore hhigh]
    · exact Or.inl ⟨gicFindFreeSlot_none hlow fun h => absurd h hmore,
        fun i hi => hfirst i (by omega) hi⟩
  · obtain ⟨i, hi, hnumLr, hfree, hslot⟩ := exists_of_elsr_ne_zero hlow
    rw [Nat.mul_zero, Nat.zero_add] at hnumLr hfree
    refine Or.inr ⟨i, hnumLr, hfree, hfound (by omega) ?_⟩
    rw [← hslot, gicFindFreeSlot_low hlow]

/-! ## What a processor holds -/

/-- The interrupts in the occupied ones of the given list registers and in the queue. -/
def heldIn (numLr : ℕ) (lr pendingIrqs : ℕ → U32) : Multiset U32 :=
  contents lrOccupied numLr lr + contents entryUsed virqMaxEntries pendingIrqs

/-- Used entries of the queue are pending interrupts. -/
def QueueValid (pendingIrqs : ℕ → U32) : Prop :=
  ∀ i < virqMaxEntries, entryUsed (pendingIrqs i) = true → lrOccupied (pendingIrqs i) = true

def LrKept (numLr : ℕ) (lr lr' : ℕ → U32) : Prop :=
  ∀ i < numLr, lrOccupied (lr i) = true → lr' i = lr i

theorem LrKept.refl (numLr : ℕ) (lr : ℕ → U32) : LrKept numLr lr lr := fun _ _ _ => rfl

theorem LrKept.trans {numLr : ℕ} {lr lr' lr'' : ℕ → U32} (h : LrKept numLr lr lr')
    (h' : LrKept numLr lr' lr'') : LrKept numLr lr lr'' := by
  intro i hi hocc
  have hsame := h i hi hocc
  rw [h' i hi (by rw [hsame]; exact hocc), hsame]

theorem lrKept_writeLr {numLr n : ℕ} {g : Gich} (hfree : lrOccupied (g.lr n) = false) (v : U32) :
    LrKept numLr g.lr (g.writeLr n v).lr := by
  intro i _ hocc
  refine Function.update_of_ne ?_ _ _
  rintro rfl
  rw [hfree] at hocc
  exact Bool.noConfusion hocc

theorem lrOccupied_of_getLsbD {raw : U32} (h : raw.getLsbD 28 = true) :
    lrOccupied raw = true := by
  rw [lrOccupied, bne_iff_ne]
  intro hzero
  have hbit : (raw.extractLsb' 28 2).getLsbD 0 = raw.getLsbD 28 := by
    simp
  rw [hzero, h] at hbit
  exact Bool.noConfusion hbit

theorem entryUsed_of_getLsbD {raw : U32} (h : raw.getLsbD 28 = true) : entryUsed raw = true := by
  rw [entryUsed, bne_iff_ne]
  rintro rfl
  exact Bool.noConfusion h

theorem getLsbD_lrEntryOf (vcpu : Vcpu) (virq pirq : U32) (hw : U8) :
    (lrEntryOf vcpu virq pirq hw).getLsbD 28 = true := by
  have hpending : (0x10000000 : U32).getLsbD 28 = true := by decide
  rw [lrEntryOf, setLrEntry, BitVec.getLsbD_or, BitVec.getLsbD_or, BitVec.getLsbD_or, hpending]
  simp only [Bool.true_or]

/-! ## Draining the queue -/

theorem queueValid_clear {entries : ℕ → U32} (hvalid : QueueValid entries) (i : ℕ) :
    QueueValid (Function.update entries i 0) := by
  have hclear : entryUsed 0 = false := by decide
  intro j hj hused
  by_cases hji : j = i
  · rw [hji, Function.update_self, hclear] at hused
    exact Bool.noConfusion hused
  · rw [Function.update_of_ne hji] at hused ⊢
    exact hvalid j hj hused

section Drain

variable {numLr : ℕ} (hnum : numLr ≤ 64)

include hnum

theorem injectPendingLoop_kept (is : List ℕ) (entries : ℕ → U32) (g : Gich) :
    LrKept numLr g.lr (injectPendingLoop numLr is entries g).2.lr ∧
      (injectPendingLoop numLr is entries g).2.vmcr = g.vmcr := by
  induction is generalizing entries g with
  | nil => exact ⟨.refl _ _, rfl⟩
  | cons i is ih =>
      rw [injectPendingLoop]
      by_cases hused : entries i ≠ 0
      · rw [if_pos hused]
        dsimp only
        rcases gicFindFreeSlot_cases hnum g with ⟨hnone, -⟩ | ⟨n, -, hfree, hsome, hslot⟩
        · rw [if_pos hnone]
          exact ⟨.refl _ _, rfl⟩
        · rw [if_neg hsome, gicInjectVirq, hslot]
          obtain ⟨hkept, hvmcr⟩ := ih (Function.update entries i 0) (g.writeLr n (entries i))
          exact ⟨(lrKept_writeLr hfree _).trans hkept, hvmcr⟩
      · rw [if_neg hused]
        exact ih entries g

/-- Draining moves entries from the queue to list registers, each to one. -/
theorem injectPendingLoop_held {is : List ℕ} (his : ∀ i ∈ is, i < virqMaxEntries)
    {entries : ℕ → U32} (hvalid : QueueValid entries) (g : Gich) :
    heldIn numLr (injectPendingLoop numLr is entries g).2.lr
        (injectPendingLoop numLr is entries g).1 = heldIn numLr g.lr entries ∧
      QueueValid (injectPendingLoop numLr is entries g).1 := by
  induction is generalizing entries g with
  | nil => exact ⟨rfl, hvalid⟩
  | cons i is ih =>
      have hi := his i List.mem_cons_self
      have htail := fun j hj => his j (List.mem_cons_of_mem i hj)
      rw [injectPendingLoop]
      by_cases hused : entries i ≠ 0
      · rw [if_pos hused]
        dsimp only
        rcases gicFindFreeSlot_cases hnum g with ⟨hnone, -⟩ | ⟨n, hn, hfree, hsome, hslot⟩
        · rw [if_pos hnone]
          exact ⟨rfl, hvalid⟩
        · rw [if_neg hsome, gicInjectVirq, hslot]
          have hentry : entryUsed (entries i) = true := bne_iff_ne.mpr hused
          obtain ⟨hheld, hqueue⟩ := ih htail (queueValid_clear hvalid i) (g.writeLr n (entries i))
          refine ⟨?_, hqueue⟩
          rw [hheld, heldIn, Gich.writeLr, contents_fill hn hfree (hvalid i hi hentry), heldIn,
            ← contents_clear hi hentry (by decide : entryUsed 0 = false), add_assoc,
            add_comm {entries i}]
      · rw [if_neg hused]
        exact ih htail hvalid g

/-- The entries of a queue that find a list register, as many as there are free ones. -/
def drainedEntries (numLr : ℕ) (lr : ℕ → U32) (entries : List U32) : List U32 :=
  (entries.filter entryUsed).take (numLr - (contents lrOccupied numLr lr).card)

/-- Draining fills the free list registers with the first used entries. -/
theorem injectPendingLoop_contents {is : List ℕ} (his : is.Nodup) {entries : ℕ → U32}
    (hvalid : ∀ i ∈ is, entryUsed (entries i) = true → lrOccupied (entries i) = true) (g : Gich) :
    contents lrOccupied numLr (injectPendingLoop numLr is entries g).2.lr =
      contents lrOccupied numLr g.lr +
        (drainedEntries numLr g.lr (is.map entries) : Multiset U32) := by
  induction is generalizing entries g with
  | nil =>
      rw [injectPendingLoop, drainedEntries, List.map_nil, List.filter_nil, List.take_nil,
        Multiset.coe_nil, add_zero]
  | cons i is ih =>
      obtain ⟨hi, his⟩ := List.nodup_cons.mp his
      have hne : ∀ j ∈ is, j ≠ i := fun j hj h => hi (h ▸ hj)
      rw [injectPendingLoop, List.map_cons]
      by_cases hused : entries i ≠ 0
      · have hentry : entryUsed (entries i) = true := bne_iff_ne.mpr hused
        rw [if_pos hused, drainedEntries, List.filter_cons_of_pos hentry]
        dsimp only
        rcases gicFindFreeSlot_cases hnum g with ⟨hnone, hfull⟩ | ⟨n, hn, hfree, hsome, hslot⟩
        · rw [if_pos hnone, card_contents_of_full hfull, Nat.sub_self, List.take_zero,
            Multiset.coe_nil, add_zero]
        · have hoccupied := hvalid i List.mem_cons_self hentry
          have hfill : contents lrOccupied numLr (g.writeLr n (entries i)).lr =
              contents lrOccupied numLr g.lr + {entries i} := contents_fill hn hfree hoccupied
          have hcard : (contents lrOccupied numLr (g.writeLr n (entries i)).lr).card ≤ numLr :=
            card_contents_le numLr (g.writeLr n (entries i)).lr
          have hmap : is.map (Function.update entries i 0) = is.map entries :=
            List.map_congr_left fun j hj => Function.update_of_ne (hne j hj) _ _
          rw [if_neg hsome, gicInjectVirq, hslot, ih his, hfill, drainedEntries, hmap, hfill]
          · rw [hfill, Multiset.card_add, Multiset.card_singleton] at hcard
            rw [Multiset.card_add, Multiset.card_singleton, add_assoc, Multiset.singleton_add,
              Multiset.cons_coe, ← List.take_succ_cons, ← Nat.sub_sub,
              Nat.sub_add_cancel (Nat.le_sub_of_add_le' hcard)]
          · intro j hj
            rw [Function.update_of_ne (hne j hj)]
            exact hvalid j (List.mem_cons_of_mem _ hj)
      · have hentry : ¬ entryUsed (entries i) = true := fun h => hused (bne_iff_ne.mp h)
        rw [if_neg hused, ih his fun j hj => hvalid j (List.mem_cons_of_mem _ hj), drainedEntries,
          drainedEntries, List.filter_cons_of_neg hentry]

/-- `gic_inject_pending_irqs` keeps what the running processor holds. -/
theorem gicInjectPendingIrqs_held {vcpu : Vcpu} (hvalid : QueueValid vcpu.pendingIrqs) (g : Gich) :
    heldIn numLr (gicInjectPendingIrqs numLr vcpu g).2.lr
        (gicInjectPendingIrqs numLr vcpu g).1.pendingIrqs = heldIn numLr g.lr vcpu.pendingIrqs ∧
      QueueValid (gicInjectPendingIrqs numLr vcpu g).1.pendingIrqs :=
  injectPendingLoop_held hnum (fun _ hi => List.mem_range.mp hi) hvalid g

theorem gicInjectPendingIrqs_kept (vcpu : Vcpu) (g : Gich) :
    LrKept numLr g.lr (gicInjectPendingIrqs numLr vcpu g).2.lr ∧
      (gicInjectPendingIrqs numLr vcpu g).2.vmcr = g.vmcr :=
  injectPendingLoop_kept hnum (List.range virqMaxEntries) vcpu.pendingIrqs g

end Drain

/-! ## Injecting an interrupt -/

theorem enqueue_cases (lrEntry : U32) (vcpu : Vcpu) :
    (∃ i < virqMaxEntries, vcpu.pendingIrqs i = 0 ∧ enqueue lrEntry vcpu =
      (true, storePending i lrEntry vcpu)) ∨
    (enqueue lrEntry vcpu = (false, vcpu) ∧ ∀ i < virqMaxEntries, vcpu.pendingIrqs i ≠ 0) := by
  rw [enqueue]
  cases hfind : (List.range virqMaxEntries).find? fun i => vcpu.pendingIrqs i == 0 with
  | some i =>
      have hmem := List.mem_range.mp (List.mem_of_find?_eq_some hfind)
      exact Or.inl ⟨i, hmem, by simpa using List.find?_some hfind, rfl⟩
  | none =>
      refine Or.inr ⟨rfl, fun i hi => ?_⟩
      simpa using List.find?_eq_none.mp hfind i (List.mem_range.mpr hi)

/-- Where an injected interrupt goes: to a free list register of the running processor, to a free
entry of the queue, or nowhere, and then the queue is full. -/
theorem virqInject_cases {numLr : ℕ} (hnum : numLr ≤ 64) (running : Bool) (vcpu : Vcpu)
    (virq pirq : U32) (hw : U8) (g : Gich) :
    (running = true ∧ ∃ n < numLr, lrOccupied (g.lr n) = false ∧
      virqInject numLr running vcpu virq pirq hw g =
        (true, vcpu, g.writeLr n (lrEntryOf vcpu virq pirq hw))) ∨
    (∃ i < virqMaxEntries, vcpu.pendingIrqs i = 0 ∧
      virqInject numLr running vcpu virq pirq hw g =
        (true, storePending i (lrEntryOf vcpu virq pirq hw) vcpu, g)) ∨
    (virqInject numLr running vcpu virq pirq hw g = (false, vcpu, g) ∧
      ∀ i < virqMaxEntries, vcpu.pendingIrqs i ≠ 0) := by
  have hqueue : ∀ r, r = (let (done, v) := enqueue (lrEntryOf vcpu virq pirq hw) vcpu
      (done, v, g)) →
      (∃ i < virqMaxEntries, vcpu.pendingIrqs i = 0 ∧
        r = (true, storePending i (lrEntryOf vcpu virq pirq hw) vcpu, g)) ∨
      (r = (false, vcpu, g) ∧ ∀ i < virqMaxEntries, vcpu.pendingIrqs i ≠ 0) := by
    rintro r rfl
    rcases enqueue_cases (lrEntryOf vcpu virq pirq hw) vcpu with ⟨i, hi, hfree, heq⟩ | ⟨heq, hfull⟩
    · exact Or.inl ⟨i, hi, hfree, by rw [heq]⟩
    · exact Or.inr ⟨by rw [heq], hfull⟩
  cases running with
  | false => exact Or.inr (hqueue _ rfl)
  | true =>
      rcases gicFindFreeSlot_cases hnum g with ⟨hnone, -⟩ | ⟨n, hn, hfree, hsome, hslot⟩
      · refine Or.inr (hqueue _ ?_)
        simp only [virqInject, hnone, if_true]
      · refine Or.inl ⟨rfl, n, hn, hfree, ?_⟩
        simp only [virqInject, if_neg hsome, if_true, gicInjectVirq, hslot]

/-- An injection to the running processor takes a list register if one is free. -/
theorem virqInject_of_free {numLr : ℕ} (hnum : numLr ≤ 64) {g : Gich} {n : ℕ} (hn : n < numLr)
    (hfree : lrOccupied (g.lr n) = false) (vcpu : Vcpu) (virq pirq : U32) (hw : U8) :
    ∃ i < numLr, lrOccupied (g.lr i) = false ∧ virqInject numLr true vcpu virq pirq hw g =
      (true, vcpu, g.writeLr i (lrEntryOf vcpu virq pirq hw)) := by
  rcases gicFindFreeSlot_cases hnum g with ⟨-, hall⟩ | ⟨i, hi, hempty, hsome, hslot⟩
  · rw [hall n hn] at hfree
    exact Bool.noConfusion hfree
  · refine ⟨i, hi, hempty, ?_⟩
    simp only [virqInject, if_neg hsome, if_true, gicInjectVirq, hslot]

end KHypervisor
